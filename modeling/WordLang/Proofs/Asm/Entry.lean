import WordLang.Proofs.Asm.Execution

/-!
# Entering a routine

What a routine needs of the stack, and what is there when it has just been entered. The caller has
left the arguments in registers and right above the address to return to; the slots hold anything.
Once the frame is open, each argument is moved into its slot, in order.

How much stack a routine needs is known in advance: its slots, and the most that one of its calls
pushes. That this is less than an address space is not a matter of the program, since a list of
registers could be of any length here. It is a matter of the machine that made it: no list has more
members than an address space has room for (`Routine.Fits`). The one limit that a program can come
up against is the size of the frame, which has to fit in the instruction that opens it.

Moving an argument into its slot must not spoil the arguments that are still to come. Those in
machine registers are safe, as only one register is used to move the others; those on the stack are
above the address to return to, and the slots are below it (`Arrived`).
-/

namespace WordLang

/-! ## Room for the registers

A routine mentions only registers that it owns, so there is a word for each slot in a frame that has
a word for each register. -/

/-- An instruction mentions only its registers. -/
theorem InstKind.mem_registers_of_uses {kind : InstKind} {register : Register}
    (h : register ∈ kind.uses) : register ∈ kind.registers := by
  cases kind with
  | copy dst src => cases src <;> grind [uses, registers, operands, InstKind.dst, Operand.register?]
  | call dst callee args =>
    have hmem : ∀ arg, (arg ∈ args.take Asm.argRegs.length ∨ arg ∈ args.drop Asm.argRegs.length) →
        arg ∈ args := by
      intro arg harg
      rwa [← List.mem_append, List.take_append_drop] at harg
    grind [uses, registers, operands, InstKind.dst, Operand.register?]
  | _ => grind [uses, registers, operands, InstKind.dst, Operand.register?]

namespace Routine

variable {routine : Routine} {constants : List Constant}

/-- The registers that a routine owns. -/
def ownRegisters (routine : Routine) : List Register :=
  (List.range routine.temps).map (fun index => .temp ⟨index⟩) ++
    (List.range routine.addrs).map fun index => .addr ⟨index⟩

/-- The registers that a routine owns are finitely many. -/
theorem mem_ownRegisters {register : Register} (h : routine.owns register = true) :
    register ∈ routine.ownRegisters := by
  cases register with
  | temp t =>
    have hlt : t.index < routine.temps := of_decide_eq_true h
    exact List.mem_append_left _ (List.mem_map.mpr ⟨t.index, List.mem_range.mpr hlt, rfl⟩)
  | addr a =>
    have hlt : a.index < routine.addrs := of_decide_eq_true h
    exact List.mem_append_right _ (List.mem_map.mpr ⟨a.index, List.mem_range.mpr hlt, rfl⟩)

/-- A valid routine owns the registers that have slots. -/
theorem Valid.owns_of_mem_frame (h : routine.Valid constants) {register : Register}
    (hregister : register ∈ routine.frame) : routine.owns register = true := by
  rcases List.mem_append.mp (mem_firstUses.mp hregister) with harg | huse
  · obtain ⟨arg, hmem, rfl⟩ := List.mem_map.mp harg
    exact h.args arg hmem
  · obtain ⟨step, hstep, huse⟩ := List.mem_flatMap.mp huse
    exact (h.sound_of_mem_steps hstep).owned register (InstKind.mem_registers_of_uses huse)

/-- There is a word for every slot. -/
theorem Valid.length_frame_le (h : routine.Valid constants) :
    routine.frame.length ≤ routine.frameWords := by
  have hsubset : routine.frame ⊆ routine.ownRegisters :=
    fun register hmem => mem_ownRegisters (h.owns_of_mem_frame hmem)
  have hle := ((nodup_firstUses _).subperm hsubset).length_le
  simp only [ownRegisters, List.length_append, List.length_map, List.length_range] at hle
  exact Nat.le_trans hle (Nat.le_add_right _ _)

/-! ## Room for the calls

What a call pushes: its arguments from the seventh on, and a word to keep the stack aligned. -/

/-- The most words that a call of the routine pushes. -/
def outgoing (routine : Routine) : Nat :=
  routine.steps.foldr (fun step most => max step.inst.kind.pushed most) 0

/-- The words of stack that a routine needs: an address to return to, the caller's base, the slots,
what calls push, and the address that the called function returns to. -/
def reach (routine : Routine) : Nat :=
  routine.frameWords + 3 + routine.outgoing

/-- No step pushes more than the most. -/
theorem pushed_le_outgoing {step : Step} (h : step ∈ routine.steps) :
    step.inst.kind.pushed ≤ routine.outgoing := by
  unfold outgoing
  generalize routine.steps = steps at h
  induction steps with
  | nil => cases h
  | cons first rest ih =>
    rcases List.mem_cons.mp h with rfl | hmem
    · exact Nat.le_max_left _ _
    · exact Nat.le_trans (ih hmem) (Nat.le_max_right _ _)

/-- The most is no more than any bound for all of them. -/
theorem outgoing_le {most : Nat} (h : ∀ step ∈ routine.steps, step.inst.kind.pushed ≤ most) :
    routine.outgoing ≤ most := by
  unfold outgoing
  generalize routine.steps = steps at h
  induction steps with
  | nil => exact Nat.zero_le most
  | cons first rest ih =>
    rw [List.forall_mem_cons] at h
    exact Nat.max_le.mpr ⟨h.1, ih h.2⟩

/-- No list of registers is longer than what an address space can hold of them. -/
def maxRegisters : Nat :=
  2 ^ 60

/-- The frame of a routine can be opened, and its lists of registers are lists of a real machine. -/
structure Fits (routine : Routine) : Prop where
  frame : routine.frameWords * Asm.wordSize ≤ 65535
  args : routine.args.length < maxRegisters
  calls : ∀ inst ∈ routine.insts.toList, ∀ dst callee args, inst.kind = .call dst callee args →
    args.length < maxRegisters

end Routine

/-- What is pushed for a call is no more than its arguments are. -/
theorem Asm.padding_add_length_le (args : List Temp) :
    padding (args.drop argRegs.length) + (args.drop argRegs.length).length ≤ args.length := by
  simp only [padding, List.length_drop]
  change (args.length - 6) % 2 + (args.length - 6) ≤ args.length
  omega

/-- So a call pushes no more words than it has arguments. -/
theorem InstKind.pushed_call_le (dst : Option Temp) (callee : Symbol) (args : List Temp) :
    (InstKind.call dst callee args).pushed ≤ args.length :=
  Asm.padding_add_length_le args

namespace Routine

variable {routine : Routine} {constants : List Constant}

/-- The size of the frame has room in the instruction that opens it. -/
theorem Fits.frameBytes_eq (h : routine.Fits) :
    Asm.frameBytes routine.frameWords = routine.frameWords * Asm.wordSize := by
  apply Nat.mod_eq_of_lt
  exact Nat.lt_of_le_of_lt h.frame (by decide)

/-- The most that a call pushes is less than what an address space has room for. -/
theorem Fits.outgoing_lt (h : routine.Fits) : routine.outgoing < maxRegisters := by
  have hle : routine.outgoing ≤ maxRegisters - 1 := by
    apply outgoing_le
    intro step hstep
    have hinst := (mem_schedule_of_mem_steps hstep).2
    cases hkind : step.inst.kind with
    | call dst callee args =>
      have hmem : step.inst ∈ routine.insts.toList :=
        Array.mem_toList_iff.mpr (Array.mem_of_getElem? hinst)
      have hlt := h.calls step.inst hmem dst callee args hkind
      exact Nat.le_trans (InstKind.pushed_call_le dst callee args) (Nat.le_sub_one_of_lt hlt)
    | _ => exact Nat.zero_le _
  exact Nat.lt_of_le_sub_one (by decide) hle

/-! ## The stack on entry

A routine that has just been called, and the state of the graph that it starts with. Registers of
the graph hold anything at first, so they may hold what is left in the slots. -/

open Asm

/-- The part of the stack that is a routine's when it is entered with a core. -/
def extent (routine : Routine) (entry : Core) : Extent where
  top := entry.regs .rsp
  slots := routine.frameWords
  reach := routine.reach

/-- The stack of a routine that is entered with a core. -/
def activation (routine : Routine) (hvalid : routine.Valid constants) (hfits : routine.Fits)
    (entry : Core) : Activation where
  toExtent := routine.extent entry
  link := entry.top
  caller := entry.base
  registers := routine.frame
  registers_le := hvalid.length_frame_le
  slots_lt := by
    change routine.frameWords + 2 < routine.frameWords + 3 + routine.outgoing
    omega
  reach_le := by
    have hframe := hfits.frame
    have hcalls := hfits.outgoing_lt
    unfold maxRegisters at hcalls
    unfold wordSize at hframe
    change routine.frameWords + 3 + routine.outgoing ≤ 2 ^ 61
    omega

/-- What a slot holds when a routine is entered. -/
def leftover (routine : Routine) (entry : Core) (register : Register) : Word :=
  entry.memory.read (below (entry.regs .rsp) (routine.frame.idxOf register + 2))

/-- The arguments that a routine is entered with. -/
def passed (routine : Routine) (entry : Core) : List Word :=
  (List.range routine.args.length).map (entry.arg (above (entry.regs .rsp) 1))

/-- Where the graph of a routine starts that is entered with a core: with its arguments and its
memory, and the other registers hold what is left in their slots. -/
def enterFrom (routine : Routine) (entry : Core) : Graph.State :=
  routine.enter (routine.passed entry) (fun t => routine.leftover entry (.temp t))
    (fun a => routine.leftover entry (.addr a)) { memory := entry.memory, trace := [] }

/-- The same before the arguments are in their registers. -/
def unbound (routine : Routine) (entry : Core) : Graph.State where
  pc := some routine.start
  temps t := routine.leftover entry (.temp t)
  addrs a := routine.leftover entry (.addr a)
  outside := { memory := entry.memory, trace := [] }

end Routine

namespace Asm

variable {host : Host} {constants : List Constant} {routine : Routine} {entry core : Core}
  {act : Activation} {state : Graph.State} {ctx : Context}

/-- A core from which arguments can still be taken. -/
structure Arrived (act : Activation) (entry core : Core) : Prop where
  regs : ∀ reg ∈ argRegs, core.regs reg = entry.regs reg
  memory : ∀ place, act.slots + 2 ≤ depth act.top place → core.memory place = entry.memory place

/-- A frame that was opened has the slots as they were. -/
theorem exists_opened (host : Host) (words : Nat) (act : Activation) (state : Graph.State)
    (htop : act.top = entry.regs .rsp) (hlink : act.link = entry.top)
    (hcaller : act.caller = entry.base)
    (hregister : ∀ register ∈ act.registers,
      entry.memory.read (below act.top (act.slot register)) = state.register register)
    (hmemory : state.outside.memory = entry.memory)
    (htrace : List.Forall₂ Event.Shows state.outside.trace entry.trace) :
    ∃ core, (Instr.enter words).exec host entry = .next core ∧ core.trace = entry.trace ∧
      act.Keeps state core ∧ Arrived act entry core ∧
      core.regs .rsp = below act.top 1 - .ofNat 64 (frameBytes words) := by
  have hmax := act.reach_le
  have hlt := act.slots_lt
  -- only the word below the link is written, with the base of the caller
  have hread : ∀ k, k < act.slots + 2 → k ≠ 1 →
      (entry.push entry.base).memory.read (below act.top k) =
        entry.memory.read (below act.top k) := by
    intro k hk hne
    rw [htop]
    exact read_below_write (by omega) (by omega) hne
  have hplace : ∀ place, act.slots + 2 ≤ depth act.top place →
      (entry.push entry.base).memory place = entry.memory place := by
    intro place hplace
    rw [htop] at hplace
    exact write_of_depth_ne (by omega) (by omega)
  refine ⟨_, rfl, rfl, ⟨?_, ?_, ?_, ?_, ?_, htrace⟩, ⟨?_, hplace⟩, ?_⟩
  · rw [htop]
    rfl
  · have hzero := hread 0 (by omega) (by decide)
    rw [below_zero] at hzero
    refine hzero.trans ?_
    rw [hlink, htop]
    rfl
  · rw [htop, hcaller]
    exact Memory.read_write _ _ _
  · intro register hmem
    refine (hread _ (Activation.slot_lt hmem) (Nat.ne_of_gt (Nat.le_add_left 2 _))).trans ?_
    exact hregister register hmem
  · intro place hdepth
    rw [hmemory]
    exact hplace place (by omega)
  · intro reg hreg
    have hne := ne_rsp_of_mem_argRegs hreg
    change Function.update (Function.update entry.regs _ _) _ _ reg = _
    rw [Function.update_of_ne hne, Function.update_of_ne hne]
  · rw [htop]
    rfl

/-- Opening the frame leads to a core that holds the state of the graph before its arguments are
there. -/
theorem exists_entered (host : Host) (hvalid : routine.Valid constants) (hfits : routine.Fits)
    (htrace : entry.trace = []) :
    ∃ core, (Instr.enter routine.frameWords).exec host entry = .next core ∧
      core.trace = entry.trace ∧
      (routine.activation hvalid hfits entry).Holds (routine.unbound entry) core ∧
      Arrived (routine.activation hvalid hfits entry) entry core := by
  have hevents : List.Forall₂ Event.Shows (routine.unbound entry).outside.trace entry.trace := by
    rw [htrace]
    exact .nil
  obtain ⟨core, hexec, hsame, hkeeps, harrived, hstack⟩ :=
    exists_opened host routine.frameWords (routine.activation hvalid hfits entry)
      (routine.unbound entry) rfl rfl rfl (fun register _ => by cases register <;> rfl) rfl hevents
  refine ⟨core, hexec, hsame, ⟨hkeeps, ?_⟩, harrived⟩
  rw [hstack, hfits.frameBytes_eq]
  exact (below_below _ 1 routine.frameWords).trans (congrArg (below _) (Nat.add_comm _ _))

/-! ## Arguments

One argument after the other, from its place to its slot. -/

/-- Where an argument on the stack is, from the base and from the caller's view. -/
theorem above_base (top : Word) (index : Nat) :
    above (below top 1) (2 + index) = above (above top 1) index := by
  unfold above below wordSize
  bv_omega

/-- Going up twice. -/
theorem above_above (address : Word) (first second : Nat) :
    above (above address first) second = above address (first + second) := by
  simp only [above]
  rw [add_assoc, ← BitVec.ofNat_add, Nat.add_mul]

/-- An argument on the stack is still there. -/
theorem Arrived.read_incoming (h : Arrived act entry core) {index : Nat}
    (hroom : index + act.slots + 3 ≤ maxWords) :
    core.memory.read (above (above act.top 1) index) =
      entry.memory.read (above (above act.top 1) index) := by
  have hsmall : act.slots + 2 < maxWords := Nat.lt_of_lt_of_le act.slots_lt act.reach_le
  rw [above_above, above_eq_below _ (by omega)]
  apply read_below_congr (by omega)
  intro place hplace
  exact h.memory place (by omega)

/-- The arguments that are still to come are not touched by writing to a slot. -/
theorem Arrived.write (h : Arrived act entry core) (hholds : act.Keeps state core)
    {register : Register} (hmem : register ∈ act.registers) {value : Word} {core' : Core}
    (hregs : ∀ reg ∈ argRegs, core'.regs reg = core.regs reg)
    (hmemory : core'.memory =
      core.memory.write (below core.base (act.registers.idxOf register + 1)) value) :
    Arrived act entry core' := by
  have hlt := Activation.slot_lt hmem
  have hmax := act.reach_le
  have hslots := act.slots_lt
  refine ⟨fun reg hreg => (hregs reg hreg).trans (h.regs reg hreg), fun place hplace => ?_⟩
  rw [hmemory, hholds.below_base, write_of_depth_ne (by omega) (by omega)]
  exact h.memory place hplace

/-- An argument gets to its register, and the others can still be taken. -/
theorem exists_bindArg (host : Host) (hctx : Fitting ctx act constants)
    (h : act.Keeps state core) (harrived : Arrived act entry core) {arg : Temp} {index : Nat}
    (hmem : .temp arg ∈ act.registers) (hroom : index + act.slots + 3 ≤ maxWords) :
    ∃ core', execAll host (bindArg ctx index arg) core = .next core' ∧
      core'.trace = core.trace ∧ core'.regs .rsp = core.regs .rsp ∧
      act.Keeps (state.setTemp arg (entry.arg (above act.top 1) index)) core' ∧
      Arrived act entry core' := by
  rw [bindArg, Core.arg]
  rcases hreg : argRegs[index]? with _ | reg
  · have hloaded : (Instr.mov (.incoming (index - argRegs.length)) (.reg .r10)).exec host core =
        .next (core.setReg .r10
          (entry.memory.read (above (above act.top 1) (index - argRegs.length)))) := by
      rw [← harrived.read_incoming (by omega), ← above_base, ← h.base]
      rfl
    refine ⟨_, (execAll_cons hloaded).trans (execAll_cons (exec_store_slot hctx (.temp arg) .r10)),
      rfl, rfl, ?_, ?_⟩
    · exact h.setRegister hmem rfl rfl rfl
    · refine harrived.write h hmem ?_ rfl
      intro reg hreg
      refine Function.update_of_ne ?_ _ _
      rintro rfl
      exact absurd hreg (by decide)
  · have hvalue : core.regs reg = entry.regs reg := harrived.regs reg (List.mem_of_getElem? hreg)
    refine ⟨_, execAll_cons (exec_store_slot hctx (.temp arg) reg), rfl, rfl, ?_, ?_⟩
    · rw [hvalue]
      exact h.setRegister hmem rfl rfl rfl
    · exact harrived.write h hmem (fun reg _ => rfl) rfl

/-- Every argument gets to its register. -/
theorem exists_bindArgs (host : Host) (hctx : Fitting ctx act constants) {args : List Temp}
    {index : Nat} (h : act.Keeps state core) (harrived : Arrived act entry core)
    (hmem : ∀ arg ∈ args, .temp arg ∈ act.registers)
    (hroom : index + args.length + act.slots + 2 ≤ maxWords) :
    ∃ core', execAll host (bindArgs ctx index args) core = .next core' ∧
      core'.trace = core.trace ∧ core'.regs .rsp = core.regs .rsp ∧
      act.Keeps { state with
        temps := assignAll args
          ((List.range' index args.length).map (entry.arg (above act.top 1))) state.temps }
            core' := by
  induction args generalizing index state core with
  | nil => exact ⟨core, rfl, rfl, rfl, h⟩
  | cons arg args ih =>
    rw [List.forall_mem_cons] at hmem
    rw [List.length_cons] at hroom
    have hfirst : index + act.slots + 3 ≤ maxWords := by omega
    have hrest : index + 1 + args.length + act.slots + 2 ≤ maxWords := by omega
    obtain ⟨core₁, hexec₁, htrace₁, hstack₁, h₁, harrived₁⟩ :=
      exists_bindArg host hctx h harrived hmem.1 hfirst
    obtain ⟨core₂, hexec₂, htrace₂, hstack₂, h₂⟩ := ih h₁ harrived₁ hmem.2 hrest
    exact ⟨core₂, (execAll_append hexec₁).trans hexec₂, htrace₂.trans htrace₁,
      hstack₂.trans hstack₁, h₂⟩

end Asm

end WordLang
