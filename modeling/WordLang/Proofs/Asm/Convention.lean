import WordLang.Proofs.Asm.Fidelity

/-!
# Caller and callee

The code of a call and the entry of a function are written apart from each other. Here they are put
together: a call leaves each argument where the entry of a function with so many parameters takes it
from (`call_agrees_with_entry`). The caller's side is that of `exists_passed`, the callee's that of
`exists_bindArgs`.

* A core whose stack pointer is right below its slots holds some state of a graph, which is read off
  the slots. So what is known about a running routine is known about any core with an open frame.
* The stack is aligned to sixteen bytes, that is, to two words. A frame has an even number of words,
  and so has what a call pushes.
* The parameters of a function are the first registers it mentions. If they are different, the slots
  of the other registers do not matter to its entry.

The statement is made at the call, with the stack of the caller as it is there, and about any
function that is entered from there, whatever it does next. It says nothing of a graph: the values
are those of slots and machine registers. That is possible because a core can be seen as holding a
state (`Activation.seen`), for which the lemmas about running routines apply.
-/

namespace WordLang

/-- Different things that come first are the first uses of what comes first. -/
theorem exists_firstUses_append {α : Type} [DecidableEq α] {front : List α} (h : front.Nodup)
    (uses : List α) : ∃ rest, firstUses (front ++ uses) = front ++ rest := by
  induction front with
  | nil => exact ⟨firstUses uses, rfl⟩
  | cons a front ih =>
    rw [List.nodup_cons] at h
    obtain ⟨rest, hrest⟩ := ih h.2
    have hkeep : front.filter (· ≠ a) = front := by
      apply List.filter_eq_self.mpr
      intro b hb
      exact decide_eq_true fun heq => h.1 (heq ▸ hb)
    refine ⟨rest.filter (· ≠ a), ?_⟩
    rw [List.cons_append, firstUses, hrest, List.filter_append, hkeep]
    rfl

/-- What is not assigned to keeps its content. -/
theorem assignAll_of_notMem {κ : Type} [DecidableEq κ] {keys : List κ} {values : List Word}
    {content : κ → Word} {key : κ} (h : key ∉ keys) :
    assignAll keys values content key = content key := by
  induction keys generalizing values content with
  | nil => rfl
  | cons first keys ih =>
    rw [List.mem_cons, not_or] at h
    cases values with
    | nil => rfl
    | cons value values => exact (ih h.2).trans (Function.update_of_ne h.1 _ _)

/-- Different places get what is assigned to them. -/
theorem assignAll_getElem? {κ : Type} [DecidableEq κ] {keys : List κ} (hnodup : keys.Nodup)
    {values : List Word} {content : κ → Word} {i : Nat} {key : κ} {value : Word}
    (hkey : keys[i]? = some key) (hvalue : values[i]? = some value) :
    assignAll keys values content key = value := by
  induction keys generalizing values content i with
  | nil => cases hkey
  | cons first keys ih =>
    rw [List.nodup_cons] at hnodup
    cases values with
    | nil => cases hvalue
    | cons head values =>
      cases i with
      | zero =>
        cases hkey
        cases hvalue
        exact (assignAll_of_notMem hnodup.1).trans (Function.update_self _ _ _)
      | succ i => exact ih hnodup.2 hkey hvalue

namespace Asm

variable {host : Host} {core : Core} {ctx : Context}

/-! ## Alignment

Two words are sixteen bytes. What is pushed comes in pairs, but for the address to return to, and
the caller's base makes a pair with that. -/

/-- Going down by an even number of words keeps the alignment. -/
theorem aligned_below {address : Word} (h : address.toNat % 16 = 0) {words : Nat}
    (hwords : words % 2 = 0) : (below address words).toNat % 16 = 0 := by
  unfold below wordSize
  rw [BitVec.toNat_sub, BitVec.toNat_ofNat]
  omega

/-- The frame of a routine is open, and the stack is aligned. -/
structure Opened (routine : Routine) (core : Core) : Prop where
  stack : core.regs .rsp = below core.base routine.frameWords
  aligned : (core.regs .rsp).toNat % 16 = 0

/-- A call puts one word on an aligned stack. -/
theorem aligned_link {address : Word} (h : address.toNat % 16 = 0) :
    (below address 1).toNat % 16 = 8 := by
  unfold below wordSize
  rw [BitVec.toNat_sub, BitVec.toNat_ofNat]
  omega

/-- With the caller's base there are two of them, and the frame has an even number of words. -/
theorem opened_of_enter {routine : Routine} {top : Word} (htop : top.toNat % 16 = 8)
    (hframe : routine.frameWords * wordSize ≤ 65535) (hbase : core.base = below top 1)
    (hstack : core.regs .rsp = below top 1 - .ofNat 64 (frameBytes routine.frameWords)) :
    Opened routine core := by
  have hbytes : frameBytes routine.frameWords = routine.frameWords * wordSize :=
    Nat.mod_eq_of_lt (Nat.lt_of_le_of_lt hframe (by decide))
  have hrsp : core.regs .rsp = below core.base routine.frameWords := by
    rw [hstack, hbase, hbytes]
    rfl
  refine ⟨hrsp, ?_⟩
  rw [hrsp]
  refine aligned_below ?_ routine.even_frameWords
  rw [hbase]
  unfold below wordSize
  rw [BitVec.toNat_sub, BitVec.toNat_ofNat]
  omega

/-! ## The state that a stack holds

Any words in the slots make up the registers of some state. -/

/-- An event of the machine as one of the graph. -/
def Event.shown : Event → WordLang.Event
  | .load address value => .load address value
  | .store address value => .store address value
  | .call name _ => .call name []

/-- An event of the machine is that of the graph that is made of it. -/
theorem Event.shows_shown (event : Event) : Event.Shows event.shown event := by
  cases event with
  | load address value => exact .load address value
  | store address value => exact .store address value
  | call name seen => exact .call name fun i hi => absurd hi (Nat.not_lt_zero i)

/-- So it is for all events so far. -/
theorem Event.shows_map_shown (events : List Event) :
    List.Forall₂ Event.Shows (events.map Event.shown) events := by
  induction events with
  | nil => exact .nil
  | cons event events ih => exact .cons event.shows_shown ih

/-- The stack of a routine with the given registers, as a core has it below an address. -/
def Core.activation (core : Core) (top caller : Word) (registers : List Register)
    (slots extra : Nat) (hregisters : registers.length ≤ slots)
    (hroom : slots + 3 + extra ≤ maxWords) : Activation where
  top := top
  slots := slots
  reach := slots + 3 + extra
  link := core.memory.read top
  caller := caller
  registers := registers
  registers_le := hregisters
  slots_lt := by omega
  reach_le := hroom

/-- The state of a graph whose registers are what the slots of a core have. -/
def Activation.seen (act : Activation) (core : Core) : Graph.State where
  pc := none
  temps t := core.memory.read (below act.top (act.slot (.temp t)))
  addrs a := core.memory.read (below act.top (act.slot (.addr a)))
  outside := { memory := core.memory, trace := core.trace.map Event.shown }

/-- A register of that state has the word of its slot. -/
theorem Activation.register_seen (act : Activation) (core : Core) (register : Register) :
    (act.seen core).register register = core.memory.read (below act.top (act.slot register)) := by
  cases register <;> rfl

/-- Going up and then down again. -/
theorem below_above (address : Word) (words : Nat) : below (above address words) words = address :=
  add_sub_cancel_right _ _

/-- A core with an open frame is one of a running routine. -/
theorem holds_seen {registers : List Register} {slots extra : Nat} {act : Activation}
    (hregisters : registers.length ≤ slots) (hroom : slots + 3 + extra ≤ maxWords)
    (hact : act = core.activation (above core.base 1) (core.memory.read core.base) registers slots
      extra hregisters hroom)
    (hstack : core.regs .rsp = below core.base slots) : act.Holds (act.seen core) core := by
  have htop : act.top = above core.base 1 := by rw [hact]; rfl
  have hslots : act.slots = slots := by rw [hact]; rfl
  refine ⟨⟨?_, ?_, ?_, ?_, fun place _ => rfl, Event.shows_map_shown core.trace⟩, ?_⟩
  · rw [htop, below_above]
  · rw [hact]
    rfl
  · rw [htop, below_above, hact]
    rfl
  · intro register _
    exact (act.register_seen core register).symm
  · rw [hstack, htop, hslots, Nat.add_comm, ← below_below, below_above]

/-! ## The parameters

The first registers that a routine mentions are its parameters, so theirs are the first slots. -/

/-- The address to return to is below the arguments. -/
theorem arg_push (core : Core) (link : Word) {index : Nat} (h : index + 1 < maxWords) :
    (core.push link).arg (core.regs .rsp) index = core.arg (core.regs .rsp) index := by
  unfold Core.arg
  split
  · next reg hreg =>
    exact Function.update_of_ne (ne_rsp_of_mem_argRegs (List.mem_of_getElem? hreg)) _ _
  · apply Memory.read_congr
    intro place hplace
    apply Memory.write_of_le
    unfold maxWords at h
    unfold above wordSize at hplace
    unfold below wordSize
    bv_omega

/-- Where arguments go to depends on the slots of the parameters alone. -/
theorem bindArgs_congr {ctx ctx' : Context} {args : List Temp} {index : Nat}
    (h : ∀ arg ∈ args, ctx.temp arg = ctx'.temp arg) :
    bindArgs ctx index args = bindArgs ctx' index args := by
  induction args generalizing index with
  | nil => rfl
  | cons arg args ih =>
    rw [List.forall_mem_cons] at h
    rw [bindArgs, bindArgs, ih h.2, bindArg, bindArg, h.1]

/-- The slots of different parameters are the first ones, in order. -/
theorem temp_of_param {constants : List Constant} {base : Nat} {target : Routine}
    (hnodup : target.args.Nodup) {param : Temp} (hparam : param ∈ target.args) :
    (Context.of constants base target).temp param =
      .slot ((target.args.map Register.temp).idxOf (.temp param) + 1) := by
  have hregisters : (target.args.map Register.temp).Nodup :=
    hnodup.map fun first second h => Register.temp.inj h
  obtain ⟨rest, hrest⟩ := exists_firstUses_append hregisters
    (target.steps.flatMap fun step => step.inst.kind.uses)
  have hframe : (Context.of constants base target).frame = target.args.map .temp ++ rest := hrest
  rw [Context.temp, Context.slot, hframe, List.idxOf_append_of_mem (List.mem_map_of_mem hparam)]

/-- The entry of a function takes each parameter from where the caller left the argument. -/
theorem exists_parameters (host : Host) (core : Core) (link : Word) (constants : List Constant)
    (base : Nat) {target : Routine} (hnodup : target.args.Nodup)
    (hroom : target.args.length < Routine.maxRegisters) :
    ∃ inside, execAll host (.enter target.frameWords ::
        bindArgs (Context.of constants base target) 0 target.args) (core.push link) = .next inside ∧
      inside.base = below (below (core.regs .rsp) 1) 1 ∧
      inside.regs .rsp =
        below (below (core.regs .rsp) 1) 1 - .ofNat 64 (frameBytes target.frameWords) ∧
      ∀ (i : Nat) param, target.args[i]? = some param →
        inside.value host ((Context.of constants base target).temp param) =
          core.arg (core.regs .rsp) i := by
  have hwords : target.args.length + 3 + 0 ≤ maxWords := by
    unfold Routine.maxRegisters at hroom
    unfold maxWords
    omega
  have hboth : 0 + target.args.length + target.args.length + 2 ≤ maxWords := by
    unfold Routine.maxRegisters at hroom
    unfold maxWords
    omega
  -- only the parameters have slots here: the others do not matter
  generalize hact : (core.push link).activation (below (core.regs .rsp) 1) core.base
    (target.args.map .temp) target.args.length 0 (Nat.le_of_eq (List.length_map _)) hwords = act
  have hregisters : act.registers = target.args.map .temp := by rw [← hact]; rfl
  have hslots : act.slots = target.args.length := by rw [← hact]; rfl
  have hctx : Fitting { Context.of constants base target with frame := target.args.map .temp } act
      constants := ⟨hregisters.symm, rfl⟩
  have htop : act.top = below (core.regs .rsp) 1 := by rw [← hact]; rfl
  have habove : above act.top 1 = core.regs .rsp := by
    rw [htop, above_below _ (Nat.le_refl 1), below_zero]
  have hcode : bindArgs (Context.of constants base target) 0 target.args =
      bindArgs { Context.of constants base target with frame := target.args.map .temp } 0
        target.args :=
    bindArgs_congr fun param hparam => temp_of_param hnodup hparam
  obtain ⟨opened, hopen, -, hkeeps, harrived, hrsp⟩ :=
    exists_opened host target.frameWords act (act.seen (core.push link)) (htop.trans rfl)
      (by rw [← hact]; rfl) (by rw [← hact]; rfl)
      (fun register _ => (act.register_seen _ register).symm) rfl (Event.shows_map_shown _)
  obtain ⟨inside, hbind, -, hsame, hkeeps⟩ := exists_bindArgs host hctx hkeeps harrived
    (fun param hparam => by rw [hregisters]; exact List.mem_map_of_mem hparam)
    (by rw [hslots]; exact hboth)
  refine ⟨inside, ?_, ?_, ?_, ?_⟩
  · rw [hcode, execAll_cons hopen, hbind]
  · rw [hkeeps.base, htop]
  · rw [hsame, hrsp, htop]
  · intro i param hparam
    have hi : i < target.args.length := (List.getElem?_eq_some_iff.mp hparam).1
    have hmem : .temp param ∈ act.registers := by
      rw [hregisters]
      exact List.mem_map_of_mem (List.mem_of_getElem? hparam)
    have hslot := hkeeps.read_slot hmem
    rw [hregisters] at hslot
    rw [temp_of_param hnodup (List.mem_of_getElem? hparam)]
    refine hslot.trans (assignAll_getElem? hnodup hparam ?_)
    rw [List.getElem?_map, List.getElem?_range' hi, Option.map_some, habove, Nat.one_mul,
      Nat.zero_add, arg_push _ _ (by omega)]

/-! ## A call

The three stages of a call: what is done before it, the function, and what is done after it. -/

/-- Right before a call the arguments are where a function looks for them, and the slots are as they
were. -/
theorem exists_atCall (host : Host) {constants : List Constant} {caller : Routine}
    (hvalid : caller.Valid constants) (base : Nat) {args : List Temp}
    (hmem : ∀ arg ∈ args, .temp arg ∈ caller.frame)
    (hroom : caller.frameWords + args.length < Routine.maxRegisters)
    (hstack : core.regs .rsp = below core.base caller.frameWords) :
    ∃ atCall, execAll host (loadArgs (Context.of constants base caller)
      (args.take argRegs.length) ++
        alignCode (args.drop argRegs.length) ++
        pushArgs (Context.of constants base caller) (args.drop argRegs.length)) core =
          .next atCall ∧
      atCall.base = core.base ∧
      atCall.regs .rsp = below (core.regs .rsp)
        (padding (args.drop argRegs.length) + (args.drop argRegs.length).length) ∧
      (∀ register ∈ caller.frame,
        atCall.value host ((Context.of constants base caller).slot register) =
          core.value host ((Context.of constants base caller).slot register)) ∧
      ∀ (i : Nat) arg, args[i]? = some arg →
        atCall.arg (atCall.regs .rsp) i =
          core.value host ((Context.of constants base caller).temp arg) := by
  have hpushed := padding_add_length_le args
  generalize honStack : args.drop argRegs.length = onStack at hpushed ⊢
  have hwords : caller.frameWords + 3 + (padding onStack + onStack.length) ≤ maxWords := by
    unfold Routine.maxRegisters at hroom
    unfold maxWords
    omega
  generalize hact : core.activation (above core.base 1) (core.memory.read core.base) caller.frame
    caller.frameWords (padding onStack + onStack.length) hvalid.length_frame_le hwords = act
  have hregisters : act.registers = caller.frame := by rw [← hact]; rfl
  have hslots : act.slots = caller.frameWords := by rw [← hact]; rfl
  have hreach : act.reach = caller.frameWords + 3 + (padding onStack + onStack.length) := by
    rw [← hact]; rfl
  have htop : act.top = above core.base 1 := by rw [← hact]; rfl
  have hctx : Fitting (Context.of constants base caller) act constants := ⟨hregisters.symm, rfl⟩
  have hholds : act.Holds (act.seen core) core :=
    holds_seen hvalid.length_frame_le hwords hact.symm hstack
  -- what a slot has is what its register has in the state that was read off the stack
  have hseen : ∀ register ∈ caller.frame, (act.seen core).register register =
      core.value host ((Context.of constants base caller).slot register) := by
    intro register hregister
    rw [← hregisters] at hregister
    exact (hholds.read_slot hregister).symm.trans (by rw [hregisters]; rfl)
  obtain ⟨atCall, hexec, hkeeps, hrsp, hargs⟩ := exists_passed host hctx hholds honStack.symm
    (fun arg harg => by rw [hregisters]; exact hmem arg harg) (by omega)
  refine ⟨atCall, hexec, ?_, ?_, ?_, ?_⟩
  · rw [hkeeps.base, hholds.base]
  · rw [hrsp, hholds.stack, below_below, Nat.add_assoc]
  · intro register hregister
    rw [← hseen register hregister]
    rw [← hregisters] at hregister
    refine Eq.trans ?_ (hkeeps.read_slot hregister)
    rw [hregisters]
    rfl
  · intro i arg harg
    have hi : i < (args.map (act.seen core).temps).length := by
      rw [List.length_map]
      exact (List.getElem?_eq_some_iff.mp harg).1
    rw [hargs i hi, List.get_eq_getElem, List.getElem_map, (List.getElem?_eq_some_iff.mp harg).2]
    exact hseen (.temp arg) (hmem arg (List.mem_of_getElem? harg))

/-- After a call the stack pointer is put back. -/
theorem exists_finished (host : Host) (ctx : Context) (dst : Option Temp) (onStack : List Temp)
    (returned : Core) :
    ∃ finished, execAll host (popArgs onStack ++
        dst.toList.map fun dst => .mov (.reg .rax) (ctx.temp dst)) returned = .next finished ∧
      finished.regs .rsp = above (returned.regs .rsp) (padding onStack + onStack.length) := by
  obtain ⟨popped, hexec, -, -, -, -, hrsp⟩ := exists_popped host returned onStack
  rw [Nat.add_comm] at hrsp
  rw [execAll_append hexec]
  cases dst with
  | none => exact ⟨popped, rfl, hrsp⟩
  | some dst => exact ⟨_, rfl, hrsp⟩

/-- A call of a valid routine with an open frame, and a function with as many parameters that has a
register for each. The slots of the caller and the arguments are no more than an address space can
hold.

Up to the call the code changes no slot of the caller and leaves the stack aligned. Entered from
there, whatever the address to return to, the function has the value of each argument in the slot of
its parameter, and an open frame of its own. When it returns with the stack as it was, the code
after the call leaves the stack pointer where it was before all this. -/
theorem call_agrees_with_entry {program : Program} (hvalid : program.violation? = none)
    {caller : Routine} (hcaller : caller ∈ program.routines) {step : Routine.Step}
    (hstep : step ∈ caller.steps) {dst : Option Temp} {callee : Symbol} {args : List Temp}
    (hkind : step.inst.kind = .call dst callee args)
    (hroom : caller.frameWords + args.length < Routine.maxRegisters) (base : Nat) (host : Host)
    {core : Core} (hopen : Opened caller core) :
    ∃ before after atCall,
      (instCode (Context.of program.constants base caller) step.inst.kind).lines =
        (before ++ .call callee.name :: after).map .instr ∧
      execAll host before core = .next atCall ∧
      (atCall.regs .rsp).toNat % 16 = 0 ∧
      atCall.base = core.base ∧
      (∀ register ∈ caller.frame,
        atCall.value host ((Context.of program.constants base caller).slot register) =
          core.value host ((Context.of program.constants base caller).slot register)) ∧
      (∀ (target : Routine) (constants : List Constant) (label : Nat) (link : Word),
        target.args.Nodup → target.args.length = args.length →
        ∃ inside,
          execAll host (.enter target.frameWords ::
              bindArgs (Context.of constants label target) 0 target.args)
            (atCall.push link) = .next inside ∧
          (target.frameWords * wordSize ≤ 65535 → Opened target inside) ∧
          ∀ (i : Nat) param arg, target.args[i]? = some param → args[i]? = some arg →
            inside.value host ((Context.of constants label target).temp param) =
              core.value host ((Context.of program.constants base caller).temp arg)) ∧
      ∀ returned : Core, returned.regs .rsp = atCall.regs .rsp →
        ∃ finished, execAll host after returned = .next finished ∧
          finished.regs .rsp = core.regs .rsp := by
  have hroutine : caller.Valid program.constants :=
    Routine.valid_of_violation? (List.findSome?_eq_none_iff.mp hvalid caller hcaller)
  have hmem : ∀ arg ∈ args, .temp arg ∈ caller.frame := by
    intro arg harg
    apply mem_firstUses.mpr
    apply List.mem_append_right
    refine List.mem_flatMap.mpr ⟨step, hstep, ?_⟩
    rw [hkind]
    exact InstKind.temp_mem_uses_call harg
  -- the two halves meet at the call: what the caller has laid out, and what the callee takes up
  obtain ⟨atCall, hexec, hbase, hrsp, hslots, hargs⟩ :=
    exists_atCall host hroutine base hmem hroom hopen.stack
  have haligned : (atCall.regs .rsp).toNat % 16 = 0 := by
    rw [hrsp]
    refine aligned_below hopen.aligned ?_
    unfold padding
    omega
  have hlines : (instCode (Context.of program.constants base caller) step.inst.kind).lines =
      (callCode (Context.of program.constants base caller) dst callee.name args).map .instr := by
    rw [hkind]
    rfl
  rw [callCode_eq] at hlines
  refine ⟨_, _, atCall, hlines, hexec, haligned, hbase, hslots, ?_, ?_⟩
  · intro target constants label link hnodup hlength
    obtain ⟨inside, hentered, hbase', hrsp', hparams⟩ :=
      exists_parameters host atCall link constants label hnodup (by omega)
    refine ⟨inside, hentered, fun hframe => ?_, fun i param arg hparam harg => ?_⟩
    · exact opened_of_enter (aligned_link haligned) hframe hbase' hrsp'
    · rw [hparams i param hparam, hargs i arg harg]
  · intro returned hreturned
    obtain ⟨finished, hfinished, hrestored⟩ := exists_finished host _ dst _ returned
    refine ⟨finished, hfinished, ?_⟩
    rw [hrestored, hreturned, hrsp, above_below _ (Nat.le_refl _), Nat.sub_self, below_zero]

/-! ## Nine arguments -/

/-- The registers of nine parameters. -/
def nine : List Temp :=
  (List.range 9).map (⟨·⟩)

/-- A routine that calls itself with its nine arguments in reverse. Three of them go on the stack,
so a word is left out above them. -/
def reversing : Routine where
  name := "reversing"
  ty := .func (List.replicate 9 .int) .void
  args := nine
  insts := #[{ kind := .call none { id := ⟨0⟩, name := "reversing", ty := none } nine.reverse }]
  temps := 9

/-- The program of that routine. -/
def reversingProgram : Program where
  routines := [reversing]

/-- A core that has just been called. -/
def called : Core where
  regs reg := if reg = .rsp then 8200 else 0
  base := 0
  flags := none
  memory place := place.setWidth 8
  trace := []

/-- The routine above is entered, and calls itself with its arguments in reverse. -/
theorem call_agrees_with_entry_reversing :
    ∃ core, (Instr.enter reversing.frameWords).exec sevensHost called = .next core ∧
      Opened reversing core ∧
      ∃ step ∈ reversing.steps,
        step.inst.kind = .call none { id := ⟨0⟩, name := "reversing", ty := none } nine.reverse ∧
        ∃ before after atCall inside,
          (instCode (Context.of [] 0 reversing) step.inst.kind).lines =
            (before ++ .call "reversing" :: after).map .instr ∧
          execAll sevensHost before core = .next atCall ∧
          (atCall.regs .rsp).toNat % 16 = 0 ∧
          execAll sevensHost (.enter reversing.frameWords ::
            bindArgs (Context.of [] 0 reversing) 0 nine) (atCall.push 0) = .next inside ∧
          ∀ (i : Nat) param arg, nine[i]? = some param → nine.reverse[i]? = some arg →
            inside.value sevensHost ((Context.of [] 0 reversing).temp param) =
              core.value sevensHost ((Context.of [] 0 reversing).temp arg) := by
  have hvalid : reversingProgram.violation? = none := by decide +kernel
  have hmem : reversing ∈ reversingProgram.routines := List.mem_cons_self
  have hroutine : reversing.Valid [] :=
    Routine.valid_of_violation? (List.findSome?_eq_none_iff.mp hvalid reversing hmem)
  have hstart : 0 ∈ reversing.schedule := List.mem_of_mem_head? reversing.head?_schedule
  obtain ⟨front, step, rest, hsplit, hid⟩ := hroutine.exists_split hstart
  have hstep := Routine.mem_steps_of_split hsplit
  have hinst := (Routine.mem_schedule_of_mem_steps hstep).2
  rw [hid] at hinst
  have hkind := congrArg Inst.kind (Option.some.inj hinst).symm
  have hopen : ∀ core, (Instr.enter reversing.frameWords).exec sevensHost called = .next core →
      Opened reversing core := by
    intro core hexec
    cases hexec
    exact opened_of_enter (show (called.regs .rsp).toNat % 16 = 8 by decide) (by decide) rfl rfl
  refine ⟨_, rfl, hopen _ rfl, step, hstep, hkind, ?_⟩
  obtain ⟨before, after, atCall, hlines, hexec, haligned, -, -, henters, -⟩ :=
    call_agrees_with_entry hvalid hmem hstep hkind (by decide) 0 sevensHost (hopen _ rfl)
  obtain ⟨inside, hentered, -, hparams⟩ := henters reversing [] 0 0 (by decide) rfl
  exact ⟨before, after, atCall, inside, hlines, hexec, haligned, hentered, hparams⟩

end Asm

end WordLang
