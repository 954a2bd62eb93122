import WordLang.Proofs.Asm.Blocks

/-!
# The assembly of a call

The first arguments go in registers. The others are pushed, the last one first, so that they stand
in order from the top of the stack on; below the slots nothing is in their way. After the call they
are taken off again, with the word that may be above them to keep the stack aligned.

A call has four parts, and each is followed from a core that holds the state to one that does or
nearly does: loading arguments, making room above those on the stack, pushing them, and the call
itself. While arguments are on the stack the core holds the state but for its stack pointer
(`Keeps`). The function may look at its arguments and at nothing else, and it may change memory, but
not the routine's own words (`Honours`); so after it the slots are as they were.

The arguments in registers are loaded first and have to survive the pushing of the others, which is
why pushing goes straight from a slot and uses no machine register.
-/

namespace WordLang

/-- The room above the arguments on the stack: a word if their number is odd. Frames have an even
number of words, so the stack is aligned to two words before and after. -/
def Asm.padding (onStack : List Temp) : Nat :=
  onStack.length % 2

/-- The words that an instruction pushes, with the room above them. Only a call pushes anything, and
only if it has more arguments than there are registers for them. -/
def InstKind.pushed : InstKind → Nat
  | .call _ _ args =>
    let onStack := args.drop Asm.argRegs.length
    Asm.padding onStack + onStack.length
  | _ => 0

/-- A call uses all its arguments, wherever they go. -/
theorem InstKind.temp_mem_uses_call {dst : Option Temp} {callee : Symbol} {args : List Temp}
    {arg : Temp} (h : arg ∈ args) : .temp arg ∈ (InstKind.call dst callee args).uses := by
  rw [← List.take_append_drop Asm.argRegs.length args, List.mem_append] at h
  simp only [uses, List.mem_append, List.mem_map, List.mem_reverse]
  rcases h with h | h
  · exact .inl (.inl ⟨arg, h, rfl⟩)
  · exact .inl (.inr ⟨arg, h, rfl⟩)

namespace Asm

variable {host : Host} {world : World} {constants : List Constant} {ctx : Context}
  {act : Activation} {state : Graph.State} {core : Core}

/-! ## Arguments in registers

Each is loaded from its slot. The registers are different ones, so that a later load does not spoil
an earlier one. -/

/-- The stack pointer is none of the registers for arguments. -/
theorem ne_rsp_of_mem_argRegs {reg : Reg} (h : reg ∈ argRegs) : reg ≠ .rsp := by
  rintro rfl
  exact absurd h (by decide)

/-- Each argument that goes in a register gets there. Registers that are not in the list keep what
they have, which is what carries the induction past the first one. -/
theorem exists_loads (host : Host) (hctx : Fitting ctx act constants) {args : List Temp}
    {regs : List Reg} (h : act.Holds state core) (hmem : ∀ arg ∈ args, .temp arg ∈ act.registers)
    (hnodup : regs.Nodup) (hrsp : .rsp ∉ regs) :
    ∃ core', execAll host ((args.zip regs).map fun (arg, reg) => .mov (ctx.temp arg) (.reg reg))
        core = .next core' ∧
      act.Holds state core' ∧ (∀ reg ∉ regs, core'.regs reg = core.regs reg) ∧
      ∀ (i : Nat) arg reg, args[i]? = some arg → regs[i]? = some reg →
        core'.regs reg = state.temps arg := by
  induction args generalizing regs core with
  | nil => exact ⟨core, rfl, h, fun reg _ => rfl, fun i arg reg harg => by cases harg⟩
  | cons first args ih =>
    cases regs with
    | nil => exact ⟨core, rfl, h, fun reg _ => rfl, fun i arg reg _ hreg => by cases hreg⟩
    | cons reg regs =>
      rw [List.forall_mem_cons] at hmem
      rw [List.nodup_cons] at hnodup
      rw [List.mem_cons, not_or] at hrsp
      obtain ⟨core', hexec, h', hother, hargs⟩ :=
        ih (h.setReg (Ne.symm hrsp.1) (state.temps first)) hmem.2 hnodup.2 hrsp.2
      refine ⟨core', ?_, h', ?_, ?_⟩
      · exact (execAll_cons (exec_load_slot hctx h.toKeeps hmem.1 reg)).trans hexec
      · intro other hnot
        rw [List.mem_cons, not_or] at hnot
        rw [hother other hnot.2]
        exact Function.update_of_ne hnot.1 _ _
      · intro i arg other harg hreg
        cases i with
        | zero =>
          cases harg
          cases hreg
          rw [hother reg hnodup.1]
          exact Function.update_self _ _ _
        | succ i => exact hargs i arg other harg hreg

/-! ## Arguments on the stack

They are pushed from the last one to the first, so the first one is on top in the end. The lemmas go
along the list from its front, where the last push is. -/

/-- Pushing a slot pushes what its register has. -/
theorem exec_push_slot (hctx : Fitting ctx act constants) (h : act.Keeps state core)
    {register : Register} (hmem : register ∈ act.registers) :
    (Instr.push (ctx.slot register)).exec host core =
      .next (core.push (state.register register)) := by
  rw [← h.read_slot hmem, hctx.slot]
  rfl

/-- The first argument is pushed last. -/
theorem pushArgs_cons (ctx : Context) (arg : Temp) (args : List Temp) :
    pushArgs ctx (arg :: args) = pushArgs ctx args ++ [.push (ctx.temp arg)] := by
  simp [pushArgs]

/-- Pushing leaves the slots alone, and puts the arguments in order: argument `i` is `i` words above
the top. No register but the stack pointer changes, so arguments that are in registers already stay
there. -/
theorem exists_pushArgs (host : Host) (hctx : Fitting ctx act constants) {args : List Temp}
    {down : Nat} (h : act.Keeps state core) (hmem : ∀ arg ∈ args, .temp arg ∈ act.registers)
    (hstack : core.regs .rsp = below act.top down) (hdown : act.slots + 1 ≤ down)
    (hroom : down + args.length < act.reach) :
    ∃ core', execAll host (pushArgs ctx args) core = .next core' ∧
      act.Keeps state core' ∧ core'.regs .rsp = below act.top (down + args.length) ∧
      (∀ reg ≠ .rsp, core'.regs reg = core.regs reg) ∧
      ∀ (i : Nat) arg, args[i]? = some arg →
        core'.memory.read (below act.top (down + args.length - i)) = state.temps arg := by
  have hmax := act.reach_le
  -- the last argument is pushed first, so the first one comes on top of all the others
  induction args with
  | nil => exact ⟨core, rfl, h, hstack, fun reg _ => rfl, fun i arg harg => by cases harg⟩
  | cons first args ih =>
    rw [List.forall_mem_cons] at hmem
    rw [List.length_cons] at hroom ⊢
    obtain ⟨core₁, hexec, h₁, hstack₁, hother, hargs⟩ := ih hmem.2 (by omega)
    have hbelow : below (core₁.regs .rsp) 1 = below act.top (down + (args.length + 1)) := by
      rw [hstack₁, below_below, Nat.add_assoc]
    have hmemory : (core₁.push (state.temps first)).memory =
        core₁.memory.write (below act.top (down + (args.length + 1))) (state.temps first) := by
      rw [← hbelow]
      rfl
    refine ⟨core₁.push (state.temps first), ?_, ?_, ?_, ?_, ?_⟩
    · rw [pushArgs_cons, execAll_append hexec]
      exact execAll_cons (exec_push_slot hctx h₁ hmem.1)
    · exact h₁.write_below (by omega) (by omega) rfl hmemory rfl
    · rw [← hbelow]
      rfl
    · intro reg hreg
      rw [← hother reg hreg]
      exact Function.update_of_ne hreg _ _
    · intro i arg harg
      rw [hmemory]
      cases i with
      | zero =>
        cases harg
        exact Memory.read_write _ _ _
      | succ i =>
        have hi : i < args.length := by
          rw [List.getElem?_cons_succ] at harg
          exact (List.getElem?_eq_some_iff.mp harg).1
        rw [read_below_write (by omega) (by omega) (by omega), ← hargs i arg harg]
        congr 2
        omega

/-- Room for one word is made if the arguments would leave the stack unaligned. What is in that word
does not matter to anyone. -/
theorem exists_align (host : Host) (h : act.Holds state core) (onStack : List Temp) :
    ∃ core', execAll host (alignCode onStack) core = .next core' ∧ act.Keeps state core' ∧
      core'.regs .rsp = below act.top (act.slots + 1 + padding onStack) ∧
      ∀ reg ≠ .rsp, core'.regs reg = core.regs reg := by
  rw [alignCode, padding]
  rcases Nat.mod_two_eq_zero_or_one onStack.length with hpad | hpad
  · rw [hpad, if_neg (by decide)]
    exact ⟨core, rfl, h.toKeeps, h.stack, fun reg _ => rfl⟩
  · rw [hpad, if_pos rfl]
    refine ⟨_, rfl, h.toKeeps.congr rfl rfl rfl, ?_, fun reg hreg => Function.update_of_ne hreg _ _⟩
    rw [← below_below, ← h.stack]
    rfl

/-- Whatever is on the stack, so many words are taken off it. The result of the call is in `%rax` at
that time and has to stay. -/
theorem exists_popped (host : Host) (core : Core) (onStack : List Temp) :
    ∃ core', execAll host (popArgs onStack) core = .next core' ∧ core'.base = core.base ∧
      core'.memory = core.memory ∧ core'.trace = core.trace ∧ core'.regs .rax = core.regs .rax ∧
      core'.regs .rsp = above (core.regs .rsp) (onStack.length + padding onStack) := by
  have hpad : onStack.length % 2 = padding onStack := rfl
  rw [popArgs, hpad]
  by_cases hbytes : (onStack.length + padding onStack) * wordSize > 0
  · have hvalue : BitVec.ofInt 64 ((onStack.length + padding onStack) * wordSize : Nat) =
        BitVec.ofNat 64 ((onStack.length + padding onStack) * wordSize) := BitVec.ofInt_natCast _ _
    rw [if_pos hbytes]
    refine ⟨_, rfl, rfl, rfl, rfl, rfl, ?_⟩
    rw [above, ← hvalue]
    rfl
  · have hnone : onStack.length + padding onStack = 0 := by
      unfold wordSize at hbytes
      omega
    rw [if_neg hbytes, hnone]
    exact ⟨core, rfl, rfl, rfl, rfl, rfl, (BitVec.add_zero _).symm⟩

/-- After the call the arguments are taken off, with that room, and the core holds the state again
with nothing below the slots. -/
theorem exists_popArgs (host : Host) (onStack : List Temp) (h : act.Keeps state core)
    (hstack : core.regs .rsp = below act.top (act.slots + 1 + padding onStack + onStack.length)) :
    ∃ core', execAll host (popArgs onStack) core = .next core' ∧ act.Holds state core' ∧
      core'.regs .rax = core.regs .rax := by
  obtain ⟨core', hexec, hbase, hmemory, htrace, hrax, hrsp⟩ := exists_popped host core onStack
  refine ⟨core', hexec, ⟨h.congr hbase hmemory htrace, ?_⟩, hrax⟩
  rw [hrsp, hstack, above_below _ (by omega)]
  congr 1
  omega

/-! ## The call

The called function is anything that honours the routine's words. It is enough to know what it may
look at, and that this is the same for both. -/

/-- A call that sees the arguments gives what the graph's call gives, and leaves the slots as they
were. The return address that the machine pushes is below all of the routine's words. -/
theorem Activation.Keeps.call (h : act.Keeps state core) {name : String} {args : List Word}
    {down : Nat} (hstack : core.regs .rsp = below act.top down) (hdown : act.slots + 1 ≤ down)
    (hroom : down + 1 < act.reach)
    (hseen : ∀ i (hi : i < args.length), core.arg (core.regs .rsp) i = args.get ⟨i, hi⟩)
    (hhonours : act.Honours world host (.call name args :: state.outside.trace)) :
    act.Keeps (state.setOutside (state.outside.call world name args).2) (core.call host name) ∧
      (core.call host name).regs .rax = (state.outside.call world name args).1 := by
  obtain ⟨hanswer, hbytes⟩ := hhonours
  have hmax := act.reach_le
  have htrace : List.Forall₂ Event.Shows (.call name args :: state.outside.trace)
      (.call name (core.arg (core.regs .rsp)) :: core.trace) := .cons (.call name hseen) h.trace
  have hsame := hanswer _ htrace
  -- the pushed address is one word below everything
  have hpushed : ∀ link place, depth act.top place ≠ down + 1 →
      (core.push link).memory place = core.memory place := by
    intro link place hplace
    have hbelow : below (core.regs .rsp) 1 = below act.top (down + 1) := by
      rw [hstack, below_below]
    change core.memory.write (below (core.regs .rsp) 1) link place = _
    rw [hbelow]
    exact write_of_depth_ne (by omega) hplace
  refine ⟨h.setOutside rfl ?_ ?_ htrace, ?_⟩
  · intro place hplace
    have hnone := hbytes place hplace
    rw [← hsame] at hnone
    change ((host.answer _).bytes place).getD _ = _
    rw [hnone]
    exact hpushed _ place (by omega)
  · intro place hplace
    change ((host.answer _).bytes place).getD _ = ((world.answer _).bytes place).getD _
    rw [hsame, hpushed _ place (by omega), h.outside place hplace]
  · change (host.answer _).result = (world.answer _).result
    rw [hsame]

/-- The core right before a call has every argument where the function looks for it: the first ones
in registers, in their order, and the others from the top of the stack on. -/
theorem exists_passed (host : Host) (hctx : Fitting ctx act constants) (h : act.Holds state core)
    {args onStack : List Temp} (honStack : onStack = args.drop argRegs.length)
    (hmem : ∀ arg ∈ args, .temp arg ∈ act.registers)
    (hroom : act.slots + 2 + padding onStack + onStack.length < act.reach) :
    ∃ core', execAll host (loadArgs ctx (args.take argRegs.length) ++ alignCode onStack ++
        pushArgs ctx onStack) core = .next core' ∧
      act.Keeps state core' ∧
      core'.regs .rsp = below act.top (act.slots + 1 + padding onStack + onStack.length) ∧
      ∀ i (hi : i < (args.map state.temps).length),
        core'.arg (core'.regs .rsp) i = (args.map state.temps).get ⟨i, hi⟩ := by
  obtain ⟨core₁, hexec₁, h₁, -, hloaded⟩ := exists_loads host hctx h
    (fun arg (harg : arg ∈ args.take argRegs.length) => hmem arg (List.mem_of_mem_take harg))
    (show argRegs.Nodup by decide) (show Reg.rsp ∉ argRegs by decide)
  change execAll host (loadArgs ctx (args.take argRegs.length)) core = .next core₁ at hexec₁
  obtain ⟨core₂, hexec₂, h₂, hstack₂, hregs₂⟩ := exists_align host h₁ onStack
  have hmem' : ∀ arg ∈ onStack, .temp arg ∈ act.registers := by
    intro arg harg
    rw [honStack] at harg
    exact hmem arg (List.mem_of_mem_drop harg)
  obtain ⟨core₃, hexec₃, h₃, hstack₃, hregs₃, hpushed⟩ :=
    exists_pushArgs host hctx h₂ hmem' hstack₂ (by omega) (by omega)
  refine ⟨core₃, ?_, h₃, hstack₃, ?_⟩
  · rw [List.append_assoc, execAll_append hexec₁, execAll_append hexec₂, hexec₃]
  · intro i hi
    rw [List.length_map] at hi
    have harg : args[i]? = some args[i] := List.getElem?_eq_getElem hi
    rw [List.get_eq_getElem, List.getElem_map, Core.arg]
    -- the first six are in registers, which the pushes leave alone, and the others on the stack
    rcases Nat.lt_or_ge i argRegs.length with hlt | hge
    · have hreg : argRegs[i]? = some argRegs[i] := List.getElem?_eq_getElem hlt
      have hne : argRegs[i] ≠ .rsp := ne_rsp_of_mem_argRegs (List.getElem_mem hlt)
      rw [hreg]
      change core₃.regs argRegs[i] = _
      rw [hregs₃ _ hne, hregs₂ _ hne]
      refine hloaded i _ _ ?_ hreg
      rw [List.getElem?_take_of_lt hlt, harg]
    · have hreg : argRegs[i]? = none := List.getElem?_eq_none hge
      have harg' : onStack[i - argRegs.length]? = some args[i] := by
        rw [honStack, List.getElem?_drop, Nat.add_sub_cancel' hge, harg]
      have hlt := (List.getElem?_eq_some_iff.mp harg').1
      rw [hreg]
      change core₃.memory.read (above (core₃.regs .rsp) (i - argRegs.length)) = _
      rw [hstack₃, above_below _ (by omega)]
      exact hpushed _ _ harg'

/-- The code of a call is what comes before it, the call, and what comes after it. -/
theorem callCode_eq (ctx : Context) (dst : Option Temp) (callee : String) (args : List Temp) :
    callCode ctx dst callee args =
      loadArgs ctx (args.take argRegs.length) ++ alignCode (args.drop argRegs.length) ++
        pushArgs ctx (args.drop argRegs.length) ++ .call callee ::
        (popArgs (args.drop argRegs.length) ++
          dst.toList.map fun dst => .mov (.reg .rax) (ctx.temp dst)) := by
  simp only [callCode, List.append_assoc, List.cons_append, List.nil_append]

/-- The code of a call does what the call does, and puts the result in its slot. Without a register
for the result, `%rax` is left behind. -/
theorem reaches_call (hctx : Fitting ctx act constants) (h : act.Holds state core)
    {dst : Option Temp} {callee : Symbol} {args : List Temp}
    (huses : ∀ register ∈ (InstKind.call dst callee args).uses, register ∈ act.registers)
    (hroom : act.slots + 2 + (InstKind.call dst callee args).pushed < act.reach)
    (hhonours : act.Honours world host
      (.call callee.name (args.map state.temps) :: state.outside.trace)) :
    Reaches host act (callCode ctx dst callee.name args) core
      ((state.setOutside (state.outside.call world callee.name (args.map state.temps)).2).setResult
        dst (state.outside.call world callee.name (args.map state.temps)).1) := by
  have hmem : ∀ arg ∈ args, .temp arg ∈ act.registers :=
    fun arg harg => huses _ (InstKind.temp_mem_uses_call harg)
  rw [InstKind.pushed, ← Nat.add_assoc] at hroom
  obtain ⟨core₁, hexec₁, h₁, hstack₁, hseen⟩ := exists_passed host hctx h rfl hmem hroom
  obtain ⟨h₂, hresult⟩ := h₁.call hstack₁ (by omega) (by omega) hseen hhonours
  obtain ⟨core₃, hexec₃, h₃, hrax⟩ := exists_popArgs host (args.drop argRegs.length) h₂ hstack₁
  rw [hresult] at hrax
  rw [callCode_eq]
  refine Reaches.append hexec₁ (Reaches.cons rfl (Reaches.append hexec₃ ?_))
  cases dst with
  | none => exact Reaches.nil h₃
  | some dst => exact Reaches.store hctx h₃ (huses (.temp dst) (by simp [InstKind.uses])) hrax

end Asm

end WordLang
