import WordLang.Proofs.Asm.Activation
import WordLang.Proofs.Asm.Arithmetic

/-!
# The assembly of an instruction

What the lines of one instruction do: they leave in the slots what the instruction leaves in the
registers. The way on is not part of it.

A block of code is run from a core that holds a state, and leads to a core that holds another one
(`Reaches`). In between, machine registers are used for what they like; a state does not look at
them. So a block is taken apart at its first instruction, which loads the slot of a register, and at
its last, which stores the result in a slot; what is in the middle is arithmetic on words in machine
registers and is computed outright.

For every kind of instruction there is one lemma, with the hypothesis that the registers it uses
have slots. Memory needs one more: an address that is loaded from or stored to is not on the stack
of the activation, or else the slots would change under the code.
-/

namespace WordLang.Asm

/-- A context whose slots are those of an activation. -/
structure Fitting (ctx : Context) (act : Activation) (constants : List Constant) : Prop where
  frame : ctx.frame = act.registers
  constants : ctx.constants = constants

section

variable {host : Host} {world : World} {constants : List Constant} {ctx : Context}
  {act : Activation} {state : Graph.State} {core : Core}

/-! ## Slots

Reading and writing a slot is reading and writing the register that it stands for. -/

/-- The operand for a register is the slot that the activation has for it. -/
theorem Fitting.slot (hctx : Fitting ctx act constants) (register : Register) :
    ctx.slot register = .slot (act.registers.idxOf register + 1) := by
  rw [Context.slot, hctx.frame]

/-- Loading a slot loads the register. -/
theorem exec_load_slot (hctx : Fitting ctx act constants) (h : act.Keeps state core)
    {register : Register} (hmem : register ∈ act.registers) (reg : Reg) :
    (Instr.mov (ctx.slot register) (.reg reg)).exec host core =
      .next (core.setReg reg (state.register register)) := by
  rw [← h.read_slot hmem, hctx.slot]
  rfl

/-- Comparing with a slot compares with the register. -/
theorem exec_cmp_slot (hctx : Fitting ctx act constants) (h : act.Keeps state core)
    {register : Register} (hmem : register ∈ act.registers) (reg : Reg) :
    (Instr.alu .cmp (ctx.slot register) reg).exec host core =
      .next (core.setFlags (some (.ofDifference (core.regs reg) (state.register register)))) := by
  rw [← h.read_slot hmem, hctx.slot]
  rfl

/-- What a register is written with goes to its slot. -/
theorem exec_store_slot (hctx : Fitting ctx act constants) (register : Register) (reg : Reg) :
    (Instr.mov (.reg reg) (ctx.slot register)).exec host core =
      .next (core.write (below core.base (act.registers.idxOf register + 1)) (core.regs reg)) := by
  rw [hctx.slot]
  rfl

/-! ## Code that leads to a state

Blocks are put together from the left, and a state has to be held only at the end. -/

/-- Instructions that take a core to one that holds a state. -/
def Reaches (host : Host) (act : Activation) (code : List Instr) (core : Core)
    (state : Graph.State) : Prop :=
  ∃ core', execAll host code core = .next core' ∧ act.Holds state core'

/-- No instructions lead nowhere else. -/
theorem Reaches.nil (h : act.Holds state core) : Reaches host act [] core state :=
  ⟨core, rfl, h⟩

/-- An instruction, and then the others. -/
theorem Reaches.cons {instr : Instr} {code : List Instr} {core' : Core}
    (h₁ : instr.exec host core = .next core') (h₂ : Reaches host act code core' state) :
    Reaches host act (instr :: code) core state := by
  obtain ⟨last, hexec, hholds⟩ := h₂
  exact ⟨last, (execAll_cons h₁).trans hexec, hholds⟩

/-- Some instructions, and then the others. -/
theorem Reaches.append {first second : List Instr} {core' : Core}
    (h₁ : execAll host first core = .next core') (h₂ : Reaches host act second core' state) :
    Reaches host act (first ++ second) core state := by
  obtain ⟨last, hexec, hholds⟩ := h₂
  exact ⟨last, (execAll_append h₁).trans hexec, hholds⟩

/-- The last instruction stores the result. -/
theorem Reaches.store (hctx : Fitting ctx act constants) (h : act.Holds state core)
    {register : Register} (hmem : register ∈ act.registers) {reg : Reg} {value : Word}
    (hvalue : core.regs reg = value) :
    Reaches host act [.mov (.reg reg) (ctx.slot register)] core
      (state.setRegister register value) := by
  refine Reaches.cons (exec_store_slot hctx register reg) (Reaches.nil ?_)
  rw [hvalue]
  exact h.setRegister hmem rfl rfl rfl rfl

/-- A register is loaded before the rest. -/
theorem Reaches.load (hctx : Fitting ctx act constants) (h : act.Holds state core)
    {register : Register} (hmem : register ∈ act.registers) {reg : Reg} (hreg : reg ≠ .rsp)
    {code : List Instr} {state' : Graph.State}
    (hrest : act.Holds state (core.setReg reg (state.register register)) →
      Reaches host act code (core.setReg reg (state.register register)) state') :
    Reaches host act (.mov (ctx.slot register) (.reg reg) :: code) core state' :=
  Reaches.cons (exec_load_slot hctx h.toKeeps hmem reg) (hrest (h.setReg hreg _))

/-! ## Copies

A copy goes by way of a machine register, as slots are in memory and a word can be too long to be
written into memory directly. -/

/-- Loading a word loads it, whether or not it is too long for the short form. -/
theorem exec_loadWord (value : Int64) (reg : Reg) :
    (loadWord value.toInt reg).exec host core = .next (core.setReg reg value.toBitVec) := by
  have hvalue : BitVec.ofInt 64 value.toInt = value.toBitVec := BitVec.ofInt_toInt
  rw [loadWord]
  split
  · next hfits =>
    rw [Instr.exec]
    simp only [Operand.isMemory, Operand.isShort, hfits, Core.value, hvalue]
    rfl
  · rw [Instr.exec, hvalue]

/-- A copy puts into its slot what it reads. -/
theorem exists_copy (hctx : Fitting ctx act constants) (h : act.Holds state core) {dst : Temp}
    {src : WordLang.Operand} {value : Word} (hread : state.read? constants src = some value)
    (huses : ∀ register ∈ (InstKind.copy dst src).uses, register ∈ act.registers) :
    ∃ code, (instCode ctx (.copy dst src)).lines = code.map .instr ∧
      Reaches host act code core (state.setTemp dst value) := by
  cases src with
  | temp t =>
    cases hread
    refine ⟨_, rfl, Reaches.load hctx h (huses _ (by simp [InstKind.uses])) (by decide) ?_⟩
    intro h₁
    exact Reaches.store hctx h₁ (huses _ (by simp [InstKind.uses])) rfl
  | addr a =>
    cases hread
    refine ⟨_, rfl, Reaches.load hctx h (huses _ (by simp [InstKind.uses])) (by decide) ?_⟩
    intro h₁
    exact Reaches.store hctx h₁ (huses _ (by simp [InstKind.uses])) rfl
  | const id =>
    obtain ⟨constant, hconstant, rfl⟩ := Option.map_eq_some_iff.mp hread
    refine ⟨[loadWord constant.word.toInt .r10, .mov (.reg .r10) (ctx.temp dst)], ?_, ?_⟩
    · rw [instCode, loadOperand, hctx.constants, hconstant]
      rfl
    · refine Reaches.cons (exec_loadWord constant.word .r10) ?_
      exact Reaches.store hctx (h.setReg (by decide) _) (huses _ (by simp [InstKind.uses])) rfl

/-! ## Arithmetic

Three of the four operations work in place: the left operand is loaded, the right one is applied to
it, and the result is stored. Division has instructions of its own. -/

/-- An operation in place writes what the machine computes. -/
theorem reaches_inPlace (hctx : Fitting ctx act constants) (h : act.Holds state core)
    {dst left right : Temp} (hleft : .temp left ∈ act.registers)
    (hright : .temp right ∈ act.registers) (hdst : .temp dst ∈ act.registers) {op : Alu}
    {value : Word}
    (hvalue : ∀ core : Core, core.regs .r10 = state.temps left →
      (core.alu op .r10 (state.temps right)).regs .r10 = value) :
    Reaches host act (inPlaceCode ctx op dst left right) core (state.setTemp dst value) := by
  refine Reaches.load hctx h hleft (by decide) fun h₁ => ?_
  refine Reaches.load hctx h₁ hright (by decide) fun h₂ => ?_
  refine Reaches.cons rfl ?_
  refine Reaches.store hctx (h₂.congr ?_ ?_ ?_ ?_) hdst (hvalue _ rfl)
  all_goals cases op <;> rfl

/-- The instructions before a division. -/
def dividendCode (ctx : Context) (left right : Temp) : List Instr :=
  [.mov (ctx.temp left) (.reg .rax), .cqto, .mov (ctx.temp right) (.reg .r10)]

/-- Before a division, the dividend is extended to two words. -/
theorem exists_dividend (host : Host) (hctx : Fitting ctx act constants) (h : act.Holds state core)
    {left right : Temp} (hleft : .temp left ∈ act.registers)
    (hright : .temp right ∈ act.registers) :
    ∃ core', execAll host (dividendCode ctx left right) core = .next core' ∧
      act.Holds state core' ∧ core'.trace = core.trace ∧
      longDivide (core'.regs .rdx) (core'.regs .rax) (core'.regs .r10) =
        longDivide (signFill (state.temps left)) (state.temps left) (state.temps right) := by
  have h₁ : act.Holds state (core.setReg .rax (state.temps left)) := h.setReg (by decide) _
  have h₂ := h₁.setReg (show Reg.rdx ≠ .rsp by decide) (signFill (state.temps left))
  refine ⟨_, ?_, h₂.setReg (show Reg.r10 ≠ .rsp by decide) (state.temps right), rfl, rfl⟩
  refine (execAll_cons (exec_load_slot hctx h.toKeeps hleft _)).trans ?_
  exact (execAll_cons rfl).trans (execAll_cons (exec_load_slot hctx h₂.toKeeps hright _))

/-- A division that does not trap writes its quotient. -/
theorem reaches_divide (hctx : Fitting ctx act constants) (h : act.Holds state core)
    {dst left right : Temp} {value : Word} (hleft : .temp left ∈ act.registers)
    (hright : .temp right ∈ act.registers) (hdst : .temp dst ∈ act.registers)
    (hvalue : Arith.apply .div (state.temps left) (state.temps right) = some value) :
    Reaches host act (arithCode ctx dst left right .div) core (state.setTemp dst value) := by
  obtain ⟨core', hexec, h', -, hdivide⟩ := exists_dividend host hctx h hleft hright
  rw [longDivide_signFill] at hdivide
  rw [Arith.apply] at hvalue
  split at hvalue
  · cases hvalue
  · next htraps =>
    cases hvalue
    rw [if_neg htraps] at hdivide
    have hidiv : (Instr.idiv .r10).exec host core' = .next (((core'.setReg .rax
        ((state.temps left).sdiv (state.temps right))).setReg .rdx
        ((state.temps left).srem (state.temps right))).setFlags none) := by
      rw [Instr.exec, hdivide]
    refine Reaches.append hexec (Reaches.cons hidiv ?_)
    refine Reaches.store hctx ?_ hdst rfl
    exact ((h'.setReg (by decide) _).setReg (by decide) _).setFlags none

/-- A division that traps gets as far as the instruction that does. -/
theorem exists_divide_fault (host : Host) (hctx : Fitting ctx act constants)
    (h : act.Holds state core) {left right : Temp} (hleft : .temp left ∈ act.registers)
    (hright : .temp right ∈ act.registers)
    (hvalue : Arith.apply .div (state.temps left) (state.temps right) = none) :
    ∃ core', execAll host (dividendCode ctx left right) core = .next core' ∧
      core'.trace = core.trace ∧ (Instr.idiv .r10).exec host core' = .fault := by
  obtain ⟨core', hexec, -, htrace, hdivide⟩ := exists_dividend host hctx h hleft hright
  refine ⟨core', hexec, htrace, ?_⟩
  rw [longDivide_signFill] at hdivide
  rw [Arith.apply] at hvalue
  split at hvalue
  · next htraps =>
    rw [if_pos htraps] at hdivide
    rw [Instr.exec, hdivide]
  · cases hvalue

/-- Arithmetic writes what it computes, by any operator. -/
theorem reaches_arith (hctx : Fitting ctx act constants) (h : act.Holds state core) {op : Arith}
    {dst left right : Temp} {value : Word}
    (hvalue : op.apply (state.temps left) (state.temps right) = some value)
    (huses : ∀ register ∈ (InstKind.arith op dst left right).uses, register ∈ act.registers) :
    Reaches host act (arithCode ctx dst left right op) core (state.setTemp dst value) := by
  have hleft := huses (.temp left) (by simp [InstKind.uses])
  have hright := huses (.temp right) (by simp [InstKind.uses])
  have hdst := huses (.temp dst) (by simp [InstKind.uses])
  cases op with
  | div => exact reaches_divide hctx h hleft hright hdst hvalue
  | add | sub | mul =>
    cases hvalue
    refine reaches_inPlace hctx h hleft hright hdst fun core hcore => ?_
    rw [← hcore]
    rfl

/-! ## Truth values

A comparison sets flags, and a conditional move makes a word of them. -/

/-- After comparing two words, the move is made exactly if the comparison holds. -/
theorem exec_cmov {op : Comparison} {left right : Word}
    (h : core.flags = some (.ofDifference left right)) (hzero : core.regs .rax = 0)
    (hone : core.regs .r10 = 1) :
    (Instr.cmov op .r10 .rax).exec host core =
      .next (core.setReg .rax (truth (op.holds left right))) := by
  rw [Instr.exec, h]
  simp only [Flags.meet_ofDifference]
  rcases op.holds left right with _ | _
  · rw [if_neg Bool.false_ne_true, truth, if_neg Bool.false_ne_true, ← hzero]
    exact congrArg Progress.next (by rw [Core.setReg, Function.update_eq_self])
  · rw [if_pos rfl, truth, if_pos rfl, hone]

/-- A comparison writes its truth value. -/
theorem reaches_compare (hctx : Fitting ctx act constants) (h : act.Holds state core)
    {op : Comparison} {dst left right : Temp}
    (huses : ∀ register ∈ (InstKind.compare op dst left right).uses, register ∈ act.registers) :
    Reaches host act [.mov (.imm 0) (.reg .rax), .mov (.imm 1) (.reg .r10),
        .mov (ctx.temp left) (.reg .r11), .alu .cmp (ctx.temp right) .r11, .cmov op .r10 .rax,
        .mov (.reg .rax) (ctx.temp dst)] core
      (state.setTemp dst (truth (op.holds (state.temps left) (state.temps right)))) := by
  have hleft := huses (.temp left) (by simp [InstKind.uses])
  have hright := huses (.temp right) (by simp [InstKind.uses])
  have hdst := huses (.temp dst) (by simp [InstKind.uses])
  refine Reaches.cons rfl (Reaches.cons rfl ?_)
  refine Reaches.load hctx ((h.setReg (by decide) 0).setReg (by decide) 1) hleft (by decide)
    fun h₁ => ?_
  refine Reaches.cons (exec_cmp_slot hctx h₁.toKeeps hright .r11) ?_
  refine Reaches.cons (exec_cmov rfl rfl rfl) ?_
  exact Reaches.store hctx ((h₁.setFlags _).setReg (by decide) _) hdst rfl

/-- A negation flips the last bit, which is all that a truth value has. -/
theorem reaches_not (hctx : Fitting ctx act constants) (h : act.Holds state core)
    {dst operand : Temp}
    (huses : ∀ register ∈ (InstKind.not dst operand).uses, register ∈ act.registers) :
    Reaches host act [.mov (ctx.temp operand) (.reg .r10), .alu .xor (.imm 1) .r10,
        .mov (.reg .r10) (ctx.temp dst)] core
      (state.setTemp dst (flip (state.temps operand))) := by
  refine Reaches.load hctx h (huses _ (by simp [InstKind.uses])) (by decide) fun h₁ => ?_
  refine Reaches.cons rfl ?_
  refine Reaches.store hctx ?_ (huses (.temp dst) (by simp [InstKind.uses])) rfl
  exact (h₁.setReg (by decide) _).setFlags none

/-! ## Addresses

The address of a variable is relative to its name, and the offset is counted in words. -/

/-- An address is computed as the world has it. -/
theorem reaches_address (hctx : Fitting ctx act constants) (h : act.Holds state core)
    (hplace : host.place = world.place) {dst : Addr} {base : Symbol} {offset : Option Temp}
    (huses : ∀ register ∈ (InstKind.addressAt dst base offset).uses, register ∈ act.registers) :
    Reaches host act (addressCode ctx dst base.name offset) core
      (state.setAddr dst (world.address base.name (offset.map state.temps))) := by
  have hdst := huses (.addr dst) (by simp [InstKind.uses])
  have hbase : (Instr.mov (.globalAddress base.name) (.reg .r11)).exec host core =
      .next (core.setReg .r11 (world.place base.name)) := by
    rw [← hplace]
    rfl
  refine Reaches.cons hbase ?_
  have h₁ : act.Holds state (core.setReg .r11 (world.place base.name)) := h.setReg (by decide) _
  cases offset with
  | none => exact Reaches.store hctx h₁ hdst rfl
  | some offset =>
    have hoffset := huses (.temp offset) (by simp [InstKind.uses])
    refine Reaches.load hctx h₁ hoffset (by decide) fun h₂ => ?_
    refine Reaches.cons rfl (Reaches.cons rfl (Reaches.store hctx ?_ hdst rfl))
    exact ((((h₂.setReg (by decide) _).setFlags none).setReg (by decide) _).setFlags none)

/-! ## Memory

The only instructions that touch memory outside of the stack. -/

/-- A load reads the word at the address in a slot. -/
theorem reaches_load (hctx : Fitting ctx act constants) (h : act.Holds state core) {dst : Temp}
    {src : Addr} (haway : act.Avoids (state.addrs src))
    (huses : ∀ register ∈ (InstKind.load dst src).uses, register ∈ act.registers) :
    Reaches host act [.mov (ctx.addr src) (.reg .r10), .mov (.deref .r10) (.reg .r10),
        .mov (.reg .r10) (ctx.temp dst)] core
      ((state.setOutside (state.outside.load (state.addrs src)).2).setTemp dst
        (state.outside.load (state.addrs src)).1) := by
  have hsrc := huses (.addr src) (by simp [InstKind.uses])
  have hdst := huses (.temp dst) (by simp [InstKind.uses])
  refine Reaches.load hctx h hsrc (by decide) fun h₁ => ?_
  have hloaded : act.Holds (state.setOutside (state.outside.load (state.addrs src)).2)
      ((core.setReg .r10 (state.addrs src)).note
        (.load (state.addrs src) (core.memory.read (state.addrs src)))) :=
    ⟨h₁.toKeeps.load haway, h₁.stack⟩
  refine Reaches.cons rfl ?_
  exact Reaches.store hctx (hloaded.setReg (by decide) _) hdst (h.read_of_avoids haway)

/-- A store writes to the address in a slot. -/
theorem reaches_store (hctx : Fitting ctx act constants) (h : act.Holds state core) {src : Temp}
    {dst : Addr} (haway : act.Avoids (state.addrs dst))
    (huses : ∀ register ∈ (InstKind.store src dst).uses, register ∈ act.registers) :
    Reaches host act [.mov (ctx.addr dst) (.reg .r11), .mov (ctx.temp src) (.reg .r10),
        .mov (.reg .r10) (.deref .r11)] core
      (state.setOutside (state.outside.store (state.addrs dst) (state.temps src))) := by
  have hdst := huses (.addr dst) (by simp [InstKind.uses])
  have hsrc := huses (.temp src) (by simp [InstKind.uses])
  refine Reaches.load hctx h hdst (by decide) fun h₁ => ?_
  refine Reaches.load hctx h₁ hsrc (by decide) fun h₂ => ?_
  refine Reaches.cons rfl (Reaches.nil ?_)
  exact ⟨h₂.toKeeps.store haway (state.temps src), h₂.stack⟩

/-! ## Returns

A value is returned in a machine register, from where the end of the routine leaves it alone. -/

/-- A value that is returned is in `%rax`. -/
theorem exists_return (host : Host) (hctx : Fitting ctx act constants) (h : act.Holds state core)
    {value : Option Temp}
    (huses : ∀ register ∈ (InstKind.ret value).uses, register ∈ act.registers) :
    ∃ code core', (instCode ctx (.ret value)).lines = code.map .instr ∧
      execAll host code core = .next core' ∧ act.Holds state core' ∧
      core'.trace = core.trace ∧ ∀ word ∈ value.map state.temps, core'.regs .rax = word := by
  cases value with
  | none => exact ⟨[], core, rfl, rfl, h, rfl, fun word hword => by cases hword⟩
  | some t =>
    have ht := huses (.temp t) (by simp [InstKind.uses])
    refine ⟨_, _, rfl, execAll_cons (exec_load_slot hctx h.toKeeps ht .rax),
      h.setReg (by decide) _, rfl, fun word hword => ?_⟩
    cases hword
    rfl

end

end WordLang.Asm
