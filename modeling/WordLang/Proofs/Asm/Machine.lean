import Mathlib.Algebra.Group.Int.Defs
import Mathlib.Algebra.Group.Nat.Defs
import Mathlib.Logic.Function.Basic
import WordLang.Asm.Emit
import WordLang.Proofs.Semantics.Run
import WordLang.Proofs.Semantics.World

/-!
# What assembly means

A machine for the forms of instruction that are ever written. It has the registers that they name,
the flags of the last comparison, and a memory of bytes that holds the stack as well.

What it does to the memory through an address in a register is on record, and so is every call; the
words of the stack are not. How many arguments a function takes is nothing that a call says, so the
record of a call has everything that the function may look at: the registers for arguments, and the
words from the top of the stack on.

The functions that are called are the host's. They give back a result in `%rax`, leave `%rsp` and
`%rbp` as they were, and do anything with the other registers.

Two things are as they are on the real machine although nothing would be lost here by making them
simpler. An instruction takes only the operands that can be encoded: there is none that moves memory
to memory, and a number is put into memory only if it has 32 bits. And `enter` takes its operand
modulo 65536, so that a frame that is too large is opened too small (`frameBytes`).

Flags are known only after a comparison. An instruction that reads them otherwise is stuck, so code
that relies on flags which something in between has spoilt has no meaning.
-/

namespace WordLang.Asm

/-! ## The host -/

/-- Something that the machine does outside of its registers and its stack. -/
inductive Event where
  | load (address value : Word)
  | store (address value : Word)
  | call (name : String) (args : Nat → Word)

/-- Where the globals are, and what calls come to, given all events up to the call itself. -/
structure Host where
  place : String → Word
  answer : List Event → Answer
  /-- what is in the other registers after a call -/
  leftover : List Event → Reg → Word
  /-- where the called function returns to -/
  link : List Event → Word

/-! ## Flags -/

/-- What a comparison leaves behind. -/
structure Flags where
  zero : Bool
  sign : Bool
  overflow : Bool

/-- The flags of a difference. -/
def Flags.ofDifference (left right : Word) : Flags where
  zero := left - right == 0
  sign := (left - right).msb
  overflow := BitVec.ssubOverflow left right

/-- Whether the flags say that a comparison holds. -/
def Flags.meet (flags : Flags) : Comparison → Bool
  | .ge => flags.sign == flags.overflow
  | .gt => !flags.zero && flags.sign == flags.overflow
  | .le => flags.zero || flags.sign != flags.overflow
  | .lt => flags.sign != flags.overflow
  | .eq => flags.zero
  | .ne => !flags.zero

/-! ## Words in a row -/

/-- The address so many words below another. -/
def below (address : Word) (words : Nat) : Word :=
  address - .ofNat 64 (words * wordSize)

/-- The address so many words above another. -/
def above (address : Word) (words : Nat) : Word :=
  address + .ofNat 64 (words * wordSize)

/-! ## The core -/

/-- Everything but the place in the code. The flags are known only after a comparison. -/
structure Core where
  regs : Reg → Word
  /-- what `%rbp` holds -/
  base : Word
  flags : Option Flags
  memory : Memory
  trace : List Event

namespace Core

/-- Writes a register. -/
def setReg (core : Core) (reg : Reg) (value : Word) : Core :=
  { core with regs := Function.update core.regs reg value }

/-- Sets what is known about the flags. -/
def setFlags (core : Core) (flags : Option Flags) : Core :=
  { core with flags }

/-- Puts a word into the memory. -/
def write (core : Core) (address value : Word) : Core :=
  { core with memory := core.memory.write address value }

/-- Puts an event on record. -/
def note (core : Core) (event : Event) : Core :=
  { core with trace := event :: core.trace }

/-- Pushes a word. -/
def push (core : Core) (value : Word) : Core :=
  let top := below (core.regs .rsp) 1
  (core.setReg .rsp top).write top value

/-- The word on top of the stack. -/
def top (core : Core) : Word :=
  core.memory.read (core.regs .rsp)

/-- Takes the word on top off the stack. -/
def drop (core : Core) : Core :=
  core.setReg .rsp (above (core.regs .rsp) 1)

/-- The argument with the given index, when the others start at `stack`. -/
def arg (core : Core) (stack : Word) (index : Nat) : Word :=
  match argRegs[index]? with
  | some reg => core.regs reg
  | none => core.memory.read (above stack (index - argRegs.length))

/-- The value of an operand. -/
def value (core : Core) (host : Host) : Operand → Word
  | .imm value => .ofInt 64 value
  | .reg reg => core.regs reg
  | .slot index => core.memory.read (below core.base index)
  | .incoming index => core.memory.read (above core.base (2 + index))
  | .deref reg => core.memory.read (core.regs reg)
  | .globalAddress name => host.place name

/-- Puts on record that an operand is read. -/
def touch (core : Core) : Operand → Core
  | .deref reg => core.note (.load (core.regs reg) (core.memory.read (core.regs reg)))
  | _ => core

/-- An operation into a register. All but a comparison spoil the flags. -/
def alu (core : Core) (op : Alu) (dst : Reg) (value : Word) : Core :=
  match op with
  | .add => (core.setReg dst (core.regs dst + value)).setFlags none
  | .sub => (core.setReg dst (core.regs dst - value)).setFlags none
  | .imul => (core.setReg dst (core.regs dst * value)).setFlags none
  | .xor => (core.setReg dst (core.regs dst ^^^ value)).setFlags none
  | .cmp => core.setFlags (some (.ofDifference (core.regs dst) value))

/-- Calls a function. -/
def call (core : Core) (host : Host) (name : String) : Core :=
  let trace := .call name (core.arg (core.regs .rsp)) :: core.trace
  let answer := host.answer trace
  { regs := fun reg =>
      match reg with
      | .rsp => core.regs .rsp
      | .rax => answer.result
      | reg => host.leftover trace reg
    base := core.base
    flags := none
    memory := (core.push (host.link trace)).memory.overwrite answer.bytes
    trace := trace }

end Core

/-- What is left when a function returns: where to, and everything else. -/
structure Exit where
  address : Word
  core : Core

/-! ## Instructions -/

/-- Whether an operand is a word of memory. -/
def Operand.isMemory : Operand → Bool
  | .imm _ => false
  | .reg _ => false
  | _ => true

/-- Whether a move has room for an operand: a number has to fit in 32 bits. -/
def Operand.isShort : Operand → Bool
  | .imm value => fitsImmediate value
  | _ => true

/-- Puts a value where an operand says. -/
def Core.put (core : Core) (dst : Operand) (value : Word) : Progress Core Exit :=
  match dst with
  | .reg reg => .next (core.setReg reg value)
  | .slot index => .next (core.write (below core.base index) value)
  | .deref reg =>
    let address := core.regs reg
    .next ((core.write address value).note (.store address value))
  | _ => .stuck

/-- The word that is all sign. -/
def signFill (word : Word) : Word :=
  if word.msb then -1 else 0

/-- The quotient and the remainder of a dividend of two words, unless the quotient is no word. -/
def longDivide (high low divisor : Word) : Option (Word × Word) :=
  let dividend := (high ++ low : BitVec 128).toInt
  let quotient := dividend.tdiv divisor.toInt
  if divisor = 0 ∨ quotient < -2 ^ 63 ∨ 2 ^ 63 ≤ quotient then none
  else some (.ofInt 64 quotient, .ofInt 64 (dividend.tmod divisor.toInt))

/-- The bytes that `enter` takes off the stack: its operand has sixteen bits. -/
def frameBytes (words : Nat) : Nat :=
  words * wordSize % 2 ^ 16

/-- What an instruction does that goes on with the next one, or returns. -/
def Instr.exec (host : Host) (core : Core) : Instr → Progress Core Exit
  | .mov src dst =>
    if src.isMemory && dst.isMemory || !src.isShort then .stuck
    else (core.touch src).put dst (core.value host src)
  | .movAbs value dst => .next (core.setReg dst (.ofInt 64 value))
  | .alu op src dst => .next ((core.touch src).alu op dst (core.value host src))
  | .cqto => .next (core.setReg .rdx (signFill (core.regs .rax)))
  | .idiv src =>
    match longDivide (core.regs .rdx) (core.regs .rax) (core.regs src) with
    | some (quotient, remainder) =>
      .next (((core.setReg .rax quotient).setReg .rdx remainder).setFlags none)
    | none => .fault
  | .cmov op src dst =>
    match core.flags with
    | some flags => .next (if flags.meet op then core.setReg dst (core.regs src) else core)
    | none => .stuck
  | .push src => .next ((core.touch src).push (core.value host src))
  | .call name => .next (core.call host name)
  | .enter words =>
    let core := core.push core.base
    let base := core.regs .rsp
    .next { core.setReg .rsp (base - .ofNat 64 (frameBytes words)) with base }
  | .leave =>
    let core := core.setReg .rsp core.base
    .next { core.drop with base := core.top }
  | .ret => .done ⟨core.top, core.drop⟩
  | .je _ => .stuck
  | .jmp _ => .stuck

/-- What instructions in a row do. -/
def execAll (host : Host) : List Instr → Core → Progress Core Exit
  | [], core => .next core
  | instr :: rest, core =>
    match instr.exec host core with
    | .next core => execAll host rest core
    | .done exit => .done exit
    | .fault => .fault
    | .stuck => .stuck

/-! ## Code -/

/-- The core, and the lines from the current one on. -/
structure State where
  core : Core
  code : List Line

/-- Goes on at a label. -/
def State.jump (state : State) (lines : List Line) (label : Nat) : State :=
  { state with code := lines.dropWhile (· ≠ .label label) }

/-- What the machine does next. A line that is no instruction is passed over. -/
def step (host : Host) (lines : List Line) (state : State) : Progress State Exit :=
  match state.code with
  | [] => .stuck
  | .instr instr :: rest =>
    match instr with
    | .jmp label => .next (state.jump lines label)
    | .je label =>
      match state.core.flags with
      | some flags =>
        .next (if flags.meet .eq then state.jump lines label else { state with code := rest })
      | none => .stuck
    | instr =>
      match instr.exec host state.core with
      | .next core => .next ⟨core, rest⟩
      | .done exit => .done exit
      | .fault => .fault
      | .stuck => .stuck
  | _ :: rest => .next { state with code := rest }

/-- Where a function starts. -/
def start (lines : List Line) (name : String) (core : Core) : State where
  core := core
  code := lines.dropWhile (· ≠ .entry name)

/-! ## Instructions in a row

How a list of instructions is run from the left, and how a list of lines is. -/

section

variable {host : Host} {lines : List Line} {core core' : Core} {rest : List Line}

/-- An instruction, and then the others. -/
theorem execAll_cons {instr : Instr} {code : List Instr} (h : instr.exec host core = .next core') :
    execAll host (instr :: code) core = execAll host code core' := by
  rw [execAll, h]

/-- Some instructions, and then the others. -/
theorem execAll_append {first second : List Instr} (h : execAll host first core = .next core') :
    execAll host (first ++ second) core = execAll host second core' := by
  induction first generalizing core with
  | nil =>
    cases h
    rfl
  | cons instr code ih =>
    rcases hexec : instr.exec host core with mid | exit | _ | _
    · rw [execAll_cons hexec] at h
      rw [List.cons_append, execAll_cons hexec, ih h]
    all_goals
      rw [execAll, hexec] at h
      cases h

/-- A step of the machine that is at an instruction. -/
theorem step_instr {instr : Instr} (h : instr.exec host core = .next core') :
    step host lines ⟨core, .instr instr :: rest⟩ = .next ⟨core', rest⟩ := by
  cases instr with
  | je label => cases h
  | jmp label => cases h
  | _ => simp only [step, h]

/-- A branch on equality goes to the label, or to the next line. -/
theorem step_je {flags : Flags} (h : core.flags = some flags) (label : Nat) :
    step host lines ⟨core, .instr (.je label) :: rest⟩ =
      .next ⟨core, if flags.meet .eq then lines.dropWhile (· ≠ .label label) else rest⟩ := by
  simp only [step, h]
  split <;> rfl

/-- The machine does what the instructions in front of it do. -/
theorem leads_of_execAll {code : List Instr} (h : execAll host code core = .next core') :
    Leads (step host lines) ⟨core, code.map .instr ++ rest⟩ (.next ⟨core', rest⟩) := by
  induction code generalizing core with
  | nil =>
    cases h
    exact Leads.refl _
  | cons instr code ih =>
    rcases hexec : instr.exec host core with mid | exit | _ | _
    · rw [execAll_cons hexec] at h
      exact Leads.head (step_instr hexec) (ih h)
    all_goals
      rw [execAll, hexec] at h
      cases h

/-! ## The record

Events are put in front of those before them, so that the record of an earlier core is the end of
the record of a later one. -/

/-- Reading an operand puts one event on record, or none. -/
theorem Core.trace_touch (core : Core) (src : Operand) :
    core.trace <:+ (core.touch src).trace := by
  cases src with
  | deref reg => exact List.suffix_cons _ _
  | _ => exact List.suffix_refl _

/-- An operation in a register is no event. -/
theorem Core.trace_alu (core : Core) (op : Alu) (dst : Reg) (value : Word) :
    (core.alu op dst value).trace = core.trace := by
  cases op <;> rfl

/-- Writing to an operand is an event, or none. -/
theorem Core.trace_put {dst : Operand} {value : Word} (h : core.put dst value = .next core') :
    core.trace <:+ core'.trace := by
  cases dst <;> cases h
  · exact List.suffix_refl _
  · exact List.suffix_refl _
  · exact List.suffix_cons _ _

/-- An instruction does not forget what happened before. -/
theorem trace_of_exec {instr : Instr} (h : instr.exec host core = .next core') :
    core.trace <:+ core'.trace := by
  -- a read, a write and a call each put an event in front of the others
  cases instr with
  | mov src dst =>
    rw [Instr.exec] at h
    split at h
    · cases h
    · exact (core.trace_touch src).trans (Core.trace_put h)
  | alu op src dst =>
    cases h
    rw [Core.trace_alu]
    exact core.trace_touch src
  | idiv src =>
    rw [Instr.exec] at h
    split at h
    · cases h
      exact List.suffix_refl _
    · cases h
  | cmov op src dst =>
    rw [Instr.exec] at h
    split at h
    · cases h
      split <;> exact List.suffix_refl _
    · cases h
  | push src =>
    cases h
    exact core.trace_touch src
  | call name =>
    cases h
    exact List.suffix_cons _ _
  | movAbs | cqto | enter | leave =>
    cases h
    exact List.suffix_refl _
  | ret | je | jmp => cases h

/-- A step of the machine forgets no event. -/
theorem trace_of_step {state state' : State} (h : step host lines state = .next state') :
    state.core.trace <:+ state'.core.trace := by
  obtain ⟨core, code⟩ := state
  cases code with
  | nil => cases h
  | cons line rest =>
    cases line with
    | instr instr =>
      cases instr with
      | jmp label =>
        cases h
        exact List.suffix_refl _
      | je label =>
        simp only [step] at h
        split at h
        · cases h
          split <;> exact List.suffix_refl _
        · cases h
      | _ =>
        simp only [step] at h
        split at h
        · next hexec =>
          cases h
          exact trace_of_exec hexec
        all_goals cases h
    | _ =>
      cases h
      exact List.suffix_refl _

end

end WordLang.Asm
