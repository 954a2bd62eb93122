import WordLang.Asm.Emission

/-!
# Writing line by line

`emit` makes all lines of a section and then offers them to the sink. Here the sink is at hand
wherever a line is made: each line is offered as soon as it is known, and nothing is made after a
line that is refused. Labels and slots are not known in advance either. What there is to remember
stands in two layers.

* A `Writer` writes lines. It takes labels from a counter that goes on from routine to routine, and
  it may end early for any reason in `Halt`. The counter is the inner layer: when writing ends early
  it keeps the value it has.
* A `SlotWriter` writes lines of one routine. A register gets the next free slot when it is first
  mentioned. The slots are the outer layer: they are gone when the routine ends, early or not.

A `Sink` can be anything that takes lines, such as an open file or a buffer with so much room.
`writeProgram` writes to the sinks with room that `emit` is about. That it gives the same is shown
in `WordLang.Proofs.Asm.Streams`, and that every other sink is offered the same lines.
-/

namespace WordLang.Asm

/-- Where lines go, one after the other. A line is taken, or refused for a reason. -/
structure Sink (m : Type → Type) where
  append : String → m (Except String Unit)

/-- Code that writes lines and takes labels from a counter. -/
abbrev Writer (m : Type → Type) := ExceptT Halt (StateT Nat m)

/-- Code that writes lines of a routine and knows which registers have a slot, in the order of their
slots. -/
abbrev SlotWriter (m : Type → Type) := StateT (List Register) (Writer m)

/-- The instructions that have a label, and the numbers of their labels. -/
abbrev Labels := List (InstId × Nat)

/-- What is known of a routine when its first line is written. -/
structure Outline where
  constants : List Constant
  name : String
  labels : Labels

variable {m : Type → Type} [Monad m]

/-! ## Labels and slots -/

/-- The next label of the counter. -/
def freshLabel : Writer m Nat :=
  ExceptT.lift fun next => return (next, next + 1)

/-- Takes a label for an instruction, unless it has one. -/
def Labels.take (labels : Labels) (target : InstId) : Writer m Labels := do
  if (labels.lookup target).isSome then return labels
  else
    let label ← freshLabel
    return labels ++ [(target, label)]

/-- Takes the labels of a routine. The handles are those of its schedule, each with the one after
it. -/
def takeLabels (routine : Routine) (labels : Labels) :
    List (InstId × Option InstId) → Writer m Labels
  | [] => return labels
  | (id, following) :: rest => do
    match routine.insts[id]? with
    | none => throw (.stray routine.name id)
    | some inst =>
      let labels ← (inst.branchTargets following).foldlM Labels.take labels
      takeLabels routine labels rest

/-- The slot of a register, which is the next one if it has none. -/
def slotOf (register : Register) : SlotWriter m Operand := do
  modify (enroll · register)
  return .slot ((← get).idxOf register + 1)

namespace Sink

variable (sink : Sink m) (outline : Outline)

/-! ## Lines -/

/-- Offers a line. Nothing is written after one that is refused. -/
def put (line : Line) : Writer m Unit := do
  match ← sink.append line.text with
  | .ok _ => return
  | .error reason => throw (.error (.write reason))

/-- Offers an instruction. -/
def instr (instr : Instr) : SlotWriter m Unit :=
  sink.put (.instr instr)

/-- Loads a value register into a machine register. -/
def load (reg : Reg) (src : Temp) : SlotWriter m Unit := do
  sink.instr (.mov (← slotOf (.temp src)) (.reg reg))

/-- Loads an address register into a machine register. -/
def loadAddr (reg : Reg) (src : Addr) : SlotWriter m Unit := do
  sink.instr (.mov (← slotOf (.addr src)) (.reg reg))

/-- Stores a machine register in a value register. -/
def store (reg : Reg) (dst : Temp) : SlotWriter m Unit := do
  sink.instr (.mov (.reg reg) (← slotOf (.temp dst)))

/-- Loads what an instruction reads into a machine register. -/
def loadOperand (reg : Reg) : WordLang.Operand → SlotWriter m Unit
  | .temp src => sink.load reg src
  | .addr src => sink.loadAddr reg src
  | .const id =>
    match outline.constants[id]? with
    | some constant => sink.instr (loadWord constant.word.toInt reg)
    | none => throw (.error (.unknownConstant outline.name id))

/-! ## Instructions -/

/-- Writes an operation that works in place. -/
def inPlace (op : Alu) (dst left right : Temp) : SlotWriter m Unit := do
  sink.load .r10 left
  sink.load .r11 right
  sink.instr (.alu op (.reg .r11) .r10)
  sink.store .r10 dst

/-- Writes arithmetic. -/
def arith (dst left right : Temp) : Arith → SlotWriter m Unit
  | .add => sink.inPlace .add dst left right
  | .sub => sink.inPlace .sub dst left right
  | .mul => sink.inPlace .imul dst left right
  | .div => do
    sink.load .rax left
    sink.instr .cqto
    sink.load .r10 right
    sink.instr (.idiv .r10)
    sink.store .rax dst

/-- Writes how the offset of an element is added to an address, if there is one. -/
def addOffset : Option Temp → SlotWriter m Unit
  | none => return
  | some offset => do
    sink.load .r10 offset
    sink.instr (.alu .imul (.imm wordSize) .r10)
    sink.instr (.alu .add (.reg .r10) .r11)

/-- Writes how the address of a global is found, or that of one of its elements. -/
def address (dst : Addr) (base : String) (offset : Option Temp) : SlotWriter m Unit := do
  sink.instr (.mov (.globalAddress base) (.reg .r11))
  sink.addOffset offset
  sink.instr (.mov (.reg .r11) (← slotOf (.addr dst)))

/-- Loads the arguments that go in registers. -/
def loadArgs (args : List Temp) : SlotWriter m Unit :=
  forM (args.zip argRegs) fun placed => sink.load placed.2 placed.1

/-- Makes room above the arguments on the stack, so that the stack is aligned at the call. -/
def align (onStack : List Temp) : SlotWriter m Unit :=
  if onStack.length % 2 = 1 then sink.instr (.alu .sub (.imm wordSize) .rsp) else return

/-- Pushes the arguments that go on the stack, the last one first. -/
def pushArgs (onStack : List Temp) : SlotWriter m Unit :=
  forM onStack.reverse fun arg => do sink.instr (.push (← slotOf (.temp arg)))

/-- Takes the arguments and the room above them off the stack. -/
def popArgs (onStack : List Temp) : SlotWriter m Unit :=
  let bytes := (onStack.length + onStack.length % 2) * wordSize
  if bytes > 0 then sink.instr (.alu .add (.imm bytes) .rsp) else return

/-- Writes a call. -/
def call (dst : Option Temp) (callee : String) (args : List Temp) : SlotWriter m Unit := do
  sink.loadArgs (args.take argRegs.length)
  sink.align (args.drop argRegs.length)
  sink.pushArgs (args.drop argRegs.length)
  sink.instr (.call callee)
  sink.popArgs (args.drop argRegs.length)
  forM dst.toList (sink.store .rax)

/-- Writes an instruction, without the way on. -/
def inst : InstKind → SlotWriter m Unit
  | .nop => return
  | .jump _ => return
  | .copy dst src => do
    sink.loadOperand outline .r10 src
    sink.store .r10 dst
  | .arith op dst left right => sink.arith dst left right op
  | .compare op dst left right => do
    sink.instr (.mov (.imm 0) (.reg .rax))
    sink.instr (.mov (.imm 1) (.reg .r10))
    sink.load .r11 left
    sink.instr (.alu .cmp (← slotOf (.temp right)) .r11)
    sink.instr (.cmov op .r10 .rax)
    sink.store .rax dst
  | .not dst operand => do
    sink.load .r10 operand
    sink.instr (.alu .xor (.imm 1) .r10)
    sink.store .r10 dst
  | .addressAt dst base offset => sink.address dst base.name offset
  | .load dst src => do
    sink.loadAddr .r10 src
    sink.instr (.mov (.deref .r10) (.reg .r10))
    sink.store .r10 dst
  | .store src dst => do
    sink.loadAddr .r11 dst
    sink.load .r10 src
    sink.instr (.mov (.reg .r10) (.deref .r11))
  | .call dst callee args => sink.call dst callee.name args
  | .ret value => forM value.toList (sink.load .rax)

/-! ## The way on -/

/-- Writes a branch to an instruction, which has to have a label. -/
def branch (branch : Nat → Instr) (id : InstId) : SlotWriter m Unit :=
  match outline.labels.lookup id with
  | some label => sink.instr (branch label)
  | none => throw (.error (.missingLabel outline.name id))

/-- Writes how to go on to an instruction: not at all if it comes next. -/
def onward (following : Option InstId) (id : InstId) : SlotWriter m Unit :=
  if following = some id then return else sink.branch outline .jmp id

/-- Writes the way on from an instruction. -/
def exit (id : InstId) (inst : Inst) (following : Option InstId) : SlotWriter m Unit :=
  match inst.kind with
  | .jump cond =>
    match inst.next, inst.onTrue with
    | some onFalse, some onTrue => do
      sink.load .r10 cond
      sink.instr (.alu .cmp (.imm 0) .r10)
      sink.branch outline .je onFalse
      sink.onward outline following onTrue
    | _, _ => throw (.error (.incompleteJump outline.name id))
  | _ =>
    match inst.next with
    | some next => sink.onward outline following next
    | none => do
      sink.instr .leave
      sink.instr .ret

/-! ## Routines and programs -/

/-- Writes what moves the argument with the given index into its slot. -/
def bindArg (index : Nat) (arg : Temp) : SlotWriter m Unit := do
  let slot ← slotOf (.temp arg)
  match argRegs[index]? with
  | some reg => sink.instr (.mov (.reg reg) slot)
  | none =>
    sink.instr (.mov (.incoming (index - argRegs.length)) (.reg .r10))
    sink.instr (.mov (.reg .r10) slot)

/-- Writes what moves the arguments from `index` on into their slots. -/
def bindArgs (index : Nat) : List Temp → SlotWriter m Unit
  | [] => return
  | arg :: rest => do
    sink.bindArg index arg
    bindArgs (index + 1) rest

/-- Writes the label of an instruction, if it has one. -/
def label (id : InstId) : SlotWriter m Unit :=
  forM (outline.labels.lookup id).toList fun label => sink.put (.label label)

/-- Writes the instructions of a schedule, each with the handle after it. -/
def steps (routine : Routine) : List (InstId × Option InstId) → SlotWriter m Unit
  | [] => return
  | (id, following) :: rest => do
    sink.label outline id
    match routine.insts[id]? with
    | none => throw (.stray routine.name id)
    | some inst =>
      sink.inst outline inst.kind
      sink.exit outline id inst following
      steps routine rest

/-- Writes how a routine begins. -/
def heading (routine : Routine) : Writer m Unit := do
  sink.put (.exported routine.name)
  sink.put (.entry routine.name)
  sink.put (.instr (.enter routine.frameWords))

/-- Writes a routine from its arguments on. -/
def body (routine : Routine) : SlotWriter m Unit := do
  sink.bindArgs 0 routine.args
  sink.steps outline routine (withFollowing routine.schedule)

/-- Writes a routine. It takes all its labels first, and starts without slots. -/
def routine (constants : List Constant) (routine : Routine) : Writer m Unit := do
  let labels ← takeLabels routine [] (withFollowing routine.schedule)
  sink.heading routine
  (sink.body { constants, name := routine.name, labels } routine).run' []

/-- Writes the line that reserves room for a global, if its size is a machine word. -/
def global (global : GlobalDecl) : Writer m Unit := do
  let bytes := global.elements.toNat * wordSize
  if bytes < UInt64.size then sink.put (.common global.symbol.name bytes)
  else throw (.oversized global.symbol.name)

/-- Writes a program: its globals, then its routines. -/
def program (program : Program) : Writer m Unit := do
  forM program.globals sink.global
  forM program.routines (sink.routine program.constants)

end Sink

/-! ## Sinks with room -/

/-- Takes a line if there is room for it, and none after one that was refused. -/
def Delivery.append (delivery : Delivery) (line : String) : Delivery :=
  match delivery.rest with
  | .error _ => delivery
  | .ok room =>
    match room.offer line with
    | .ok left => { delivery with lines := delivery.lines ++ [line], rest := .ok left }
    | .error (reason, cut) => { delivery with cut, rest := .error reason }

/-- A sink with room, which keeps what was delivered. -/
def Delivery.sink : Sink (StateM Delivery) where
  append line := fun delivery =>
    let delivery := delivery.append line
    (delivery.rest.map fun _ => (), delivery)

/-- Why writing ended early, if it did. -/
def haltOf : Except Halt Unit → Option Halt
  | .ok _ => none
  | .error halt => some halt

/-- Writes a program line by line to a sink with room, with labels from `nextLabel` on. -/
def writeProgram (program : Program) (nextLabel : Nat) (room : Room) : Emission :=
  let written := (Delivery.sink.program program).run.run nextLabel
  let result := written.run { lines := [], rest := .ok room }
  { lines := result.2.lines
    cut := result.2.cut
    halt := haltOf result.1.1
    nextLabel := result.1.2 }

end WordLang.Asm
