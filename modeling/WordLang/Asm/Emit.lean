import WordLang.Asm.Fragment
import WordLang.Asm.Layout

/-!
# Assembly of a routine

Every virtual register lives in a stack slot of its own. An instruction loads what it reads into
scratch registers, works there and stores the result; `%rax`, `%r10` and `%r11` are scratch.

A routine is written as its entry, the code that moves its arguments into their slots, and then its
steps. A step is the label if it has one, the instruction, and the way on: a conditional branch, a
branch if the successor does not come next, or the end of the frame.
-/

namespace WordLang.Asm

/-- What the assembly of a routine depends on besides the instruction at hand. `base` is the number
of the routine's first label. -/
structure Context where
  constants : List Constant
  name : String
  frame : List Register
  labels : List InstId
  base : Nat

/-- The context of a routine. -/
def Context.of (constants : List Constant) (base : Nat) (routine : Routine) : Context where
  constants := constants
  name := routine.name
  frame := routine.frame
  labels := routine.labelled
  base := base

namespace Context

/-- The slot of a register. -/
def slot (ctx : Context) (register : Register) : Operand :=
  .slot (ctx.frame.idxOf register + 1)

/-- The slot of a value register. -/
def temp (ctx : Context) (t : Temp) : Operand :=
  ctx.slot (.temp t)

/-- The slot of an address register. -/
def addr (ctx : Context) (a : Addr) : Operand :=
  ctx.slot (.addr a)

/-- The number of an instruction's label. -/
def label? (ctx : Context) (id : InstId) : Option Nat :=
  if id ∈ ctx.labels then some (ctx.base + ctx.labels.idxOf id) else none

end Context

/-- Whether a number fits in the 32 bits that most instructions have for one. -/
def fitsImmediate (value : Int) : Bool :=
  Int32.minValue.toInt ≤ value && value ≤ Int32.maxValue.toInt

/-- Loads a number into a register. -/
def loadWord (value : Int) (reg : Reg) : Instr :=
  if fitsImmediate value then .mov (.imm value) (.reg reg) else .movAbs value reg

/-- Loads what an instruction reads into a register. -/
def loadOperand (ctx : Context) (reg : Reg) : WordLang.Operand → Fragment
  | .temp t => .instrs [.mov (ctx.temp t) (.reg reg)]
  | .addr a => .instrs [.mov (ctx.addr a) (.reg reg)]
  | .const id =>
    match ctx.constants[id]? with
    | some constant => .instrs [loadWord constant.word.toInt reg]
    | none => .fail (.unknownConstant ctx.name id)

/-- An operation that works in place. -/
def inPlaceCode (ctx : Context) (op : Alu) (dst left right : Temp) : List Instr :=
  [.mov (ctx.temp left) (.reg .r10), .mov (ctx.temp right) (.reg .r11),
    .alu op (.reg .r11) .r10, .mov (.reg .r10) (ctx.temp dst)]

/-- Arithmetic: division goes through `%rax` and `%rdx`. -/
def arithCode (ctx : Context) (dst left right : Temp) : Arith → List Instr
  | .add => inPlaceCode ctx .add dst left right
  | .sub => inPlaceCode ctx .sub dst left right
  | .mul => inPlaceCode ctx .imul dst left right
  | .div =>
    [.mov (ctx.temp left) (.reg .rax), .cqto, .mov (ctx.temp right) (.reg .r10), .idiv .r10,
      .mov (.reg .rax) (ctx.temp dst)]

/-- The address of a global, or of one of its elements. -/
def addressCode (ctx : Context) (dst : Addr) (base : String) (offset : Option Temp) : List Instr :=
  [.mov (.globalAddress base) (.reg .r11)] ++
    (offset.map fun offset =>
      [Instr.mov (ctx.temp offset) (.reg .r10), .alu .imul (.imm wordSize) .r10,
        .alu .add (.reg .r10) .r11]).getD [] ++
    [.mov (.reg .r11) (ctx.addr dst)]

/-- Loads the arguments that go in registers. -/
def loadArgs (ctx : Context) (args : List Temp) : List Instr :=
  (args.zip argRegs).map fun (arg, reg) => .mov (ctx.temp arg) (.reg reg)

/-- Makes room above the arguments on the stack, so that the stack is aligned at the call. -/
def alignCode (onStack : List Temp) : List Instr :=
  if onStack.length % 2 = 1 then [.alu .sub (.imm wordSize) .rsp] else []

/-- Pushes the arguments that go on the stack, the last one first. -/
def pushArgs (ctx : Context) (onStack : List Temp) : List Instr :=
  onStack.reverse.map fun arg => .push (ctx.temp arg)

/-- Takes the arguments and the room above them off the stack. -/
def popArgs (onStack : List Temp) : List Instr :=
  let bytes := (onStack.length + onStack.length % 2) * wordSize
  if bytes > 0 then [.alu .add (.imm bytes) .rsp] else []

/-- A call. -/
def callCode (ctx : Context) (dst : Option Temp) (callee : String) (args : List Temp) :
    List Instr :=
  let onStack := args.drop argRegs.length
  loadArgs ctx (args.take argRegs.length) ++ alignCode onStack ++ pushArgs ctx onStack ++
    [.call callee] ++ popArgs onStack ++
    dst.toList.map fun dst => .mov (.reg .rax) (ctx.temp dst)

/-- The assembly of an instruction, without the way on. -/
def instCode (ctx : Context) : InstKind → Fragment
  | .nop => {}
  | .jump _ => {}
  | .copy dst src => loadOperand ctx .r10 src ++ .instrs [.mov (.reg .r10) (ctx.temp dst)]
  | .arith op dst left right => .instrs (arithCode ctx dst left right op)
  | .compare op dst left right =>
    .instrs [.mov (.imm 0) (.reg .rax), .mov (.imm 1) (.reg .r10),
      .mov (ctx.temp left) (.reg .r11), .alu .cmp (ctx.temp right) .r11, .cmov op .r10 .rax,
      .mov (.reg .rax) (ctx.temp dst)]
  | .not dst operand =>
    .instrs [.mov (ctx.temp operand) (.reg .r10), .alu .xor (.imm 1) .r10,
      .mov (.reg .r10) (ctx.temp dst)]
  | .addressAt dst base offset => .instrs (addressCode ctx dst base.name offset)
  | .load dst src =>
    .instrs [.mov (ctx.addr src) (.reg .r10), .mov (.deref .r10) (.reg .r10),
      .mov (.reg .r10) (ctx.temp dst)]
  | .store src dst =>
    .instrs [.mov (ctx.addr dst) (.reg .r11), .mov (ctx.temp src) (.reg .r10),
      .mov (.reg .r10) (.deref .r11)]
  | .call dst callee args => .instrs (callCode ctx dst callee.name args)
  | .ret value => .instrs (value.toList.map fun value => .mov (ctx.temp value) (.reg .rax))

/-- A branch to an instruction, which has to have a label. -/
def branchTo (ctx : Context) (branch : Nat → Instr) (id : InstId) : Fragment :=
  match ctx.label? id with
  | some label => .instrs [branch label]
  | none => .fail (.missingLabel ctx.name id)

/-- Goes on to an instruction: nothing if it comes next, else a branch. -/
def continueTo (ctx : Context) (following : Option InstId) (id : InstId) : Fragment :=
  if following = some id then {} else branchTo ctx .jmp id

/-- The way on from an instruction. -/
def exitCode (ctx : Context) (step : Routine.Step) : Fragment :=
  match step.inst.kind with
  | .jump cond =>
    match step.inst.next, step.inst.onTrue with
    | some onFalse, some onTrue =>
      .instrs [.mov (ctx.temp cond) (.reg .r10), .alu .cmp (.imm 0) .r10] ++
        (branchTo ctx .je onFalse ++ continueTo ctx step.following onTrue)
    | _, _ => .fail (.incompleteJump ctx.name step.id)
  | _ =>
    match step.inst.next with
    | some next => continueTo ctx step.following next
    | none => .instrs [.leave, .ret]

/-- The assembly of a step. -/
def stepCode (ctx : Context) (step : Routine.Step) : Fragment :=
  { lines := (ctx.label? step.id).toList.map .label } ++
    (instCode ctx step.inst.kind ++ exitCode ctx step)

/-- Moves the argument with the given index into its slot. -/
def bindArg (ctx : Context) (index : Nat) (arg : Temp) : List Instr :=
  match argRegs[index]? with
  | some reg => [.mov (.reg reg) (ctx.temp arg)]
  | none =>
    [.mov (.incoming (index - argRegs.length)) (.reg .r10), .mov (.reg .r10) (ctx.temp arg)]

/-- Moves the arguments from `index` on into their slots. -/
def bindArgs (ctx : Context) (index : Nat) : List Temp → List Instr
  | [] => []
  | arg :: rest => bindArg ctx index arg ++ bindArgs ctx (index + 1) rest

/-- The entry of a routine. -/
def prologue (ctx : Context) (routine : Routine) : List Line :=
  [.exported routine.name, .entry routine.name, .instr (.enter routine.frameWords)] ++
    (bindArgs ctx 0 routine.args).map .instr

/-- The assembly of a routine whose first label has the number `base`. Nothing is written for a
routine with a stray handle. -/
def routineCode (constants : List Constant) (base : Nat) (routine : Routine) : Fragment :=
  match routine.stray? with
  | some id => .stop (.stray routine.name id)
  | none =>
    let ctx := Context.of constants base routine
    { lines := prologue ctx routine } ++ Fragment.join (routine.steps.map (stepCode ctx))

end WordLang.Asm
