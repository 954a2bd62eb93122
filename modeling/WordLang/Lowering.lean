import WordLang.Program.Basic
import WordLang.Tree

/-!
# Lowering

Turns a resolved tree into a program, one routine for each function. Each construct becomes a
*chain*: instructions with one way in, `entry`, and one way out, `exit`, which has no successor
yet. Chains are put together by linking the exit of one to the entry of the next.

| construct | chain |
|---|---|
| literal | a copy of a constant |
| variable | a `nop` if it is in a register, else its address and a load |
| array element | the index, the address, a load |
| call | a `nop`, each argument, the call |
| operator | left operand, right operand, the operation |
| `and`, `or` | left operand, a jump; one side keeps it, one takes the right operand; a `nop` |
| assignment | the value, then a copy or an address and a store; for an element, its address first |
| conditional | the condition, a jump, two blocks, a `nop` where they meet |
| loop | the first assignment; the condition, a jump; the body, the increment, and back |
| break | a `nop` that leads to the end of the loop; what follows it hangs off a `nop` of its own |
| return | the value and the return; what follows it hangs off a `nop` of its own |

Nothing that was built is ever undone: instructions are added to the arena, registers and
constants are taken in order, and a successor is set only on instructions of the construct at
hand. A tree in which checking finds no problem lowers without an error, unless it has a call of a
function that returns nothing as an argument.
-/

namespace WordLang

/-- What a tree may have that cannot be lowered. -/
inductive LowerError where
  | missingSymbol (pos : Position) (name : String)
  | missingValue (pos : Position)
  | breakOutsideLoop (pos : Position)
  | invalidLocation (pos : Position)
  | notAFunction (pos : Position) (name : String)
deriving DecidableEq

/-- The wording of a lowering error. -/
def LowerError.message : LowerError → String
  | .missingSymbol pos name =>
    "identifier " ++ name ++ " at " ++ pos.text ++ " has no resolved symbol"
  | .missingValue pos => "expression at " ++ pos.text ++ " produces no value"
  | .breakOutsideLoop pos => "break at " ++ pos.text ++ " is not inside a loop"
  | .invalidLocation pos =>
    "assignment at " ++ pos.text ++ " does not target a variable or array element"
  | .notAFunction pos name => "callee " ++ name ++ " at " ++ pos.text ++ " is not a function"

/-- What lowering a function works on: the constants of the whole program, the routine so far, and
the registers of the parameters and locals declared so far, the newest first. -/
structure Builder where
  constants : List Constant
  routine : Routine
  locals : List (SymbolId × Temp) := []

/-- A step of lowering. -/
abbrev Lower (α : Type) := StateT Builder (Except LowerError) α

/-- A part of a graph with one way in and one way out, and the register of its value. -/
structure Chain where
  entry : InstId
  exit : InstId
  value : Option Temp := none

/-! ## Building blocks -/

namespace Lower

/-- Takes a value register. -/
def freshTemp : Lower Temp :=
  modifyGet fun builder =>
    let (temp, routine) := builder.routine.freshTemp
    (temp, { builder with routine })

/-- Takes an address register. -/
def freshAddr : Lower Addr :=
  modifyGet fun builder =>
    let (addr, routine) := builder.routine.freshAddr
    (addr, { builder with routine })

/-- Adds an instruction. -/
def push (kind : InstKind) : Lower InstId :=
  modifyGet fun builder =>
    let (id, routine) := builder.routine.push kind
    (id, { builder with routine })

/-- Sets a successor. -/
def link (source : InstId) (target : InstId) (edge : Edge) : Lower Unit :=
  modify fun builder => { builder with routine := builder.routine.link source edge target }

/-- Makes one instruction follow another. -/
def follow (source target : InstId) : Lower Unit :=
  link source target .next

/-- Puts a constant in the pool. -/
def intern (constant : Constant) : Lower ConstId :=
  modifyGet fun builder =>
    let (id, constants) := internConstant builder.constants constant
    (id, { builder with constants })

/-- Gives a declared name its register. -/
def bindLocal (symbol : Symbol) (temp : Temp) : Lower Unit :=
  modify fun builder => { builder with locals := (symbol.id, temp) :: builder.locals }

/-- The register of a name, if it is a parameter or a local. -/
def local? (symbol : Symbol) : Lower (Option Temp) := do
  return (← get).locals.lookup symbol.id

end Lower

/-- The symbol of a name that was resolved. -/
def Ident.resolved (ident : Ident) : Except LowerError Symbol :=
  match ident.symbol with
  | some symbol =>
    if symbol.isFaulty then .error (.missingSymbol ident.pos ident.name) else .ok symbol
  | none => .error (.missingSymbol ident.pos ident.name)

/-- The register of a chain's value, which is wanted at `pos`. -/
def Chain.valueAt (chain : Chain) (pos : Position) : Except LowerError Temp :=
  match chain.value with
  | some temp => .ok temp
  | none => .error (.missingValue pos)

namespace Lower

/-- A literal. -/
def literal (constant : Constant) : Lower Chain := do
  let id ← intern constant
  let dst ← freshTemp
  let copy ← push (.copy dst (.const id))
  return { entry := copy, exit := copy, value := some dst }

/-- The value of a variable. -/
def varValue (ident : Ident) : Lower Chain := do
  let symbol ← ident.resolved
  match ← local? symbol with
  | some temp =>
    let nop ← push .nop
    return { entry := nop, exit := nop, value := some temp }
  | none =>
    let addr ← freshAddr
    let address ← push (.addressAt addr symbol none)
    let dst ← freshTemp
    let load ← push (.load dst addr)
    follow address load
    return { entry := address, exit := load, value := some dst }

/-- Whether a call of a symbol has a value. Only functions can be called. -/
def callHasValue (pos : Position) (callee : Symbol) : Except LowerError Bool :=
  match callee.ty with
  | some (.func _ ret) => .ok (! ret.isVoid)
  | _ => .error (.notAFunction pos callee.name)

/-- The call itself, after its arguments, which start at `entry` and end at `exit`. -/
def finishCall (callee : Symbol) (hasValue : Bool) (args : List Temp) (entry exit : InstId) :
    Lower Chain := do
  let dst ← if hasValue then some <$> freshTemp else pure none
  let call ← push (.call dst callee args)
  follow exit call
  return { entry, exit := call, value := dst }

/-- An operation on the values of two chains. -/
def combine (kind : Temp → InstKind) (left right : Chain) : Lower Chain := do
  let dst ← freshTemp
  let inst ← push (kind dst)
  follow left.exit right.entry
  follow right.exit inst
  return { entry := left.entry, exit := inst, value := some dst }

/-- The edge that a connective takes when the left operand decides, and the other one. -/
def connectiveEdges : Connective → Edge × Edge
  | .and => (.next, .onTrue)
  | .or => (.onTrue, .next)

end Lower

/-! ## Expressions -/

mutual

/-- Lowers an expression. -/
def Expr.lower : Expr → Lower Chain
  | .int _ value => Lower.literal (.int value)
  | .bool _ value => Lower.literal (.bool value)
  | .var _ ident => Lower.varValue ident
  | .index info base position => do
    let symbol ← base.resolved
    let index ← position.lower
    let offset ← index.valueAt info.pos
    let addr ← Lower.freshAddr
    let address ← Lower.push (.addressAt addr symbol (some offset))
    let dst ← Lower.freshTemp
    let load ← Lower.push (.load dst addr)
    Lower.follow index.exit address
    Lower.follow address load
    return { entry := index.entry, exit := load, value := some dst }
  | .call info callee args => do
    let symbol ← callee.resolved
    let hasValue ← Lower.callHasValue info.pos symbol
    let entry ← Lower.push .nop
    let (temps, exit) ← Expr.lowerArgs entry args
    Lower.finishCall symbol hasValue temps entry exit
  | .unary info op operand => do
    let left ← operand.lower
    let value ← left.valueAt operand.pos
    match op with
    | .negate =>
      let dst ← Lower.freshTemp
      let inst ← Lower.push (.not dst value)
      Lower.follow left.exit inst
      return { entry := left.entry, exit := inst, value := some dst }
    | _ => throw (.missingValue info.pos)
  | .binary _ op leftExpr rightExpr => do
    let left ← leftExpr.lower
    let leftValue ← left.valueAt leftExpr.pos
    match op with
    | .negate =>
      let dst ← Lower.freshTemp
      let inst ← Lower.push (.not dst leftValue)
      Lower.follow left.exit inst
      return { entry := left.entry, exit := inst, value := some dst }
    | .connect connective =>
      let jump ← Lower.push (.jump leftValue)
      Lower.follow left.exit jump
      let dst ← Lower.freshTemp
      let keepLeft ← Lower.push (.copy dst (.temp leftValue))
      let right ← rightExpr.lower
      let rightValue ← right.valueAt rightExpr.pos
      let takeRight ← Lower.push (.copy dst (.temp rightValue))
      let join ← Lower.push .nop
      let (decided, undecided) := Lower.connectiveEdges connective
      Lower.link jump keepLeft decided
      Lower.link jump right.entry undecided
      Lower.follow keepLeft join
      Lower.follow right.exit takeRight
      Lower.follow takeRight join
      return { entry := left.entry, exit := join, value := some dst }
    | .arith op =>
      let right ← rightExpr.lower
      let rightValue ← right.valueAt rightExpr.pos
      Lower.combine (.arith op · leftValue rightValue) left right
    | .compare op =>
      let right ← rightExpr.lower
      let rightValue ← right.valueAt rightExpr.pos
      Lower.combine (.compare op · leftValue rightValue) left right

/-- Lowers arguments one after the other, from `exit` on; gives their registers and the new exit. -/
def Expr.lowerArgs (exit : InstId) : List Expr → Lower (List Temp × InstId)
  | [] => return ([], exit)
  | arg :: rest => do
    let chain ← arg.lower
    let temp ← chain.valueAt arg.pos
    Lower.follow exit chain.entry
    let (temps, exit) ← Expr.lowerArgs chain.exit rest
    return (temp :: temps, exit)

end

/-! ## Statements -/

/-- Lowers an assignment. -/
def Assignment.lower (assignment : Assignment) : Lower Chain :=
  match assignment.location with
  | .var _ ident => do
    let symbol ← ident.resolved
    let known ← Lower.local? symbol
    let value ← assignment.value.lower
    let src ← value.valueAt assignment.value.pos
    match known with
    | some dst =>
      let copy ← Lower.push (.copy dst (.temp src))
      Lower.follow value.exit copy
      return { entry := value.entry, exit := copy }
    | none =>
      let dst ← Lower.freshAddr
      let address ← Lower.push (.addressAt dst symbol none)
      let store ← Lower.push (.store src dst)
      Lower.follow value.exit address
      Lower.follow address store
      return { entry := value.entry, exit := store }
  | .index _ base position => do
    let symbol ← base.resolved
    let index ← position.lower
    let offset ← index.valueAt position.pos
    let dst ← Lower.freshAddr
    let address ← Lower.push (.addressAt dst symbol (some offset))
    let value ← assignment.value.lower
    let src ← value.valueAt assignment.value.pos
    let store ← Lower.push (.store src dst)
    Lower.follow index.exit address
    Lower.follow address value.entry
    Lower.follow value.exit store
    return { entry := index.entry, exit := store }
  | _ => throw (.invalidLocation assignment.info.pos)

mutual

/-- Lowers a statement. `loopExit` is where a break leads, inside a loop. -/
def Stmt.lower (loopExit : Option InstId) : Stmt → Lower Chain
  | .declare _ decl => do
    let temp ← Lower.freshTemp
    let symbol ← decl.ident.resolved
    Lower.bindLocal symbol temp
    let nop ← Lower.push .nop
    return { entry := nop, exit := nop }
  | .assign _ assignment => assignment.lower
  | .call info callee args => do
    let symbol ← callee.resolved
    let hasValue ← Lower.callHasValue info.pos symbol
    let entry ← Lower.push .nop
    let (temps, exit) ← Expr.lowerArgs entry args
    Lower.finishCall symbol hasValue temps entry exit
  | .ifElse info condExpr onTrue onFalse => do
    let cond ← condExpr.lower
    let value ← cond.valueAt info.pos
    let jump ← Lower.push (.jump value)
    Lower.follow cond.exit jump
    let trueEntry ← Lower.push .nop
    let trueExit ← Stmt.lowerAll loopExit trueEntry onTrue.stmts
    let falseEntry ← Lower.push .nop
    let falseExit ← Stmt.lowerAll loopExit falseEntry onFalse.stmts
    let join ← Lower.push .nop
    Lower.link jump trueEntry .onTrue
    Lower.link jump falseEntry .next
    Lower.follow trueExit join
    Lower.follow falseExit join
    return { entry := cond.entry, exit := join }
  | .loop _ initial condExpr increment body => do
    let init ← initial.lower
    let cond ← condExpr.lower
    let value ← cond.valueAt condExpr.pos
    let jump ← Lower.push (.jump value)
    let done ← Lower.push .nop
    Lower.follow init.exit cond.entry
    Lower.follow cond.exit jump
    let bodyEntry ← Lower.push .nop
    let bodyExit ← Stmt.lowerAll (some done) bodyEntry body.stmts
    let step ← increment.lower
    Lower.link jump bodyEntry .onTrue
    Lower.link jump done .next
    Lower.follow bodyExit step.entry
    Lower.follow step.exit cond.entry
    return { entry := init.entry, exit := done }
  | .leave info => do
    match loopExit with
    | none => throw (.breakOutsideLoop info.pos)
    | some target =>
      let entry ← Lower.push .nop
      Lower.follow entry target
      let rest ← Lower.push .nop
      return { entry, exit := rest }
  | .ret _ none => do
    let entry ← Lower.push (.ret none)
    let rest ← Lower.push .nop
    return { entry, exit := rest }
  | .ret _ (some expr) => do
    let value ← expr.lower
    let ret ← Lower.push (.ret value.value)
    Lower.follow value.exit ret
    let rest ← Lower.push .nop
    return { entry := value.entry, exit := rest }

/-- Lowers statements one after the other, from `exit` on; gives the new exit. -/
def Stmt.lowerAll (loopExit : Option InstId) (exit : InstId) : List Stmt → Lower InstId
  | [] => return exit
  | stmt :: rest => do
    let chain ← stmt.lower loopExit
    Lower.follow exit chain.entry
    Stmt.lowerAll loopExit chain.exit rest

end

/-! ## Programs -/

/-- Gives each parameter its register, in order. -/
def Param.lowerAll : List Param → Lower (List Temp)
  | [] => return []
  | param :: rest => do
    let temp ← Lower.freshTemp
    let symbol ← param.ident.resolved
    Lower.bindLocal symbol temp
    return temp :: (← Param.lowerAll rest)

/-- Lowers a function's parameters and body into the routine at hand. -/
def FunDef.lowerBody (definition : FunDef) : Lower Unit := do
  let args ← Param.lowerAll definition.params
  modify fun builder => { builder with routine := { builder.routine with args } }
  let start := (← get).routine.start
  let _ ← Stmt.lowerAll none start definition.body.stmts

/-- Lowers a function, given the constants so far. -/
def FunDef.lower (definition : FunDef) (constants : List Constant) :
    Except LowerError (Routine × List Constant) := do
  let symbol ← definition.ident.resolved
  let builder : Builder := { constants, routine := .new symbol.name definition.ty }
  let (_, builder) ← definition.lowerBody.run builder
  return (builder.routine, builder.constants)

/-- How many elements a declaration needs room for. -/
def VarDecl.elements (decl : VarDecl) : UInt64 :=
  match decl.declared with
  | .array _ extent => extent
  | _ => 1

/-- Lowers a top declaration into a program. -/
def Item.lower (program : Program) : Item → Except LowerError Program
  | .global decl => do
    let symbol ← decl.ident.resolved
    return { program with globals := program.globals ++ [{ symbol, elements := decl.elements }] }
  | .function definition => do
    let (routine, constants) ← definition.lower program.constants
    return { program with routines := program.routines ++ [routine], constants }

/-- Lowers a program. -/
def Tree.lower (tree : Tree) : Except LowerError Program :=
  tree.items.foldlM Item.lower {}

end WordLang
