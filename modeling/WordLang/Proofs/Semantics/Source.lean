import WordLang.Proofs.Resolution.Scoping
import WordLang.Proofs.Semantics.World

/-!
# What trees mean

An evaluator for resolved trees, in which what a construct does can be read off its case. Operands
and arguments are evaluated from left to right. A name that the function itself declares, whose id
is in `scope`, is a variable of its own; any other name is a word in memory. A declaration does
nothing, so what a local holds before its first assignment is up to whoever runs the function.

A loop may go on forever. Execution is therefore given some `fuel`, which is how often each loop may
start over; whatever the fuel, an execution that comes to an end has the same end.

There are three ways to have no result (`Stop`), and they are kept apart. A fault is the program's
own, as a division by zero is. A timeout is nothing that a program does; it says that more fuel is
needed to know. And a tree may make no sense: a name was never bound, or a value is wanted where
there is none. Trees without diagnostics are never stuck, and that is part of what is proved of
them.

Types play no part here. Truth values are words, and what is done to a word depends on the operation
only, so the evaluator works for trees that were never type checked.
-/

namespace WordLang

/-- Why an execution has no result. Only the first of these is an outcome that a running program
shows. -/
inductive Stop where
  /-- a division trapped -/
  | fault
  /-- the fuel is used up -/
  | timeout
  /-- the tree makes no sense -/
  | stuck
deriving DecidableEq

/-! ## Expressions

Expressions may load and call, so their evaluation changes what is outside. It cannot change a
local, which is why the locals are a parameter and no part of the state. -/

/-- A step of evaluation, which may change the memory and adds to the events. -/
abbrev Eval (α : Type) := StateT Outside (Except Stop) α

namespace Eval

/-- Loads a word. -/
def load (address : Word) : Eval Word :=
  modifyGet fun outside => outside.load address

/-- Stores a word. -/
def store (address value : Word) : Eval Unit :=
  modify fun outside => outside.store address value

/-- Calls a function. -/
def call (world : World) (name : String) (args : List Word) : Eval Word :=
  modifyGet fun outside => outside.call world name args

variable {α : Type}

/-- Loading a word, and going on with it. -/
theorem load_bind (address : Word) (f : Word → Eval α) (outside : Outside) :
    (load address >>= f) outside = f (outside.load address).1 (outside.load address).2 := rfl

/-- Calling a function, and going on with its result. -/
theorem call_bind (world : World) (name : String) (args : List Word) (f : Word → Eval α)
    (outside : Outside) :
    (call world name args >>= f) outside =
      f (outside.call world name args).1 (outside.call world name args).2 := rfl

end Eval

/-- The symbol that a name was bound to. -/
def Ident.meaning (ident : Ident) : Except Stop Symbol :=
  match ident.symbol with
  | some symbol => .ok symbol
  | none => .error .stuck

/-- A value that is wanted. -/
def wanted : Option Word → Except Stop Word
  | some value => .ok value
  | none => .error .stuck

/-- The result of an operation that may trap. -/
def trapping : Option Word → Except Stop Word
  | some value => .ok value
  | none => .error .fault

/-- What the result of a call is good for: a function that returns nothing gives no value. The
called function is known by its type only, which is the type of the symbol that its name was bound
to. -/
def Symbol.returned (callee : Symbol) (result : Word) : Except Stop (Option Word) :=
  match callee.ty with
  | some (.func _ ret) => .ok (if ret.isVoid then none else some result)
  | _ => .error .stuck

/-- Whether the left operand of a connective decides its value. Then the right one is not evaluated,
and so has no effect. -/
def Connective.decides (op : Connective) (left : Word) : Bool :=
  match op with
  | .and => left == 0
  | .or => left != 0

mutual

/-- The value of an expression. Only calls of functions that return nothing have none. The address
of an element is the base and eight bytes for each element before it; the index is not checked
against anything. -/
def Expr.eval (world : World) (scope : List SymbolId) (locals : SymbolId → Word) :
    Expr → Eval (Option Word)
  | .int _ value => return some (Constant.int value).value
  | .bool _ value => return some (Constant.bool value).value
  | .var _ ident => do
    let symbol ← ident.meaning
    if symbol.id ∈ scope then
      return some (locals symbol.id)
    else
      return some (← Eval.load (world.address symbol.name none))
  | .index _ base position => do
    let symbol ← base.meaning
    let index ← wanted (← position.eval world scope locals)
    return some (← Eval.load (world.address symbol.name (some index)))
  | .call _ callee args => do
    let symbol ← callee.meaning
    let values ← Expr.evalAll world scope locals args
    let result ← Eval.call world symbol.name values
    symbol.returned result
  | .unary _ op operand => do
    let value ← wanted (← operand.eval world scope locals)
    match op with
    | .negate => return some (flip value)
    | _ => throw .stuck
  | .binary _ op leftExpr rightExpr => do
    let left ← wanted (← leftExpr.eval world scope locals)
    match op with
    | .negate => return some (flip left)
    | .connect op =>
      if op.decides left then
        return some left
      else
        let right ← wanted (← rightExpr.eval world scope locals)
        return some right
    | .arith op =>
      let right ← wanted (← rightExpr.eval world scope locals)
      return some (← trapping (op.apply left right))
    | .compare op =>
      let right ← wanted (← rightExpr.eval world scope locals)
      return some (truth (op.holds left right))

/-- The values of several expressions, one after the other. -/
def Expr.evalAll (world : World) (scope : List SymbolId) (locals : SymbolId → Word) :
    List Expr → Eval (List Word)
  | [] => return []
  | expr :: rest => do
    let value ← wanted (← expr.eval world scope locals)
    let values ← Expr.evalAll world scope locals rest
    return value :: values

end

section

variable {world : World} {scope : List SymbolId} {locals : SymbolId → Word} {info : Info}
  {left right : Expr}

/-- Negation with one operand. -/
theorem Expr.eval_unary_negate {operand : Expr} :
    (Expr.unary info .negate operand).eval world scope locals =
      (do return some (flip (← wanted (← operand.eval world scope locals)))) := by
  rw [Expr.eval]

/-- Negation that is written with two operands. The right one is not evaluated. -/
theorem Expr.eval_negate :
    (Expr.binary info .negate left right).eval world scope locals =
      (do return some (flip (← wanted (← left.eval world scope locals)))) := by
  rw [Expr.eval]

/-- A connective evaluates its right operand only if the left one does not decide. -/
theorem Expr.eval_connect {op : Connective} :
    (Expr.binary info (.connect op) left right).eval world scope locals = (do
      let word ← wanted (← left.eval world scope locals)
      if op.decides word then
        return some word
      else
        return some (← wanted (← right.eval world scope locals))) := by
  rw [Expr.eval]

/-- Arithmetic evaluates both operands, and may trap. -/
theorem Expr.eval_arith {op : Arith} :
    (Expr.binary info (.arith op) left right).eval world scope locals = (do
      let first ← wanted (← left.eval world scope locals)
      let second ← wanted (← right.eval world scope locals)
      return some (← trapping (op.apply first second))) := by
  rw [Expr.eval]

/-- A comparison evaluates both operands. -/
theorem Expr.eval_compare {op : Comparison} :
    (Expr.binary info (.compare op) left right).eval world scope locals = (do
      let first ← wanted (← left.eval world scope locals)
      let second ← wanted (← right.eval world scope locals)
      return some (truth (op.holds first second))) := by
  rw [Expr.eval]

end

/-! ## Statements

Statements change locals, and may end in more ways than one. A statement that does not end with
`next` keeps those after it from being executed. -/

/-- The locals of a function, and everything outside of it. Locals are told apart by their ids, so
one that hides another has a place of its own. -/
structure Store where
  locals : SymbolId → Word
  outside : Outside

/-- A step of execution. -/
abbrev Exec (α : Type) := StateT Store (Except Stop) α

/-- How a statement ends. -/
inductive Signal where
  /-- what follows is next -/
  | next
  /-- the loop around it is left -/
  | leave
  | ret (value : Option Word)

namespace Exec

/-- A step of evaluation, with the locals at hand. -/
def eval {α : Type} (step : (SymbolId → Word) → Eval α) : Exec α := fun store => do
  let (result, outside) ← step store.locals store.outside
  return (result, { store with outside })

/-- The value of an expression that must have one. -/
def value (world : World) (scope : List SymbolId) (expr : Expr) : Exec Word := do
  wanted (← eval fun locals => expr.eval world scope locals)

/-- Puts a value in a local. -/
def setLocal (id : SymbolId) (value : Word) : Exec Unit :=
  modify fun store => { store with locals := Function.update store.locals id value }

/-- Runs a loop from the test on. Each time around costs one unit of fuel, the last one included.
The assignment at the loop's end is not carried out when the loop is left early. -/
def iterate (test : Exec Word) (body : Exec Signal) (increment : Exec Unit) : Nat → Exec Signal
  | 0 => throw .timeout
  | fuel + 1 => do
    if (← test) = 0 then
      return .next
    else
      match ← body with
      | .next => do
        increment
        iterate test body increment fuel
      | .leave => return .next
      | .ret value => return .ret value

end Exec

/-- Carries out an assignment. The index of an array element is evaluated before the value. Nothing
but a variable or an element can be assigned to. -/
def Assignment.exec (world : World) (scope : List SymbolId) (assignment : Assignment) : Exec Unit :=
  match assignment.location with
  | .var _ ident => do
    let symbol ← ident.meaning
    let value ← Exec.value world scope assignment.value
    if symbol.id ∈ scope then
      Exec.setLocal symbol.id value
    else
      Exec.eval fun _ => Eval.store (world.address symbol.name none) value
  | .index _ base position => do
    let symbol ← base.meaning
    let index ← Exec.value world scope position
    let value ← Exec.value world scope assignment.value
    Exec.eval fun _ => Eval.store (world.address symbol.name (some index)) value
  | _ => throw .stuck

mutual

/-- Executes a statement. Only loops use the fuel, and each of them gets all of it, also inside of
another. -/
def Stmt.exec (world : World) (scope : List SymbolId) (fuel : Nat) : Stmt → Exec Signal
  | .declare _ _ => return .next
  | .assign _ assignment => do
    assignment.exec world scope
    return .next
  | .call info callee args => do
    let _ ← Exec.eval fun locals => (Expr.call info callee args).eval world scope locals
    return .next
  | .ifElse _ cond onTrue onFalse => do
    if (← Exec.value world scope cond) = 0 then
      Stmt.execAll world scope fuel onFalse.stmts
    else
      Stmt.execAll world scope fuel onTrue.stmts
  | .loop _ init cond increment body => do
    init.exec world scope
    Exec.iterate (Exec.value world scope cond) (Stmt.execAll world scope fuel body.stmts)
      (increment.exec world scope) fuel
  | .leave _ => return .leave
  | .ret _ none => return .ret none
  | .ret _ (some expr) => do
    return .ret (← Exec.eval fun locals => expr.eval world scope locals)

/-- Executes statements one after the other, until one of them ends in another way. -/
def Stmt.execAll (world : World) (scope : List SymbolId) (fuel : Nat) : List Stmt → Exec Signal
  | [] => return .next
  | stmt :: rest => do
    match ← stmt.exec world scope fuel with
    | .next => Stmt.execAll world scope fuel rest
    | signal => return signal

end

/-! ## Functions

A function is run by itself. The functions that it calls are the world's, also when they are in the
same tree. -/

/-- The ids that a function declares: those of its body and those of its parameters. A name with one
of them is a variable of the function, wherever in the body it stands. -/
def FunDef.scope (definition : FunDef) : List SymbolId :=
  Stmt.declaresAll definition.body.stmts ++ Param.declaresAll definition.params

/-- Puts each argument in its place, in order. -/
def assignAll {κ : Type} [DecidableEq κ] : List κ → List Word → (κ → Word) → κ → Word
  | key :: keys, arg :: args, content => assignAll keys args (Function.update content key arg)
  | _, _, content => content

/-- Runs a function on its arguments. The locals that are not assigned yet may hold anything.
Without a return the function ends with its body. -/
def FunDef.run (world : World) (fuel : Nat) (definition : FunDef) (args : List Word)
    (locals : SymbolId → Word) (outside : Outside) : Except Stop (Option Word × Outside) := do
  let locals := assignAll (definition.params.filterMap (·.ident.id?)) args locals
  let body := Stmt.execAll world definition.scope fuel definition.body.stmts
  match ← body { locals, outside } with
  | (.next, store) => return (none, store.outside)
  | (.ret value, store) => return (value, store.outside)
  | (.leave, _) => throw .stuck

end WordLang
