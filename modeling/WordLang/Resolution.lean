import WordLang.SymbolTable
import WordLang.Tree

/-!
# Name resolution

Binds every name of a program to a symbol. A tree is walked in the order of reading with a symbol
table as the state; declarations `add`, uses `lookup`, and both fill the name's slot with the
symbol they get, faulty or not.

* Globals and functions are declared in the global scope, each before what follows it; a function
  is declared before its own body.
* The parameters of a function and the statements of its body share one scope.
* Each branch of a conditional, and the body of a loop, is a scope of its own. The rest of a loop
  stands in the scope around it.
-/

namespace WordLang

/-- A step of resolution: it reads and changes the symbol table. -/
abbrev Resolve (α : Type) := StateM SymbolTable α

/-- Runs a step in a scope of its own. -/
def withScope {α : Type} (step : Resolve α) : Resolve α := do
  modify SymbolTable.enter
  let result ← step
  modify SymbolTable.leave
  return result

namespace Ident

/-- Declares a name with its type. -/
def declare (ident : Ident) (ty : Ty) : Resolve Ident := do
  let symbol ← modifyGet fun table => table.add ident.pos ident.name ty
  return { ident with symbol := some symbol }

/-- Binds a use of a name. -/
def resolve (ident : Ident) : Resolve Ident := do
  let symbol ← modifyGet fun table => table.lookup ident.pos ident.name
  return { ident with symbol := some symbol }

end Ident

mutual

/-- Binds the names of an expression. -/
def Expr.resolve : Expr → Resolve Expr
  | .int info value => return .int info value
  | .bool info value => return .bool info value
  | .var info ident => return .var info (← ident.resolve)
  | .index info base position => return .index info (← base.resolve) (← position.resolve)
  | .call info callee args => return .call info (← callee.resolve) (← Expr.resolveAll args)
  | .unary info op operand => return .unary info op (← operand.resolve)
  | .binary info op left right => return .binary info op (← left.resolve) (← right.resolve)

/-- Binds the names of several expressions. -/
def Expr.resolveAll : List Expr → Resolve (List Expr)
  | [] => return []
  | expr :: rest => return (← expr.resolve) :: (← Expr.resolveAll rest)

end

/-- Declares a variable. -/
def VarDecl.resolve (decl : VarDecl) : Resolve VarDecl :=
  return { decl with ident := ← decl.ident.declare decl.declared }

/-- Binds the names of an assignment: first the location, then the value. -/
def Assignment.resolve (assignment : Assignment) : Resolve Assignment :=
  return { assignment with
    location := ← assignment.location.resolve
    value := ← assignment.value.resolve }

mutual

/-- Binds the names of a statement. -/
def Stmt.resolve : Stmt → Resolve Stmt
  | .declare info decl => return .declare info (← decl.resolve)
  | .assign info assignment => return .assign info (← assignment.resolve)
  | .call info callee args => return .call info (← callee.resolve) (← Expr.resolveAll args)
  | .ifElse info cond onTrue onFalse => do
    let cond ← cond.resolve
    let trueStmts ← withScope (Stmt.resolveAll onTrue.stmts)
    let falseStmts ← withScope (Stmt.resolveAll onFalse.stmts)
    return .ifElse info cond { onTrue with stmts := trueStmts } { onFalse with stmts := falseStmts }
  | .loop info init cond increment body => do
    let init ← init.resolve
    let cond ← cond.resolve
    let increment ← increment.resolve
    let stmts ← withScope (Stmt.resolveAll body.stmts)
    return .loop info init cond increment { body with stmts }
  | .leave info => return .leave info
  | .ret info none => return .ret info none
  | .ret info (some value) => return .ret info (some (← value.resolve))

/-- Binds the names of several statements. -/
def Stmt.resolveAll : List Stmt → Resolve (List Stmt)
  | [] => return []
  | stmt :: rest => return (← stmt.resolve) :: (← Stmt.resolveAll rest)

end

/-- Declares a parameter. -/
def Param.resolve (param : Param) : Resolve Param :=
  return { param with ident := ← param.ident.declare param.declared }

/-- Declares a function, then binds the names of its parameters and its body. -/
def FunDef.resolve (definition : FunDef) : Resolve FunDef := do
  let ident ← definition.ident.declare definition.ty
  withScope do
    let params ← definition.params.mapM Param.resolve
    let stmts ← Stmt.resolveAll definition.body.stmts
    return { definition with ident, params, body := { definition.body with stmts } }

/-- Binds the names of a top declaration. -/
def Item.resolve : Item → Resolve Item
  | .global decl => return .global (← decl.resolve)
  | .function definition => return .function (← definition.resolve)

/-- Binds the names of a program. Ids are drawn from `nextId` on; the final table holds the
problems met and the id to go on with. -/
def Tree.resolve (tree : Tree) (nextId : Nat) : Tree × SymbolTable :=
  let (items, table) := (tree.items.mapM Item.resolve).run (.new nextId)
  ({ items }, table)

end WordLang
