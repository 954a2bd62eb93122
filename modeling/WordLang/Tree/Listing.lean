import WordLang.Tree

/-!
# Listing the slots of a tree

A view of an annotated tree for inspection, to see after a pass what it has written and what it has
left alone. No pass reads it, and no output of the compiler contains it; what the passes may write
is the subject of `WordLang.Proofs.Slots`.

Every node of a tree as one row, in the order of reading: what the node is, the symbol its name is
bound to, and the type it was given. A slot that was never filled is `none`.
-/

namespace WordLang

/-- A node with the contents of its slots. -/
structure Row where
  node : String
  symbol : Option Symbol := none
  ty : Option Ty := none

mutual

/-- The rows of an expression: the node, then its operands. -/
def Expr.rows : Expr → List Row
  | .int info _ => [{ node := "LiteralInt", ty := info.ty }]
  | .bool info _ => [{ node := "LiteralBool", ty := info.ty }]
  | .var info ident => [{ node := "Var", symbol := ident.symbol, ty := info.ty }]
  | .index info base position =>
    { node := "Index", symbol := base.symbol, ty := info.ty } :: position.rows
  | .call info callee args =>
    { node := "Call", symbol := callee.symbol, ty := info.ty } :: Expr.rowsAll args
  | .unary info _ operand => { node := "Op", ty := info.ty } :: operand.rows
  | .binary info _ left right => { node := "Op", ty := info.ty } :: (left.rows ++ right.rows)

/-- The rows of several expressions. -/
def Expr.rowsAll : List Expr → List Row
  | [] => []
  | expr :: rest => expr.rows ++ Expr.rowsAll rest

end

/-- The row of a declaration. Only a listing tells an array from a plain variable by its name. -/
def VarDecl.row (decl : VarDecl) : Row where
  node := if decl.declared.isArray then "ArrayDecl" else "Decl"
  symbol := decl.ident.symbol
  ty := decl.info.ty

/-- The rows of an assignment: the node, its location, its value. -/
def Assignment.rows (assignment : Assignment) : List Row :=
  { node := "Assignment", ty := assignment.info.ty } ::
    (assignment.location.rows ++ assignment.value.rows)

mutual

/-- The rows of a statement. -/
def Stmt.rows : Stmt → List Row
  | .declare info decl => [{ node := "DeclStmt", ty := info.ty }, decl.row]
  | .assign info assignment => { node := "AssignStmt", ty := info.ty } :: assignment.rows
  | .call info callee args =>
    { node := "CallStmt", symbol := callee.symbol, ty := info.ty } :: Expr.rowsAll args
  | .ifElse info cond onTrue onFalse =>
    { node := "IfElse", ty := info.ty } ::
      (cond.rows ++ Stmt.rowsAll onTrue.stmts ++ Stmt.rowsAll onFalse.stmts)
  | .loop info init cond increment body =>
    { node := "For", ty := info.ty } ::
      (init.rows ++ cond.rows ++ increment.rows ++ Stmt.rowsAll body.stmts)
  | .leave info => [{ node := "Break", ty := info.ty }]
  | .ret info value => { node := "Return", ty := info.ty } :: (value.map Expr.rows).getD []

/-- The rows of several statements. -/
def Stmt.rowsAll : List Stmt → List Row
  | [] => []
  | stmt :: rest => stmt.rows ++ Stmt.rowsAll rest

end

/-- The rows of a top declaration. -/
def Item.rows : Item → List Row
  | .global decl => [decl.row]
  | .function definition =>
    { node := "Function", symbol := definition.ident.symbol } ::
      (definition.params.map fun param => { node := "Param", symbol := param.ident.symbol }) ++
        Stmt.rowsAll definition.body.stmts

/-- The rows of a program. -/
def Tree.rows (tree : Tree) : List Row :=
  tree.items.flatMap Item.rows

end WordLang
