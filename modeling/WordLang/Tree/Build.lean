import WordLang.Tree

/-!
# Building trees by hand

For callers that make a tree without writing it down as text first. Nothing in the compiler calls
these functions: it meets trees only after they have been read, where each node already carries its
position. They are here because the places that they choose decide which positions the diagnostics
of a tree made by hand will show.

Nodes are made at `[0,0]` and put in their place afterwards. Placing an expression also places the
name it is about; placing a declaration places the name it declares; a statement and a function are
placed alone. An assignment is made where its location already is.
-/

namespace WordLang

/-- An occurrence of a name, not yet placed. -/
def Ident.named (name : String) : Ident :=
  { name }

/-- Puts a name in its place. -/
def Ident.placeAt (pos : Position) (ident : Ident) : Ident :=
  { ident with pos }

/-- Puts a node in its place. -/
def Info.placeAt (pos : Position) (info : Info) : Info :=
  { info with pos }

/-- Puts an expression in its place, together with the name it is about. -/
def Expr.placeAt (pos : Position) : Expr → Expr
  | .int info value => .int (info.placeAt pos) value
  | .bool info value => .bool (info.placeAt pos) value
  | .var info ident => .var (info.placeAt pos) (ident.placeAt pos)
  | .index info base position => .index (info.placeAt pos) (base.placeAt pos) position
  | .call info callee args => .call (info.placeAt pos) (callee.placeAt pos) args
  | .unary info op operand => .unary (info.placeAt pos) op operand
  | .binary info op left right => .binary (info.placeAt pos) op left right

/-- Puts a statement in its place, and nothing inside it. -/
def Stmt.placeAt (pos : Position) : Stmt → Stmt
  | .declare info decl => .declare (info.placeAt pos) decl
  | .assign info assignment => .assign (info.placeAt pos) assignment
  | .call info callee args => .call (info.placeAt pos) callee args
  | .ifElse info cond onTrue onFalse => .ifElse (info.placeAt pos) cond onTrue onFalse
  | .loop info init cond increment body => .loop (info.placeAt pos) init cond increment body
  | .leave info => .leave (info.placeAt pos)
  | .ret info value => .ret (info.placeAt pos) value

/-- A declaration, not yet placed. -/
def VarDecl.named (name : String) (declared : Ty) : VarDecl :=
  { ident := .named name, declared }

/-- Puts a declaration in its place, together with the name it declares. -/
def VarDecl.placeAt (pos : Position) (decl : VarDecl) : VarDecl :=
  { decl with info := decl.info.placeAt pos, ident := decl.ident.placeAt pos }

/-- An assignment, placed where its location is. -/
def Assignment.to (location value : Expr) : Assignment :=
  { info := { pos := location.pos }, location, value }

/-- An assignment as a statement, placed where its location is. -/
def Stmt.set (location value : Expr) : Stmt :=
  .assign { pos := location.pos } (.to location value)

/-- A function, not yet placed. -/
def FunDef.named (name : String) (params : List (String × Ty)) (ret : Ty) (stmts : List Stmt) :
    FunDef where
  ident := .named name
  params := params.map fun (param, declared) => { ident := .named param, declared }
  ret := ret
  body := { stmts }

/-- Puts a top declaration in its place: a variable with its name, a function alone. -/
def Item.placeAt (pos : Position) : Item → Item
  | .global decl => .global (decl.placeAt pos)
  | .function definition => .function { definition with pos }

/-! ## What is placed is where it was put -/

@[simp]
theorem Expr.pos_placeAt (pos : Position) (expr : Expr) : (expr.placeAt pos).pos = pos := by
  cases expr <;> rfl

@[simp]
theorem Stmt.pos_placeAt (pos : Position) (stmt : Stmt) : (stmt.placeAt pos).pos = pos := by
  cases stmt <;> rfl

end WordLang
