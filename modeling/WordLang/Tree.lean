import WordLang.Operation
import WordLang.Position
import WordLang.Symbol

/-!
# Trees

A program as the front end hands it over. Every node knows where it was written. Two kinds of slot
start out empty: an identifier's `symbol`, which name resolution fills, and a node's `ty`, which
type checking fills. Nothing else of a tree ever changes.

* An operator with one operand is `unary` and one with two is `binary`. Any operator may be written
  with either number of operands; whether that makes sense is for type checking to say.
* The location of an assignment is an expression. Only variables and array elements can be stored
  to, which is again not a matter of shape.
-/

namespace WordLang

/-- What every node carries: its place, and its type once that is known. -/
structure Info where
  pos : Position := {}
  ty : Option Ty := none
deriving DecidableEq

/-- An occurrence of a name, declaring or using it. -/
structure Ident where
  pos : Position := {}
  name : String
  symbol : Option Symbol := none
deriving DecidableEq

/-- An expression. -/
inductive Expr where
  | int (info : Info) (value : Int64)
  | bool (info : Info) (value : Bool)
  | var (info : Info) (ident : Ident)
  | index (info : Info) (base : Ident) (position : Expr)
  | call (info : Info) (callee : Ident) (args : List Expr)
  | unary (info : Info) (op : Operation) (operand : Expr)
  | binary (info : Info) (op : Operation) (left right : Expr)

namespace Expr

/-- The place and type slot of an expression. -/
def info : Expr → Info
  | .int info _ => info
  | .bool info _ => info
  | .var info _ => info
  | .index info _ _ => info
  | .call info _ _ => info
  | .unary info _ _ => info
  | .binary info _ _ _ => info

/-- Where an expression was written. -/
def pos (expr : Expr) : Position :=
  expr.info.pos

end Expr

/-- A declaration of a variable, or of an array if its declared type is one. -/
structure VarDecl where
  info : Info := {}
  ident : Ident
  declared : Ty

/-- A value and the location it goes to. -/
structure Assignment where
  info : Info := {}
  location : Expr
  value : Expr

/-- A list of statements and its place. -/
structure Block (α : Type) where
  pos : Position := {}
  stmts : List α

/-- A statement. -/
inductive Stmt where
  | declare (info : Info) (decl : VarDecl)
  | assign (info : Info) (assignment : Assignment)
  | call (info : Info) (callee : Ident) (args : List Expr)
  | ifElse (info : Info) (cond : Expr) (onTrue onFalse : Block Stmt)
  | loop (info : Info) (init : Assignment) (cond : Expr) (increment : Assignment)
    (body : Block Stmt)
  | leave (info : Info)
  | ret (info : Info) (value : Option Expr)

namespace Stmt

/-- The place and type slot of a statement. -/
def info : Stmt → Info
  | .declare info _ => info
  | .assign info _ => info
  | .call info _ _ => info
  | .ifElse info _ _ _ => info
  | .loop info _ _ _ _ => info
  | .leave info => info
  | .ret info _ => info

/-- Where a statement was written. -/
def pos (stmt : Stmt) : Position :=
  stmt.info.pos

end Stmt

/-- A parameter of a function. -/
structure Param where
  ident : Ident
  declared : Ty

/-- A function with its body. -/
structure FunDef where
  pos : Position := {}
  ident : Ident
  params : List Param
  ret : Ty
  body : Block Stmt

/-- The type of a function, from its parameters and its return type. -/
def FunDef.ty (definition : FunDef) : Ty :=
  .func (definition.params.map (·.declared)) definition.ret

/-- A declaration at the top of a program. -/
inductive Item where
  | global (decl : VarDecl)
  | function (definition : FunDef)

/-- A whole program. -/
structure Tree where
  items : List Item

end WordLang
