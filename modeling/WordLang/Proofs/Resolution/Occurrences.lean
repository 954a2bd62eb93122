import Mathlib.Data.List.Infix
import WordLang.Diagnostic
import WordLang.Tree

/-!
# Lexical scoping

What a name means, said without a symbol table. A tree is read as the row of its *occurrences* of
names, in the order of reading. Each occurrence has the scope it stands in and, if it declares its
name, the type it declares it with.

* A scope is named by the numbers of the blocks around it, the innermost first; each block is
  counted among those that open directly in the same scope. The global scope is `[]`. A function is
  a block, and so is each branch of a conditional and the body of a loop.
* A scope holds a name from the first declaration of it on (`firstDeclaration`). Another declaration
  of it in the same scope fails.
* A use means the declaration that is held by the innermost of the scopes around it (`designated`),
  among the declarations before it.

`Occurrence.BoundAfter` says that an occurrence has the symbol which it should have after those
before it.
-/

namespace WordLang

/-- A name where it occurs. -/
structure Occurrence where
  /-- the blocks around it, the innermost first -/
  scope : List Nat
  ident : Ident
  /-- the type it declares the name with, if it is a declaration -/
  declared : Option Ty

/-! ## The occurrences of a tree -/

/-- A use of a name. -/
def Ident.used (scope : List Nat) (ident : Ident) : Occurrence :=
  { scope, ident, declared := none }

/-- A declaration of a name. -/
def Ident.declaredAs (scope : List Nat) (ty : Ty) (ident : Ident) : Occurrence :=
  { scope, ident, declared := some ty }

mutual

/-- The names of an expression. -/
def Expr.occurrences (scope : List Nat) : Expr → List Occurrence
  | .int _ _ => []
  | .bool _ _ => []
  | .var _ ident => [ident.used scope]
  | .index _ base position => base.used scope :: position.occurrences scope
  | .call _ callee args => callee.used scope :: Expr.occurrencesAll scope args
  | .unary _ _ operand => operand.occurrences scope
  | .binary _ _ left right => left.occurrences scope ++ right.occurrences scope

/-- The names of several expressions. -/
def Expr.occurrencesAll (scope : List Nat) : List Expr → List Occurrence
  | [] => []
  | expr :: rest => expr.occurrences scope ++ Expr.occurrencesAll scope rest

end

/-- The name of a declaration. -/
def VarDecl.occurrence (scope : List Nat) (decl : VarDecl) : Occurrence :=
  decl.ident.declaredAs scope decl.declared

/-- The names of an assignment. -/
def Assignment.occurrences (scope : List Nat) (assignment : Assignment) : List Occurrence :=
  assignment.location.occurrences scope ++ assignment.value.occurrences scope

/-- How many blocks open directly in the scope of a statement. -/
def Stmt.blocks : Stmt → Nat
  | .ifElse _ _ _ _ => 2
  | .loop _ _ _ _ _ => 1
  | _ => 0

mutual

/-- The names of a statement whose first block is number `n` of its scope. What a loop starts with
stands in the scope around it. -/
def Stmt.occurrences (scope : List Nat) (n : Nat) : Stmt → List Occurrence
  | .declare _ decl => [decl.occurrence scope]
  | .assign _ assignment => assignment.occurrences scope
  | .call _ callee args => callee.used scope :: Expr.occurrencesAll scope args
  | .ifElse _ cond onTrue onFalse =>
    cond.occurrences scope ++ (Stmt.occurrencesAll (n :: scope) 0 onTrue.stmts ++
      Stmt.occurrencesAll ((n + 1) :: scope) 0 onFalse.stmts)
  | .loop _ init cond increment body =>
    init.occurrences scope ++ (cond.occurrences scope ++ (increment.occurrences scope ++
      Stmt.occurrencesAll (n :: scope) 0 body.stmts))
  | .leave _ => []
  | .ret _ none => []
  | .ret _ (some value) => value.occurrences scope

/-- The names of several statements whose first block is number `n` of their scope. -/
def Stmt.occurrencesAll (scope : List Nat) (n : Nat) : List Stmt → List Occurrence
  | [] => []
  | stmt :: rest =>
    stmt.occurrences scope n ++ Stmt.occurrencesAll scope (n + stmt.blocks) rest

end

/-- The name of a parameter. -/
def Param.occurrence (scope : List Nat) (param : Param) : Occurrence :=
  param.ident.declaredAs scope param.declared

/-- The names of a function that is block number `n` of the global scope. Its parameters and the
statements of its body share one scope. -/
def FunDef.occurrences (n : Nat) (definition : FunDef) : List Occurrence :=
  definition.ident.declaredAs [] definition.ty ::
    (definition.params.map (Param.occurrence [n]) ++
      Stmt.occurrencesAll [n] 0 definition.body.stmts)

/-- How many blocks open directly in the global scope. -/
def Item.blocks : Item → Nat
  | .global _ => 0
  | .function _ => 1

/-- The names of a top declaration. -/
def Item.occurrences (n : Nat) : Item → List Occurrence
  | .global decl => [decl.occurrence []]
  | .function definition => definition.occurrences n

/-- The names of several top declarations. -/
def Item.occurrencesAll (n : Nat) : List Item → List Occurrence
  | [] => []
  | item :: rest => item.occurrences n ++ Item.occurrencesAll (n + item.blocks) rest

/-- The names of a tree, in the order of reading. -/
def Tree.occurrences (tree : Tree) : List Occurrence :=
  Item.occurrencesAll 0 tree.items

/-- The declaration of a function of the run-time library. -/
def runtimeDeclaration : (String × Ty) × Nat → Occurrence
  | ((name, ty), id) =>
    { scope := [], ident := { name, symbol := some (.declared id name ty) }, declared := some ty }

/-- The declarations that every program starts with, with ids from `nextId` on. -/
def runtimeDeclarations (nextId : Nat) : List Occurrence :=
  (builtins.zipIdx nextId).map runtimeDeclaration

/-! ## What a name means -/

/-- Whether an occurrence declares the name in the scope. -/
def Occurrence.declares (occurrence : Occurrence) (scope : List Nat) (name : String) : Bool :=
  occurrence.declared.isSome && occurrence.scope = scope && occurrence.ident.name = name

/-- The declaration by which a scope holds a name: the first one. -/
def firstDeclaration (seen : List Occurrence) (name : String) (scope : List Nat) :
    Option Occurrence :=
  seen.find? fun occurrence => occurrence.declares scope name

/-- The declaration that a use of a name in a scope means: that of the innermost scope around the
use which holds the name. -/
def designated (seen : List Occurrence) (scope : List Nat) (name : String) : Option Occurrence :=
  scope.tails.findSome? (firstDeclaration seen name)

namespace Occurrence

/-- The symbol that an occurrence was given. -/
def symbol (occurrence : Occurrence) : Option Symbol :=
  occurrence.ident.symbol

/-- The name that occurs. -/
def name (occurrence : Occurrence) : String :=
  occurrence.ident.name

/-- The occurrence without its symbol. -/
def bare (occurrence : Occurrence) : Occurrence :=
  { occurrence with ident := { occurrence.ident with symbol := none } }

/-- An occurrence has the symbol it should have when `seen` are the occurrences before it. -/
structure BoundAfter (seen : List Occurrence) (occurrence : Occurrence) : Prop where
  /-- a use has the symbol of the declaration it means -/
  found : occurrence.declared = none →
    ∀ decl, designated seen occurrence.scope occurrence.name = some decl →
      occurrence.symbol = decl.symbol
  /-- a use that means no declaration has a faulty symbol -/
  unresolved : occurrence.declared = none →
    designated seen occurrence.scope occurrence.name = none →
      ∃ id, occurrence.symbol = some (.faulty id occurrence.name .unresolved)
  /-- a declaration of a name that its scope does not hold has a symbol of its own -/
  declared : ∀ ty, occurrence.declared = some ty →
    firstDeclaration seen occurrence.name occurrence.scope = none →
      ∃ id, occurrence.symbol = some (.declared id occurrence.name ty)
  /-- a declaration of a name that its scope holds has a faulty symbol -/
  duplicate : ∀ ty, occurrence.declared = some ty →
    (firstDeclaration seen occurrence.name occurrence.scope).isSome = true →
      ∃ id, occurrence.symbol = some (.faulty id occurrence.name .duplicate)

/-- The problem that an occurrence is reported for. -/
def problem? (occurrence : Occurrence) : Option Diagnostic :=
  match occurrence.symbol.bind (·.fault) with
  | some .duplicate => some (.duplicate occurrence.ident.pos occurrence.name)
  | some .unresolved => some (.unresolved occurrence.ident.pos occurrence.name)
  | none => none

/-- The id of a declaration. -/
def declaredId? (occurrence : Occurrence) : Option SymbolId :=
  if occurrence.declared.isSome then occurrence.symbol.map (·.id) else none

end Occurrence

end WordLang
