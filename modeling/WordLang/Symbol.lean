import WordLang.Ty

/-!
# Symbols

A symbol is one declaration of a name: a function, a global, a parameter or a local. Two
declarations of one name are two symbols with different ids. A name that could not be declared or
found still gets a symbol, which then records its `fault` and has no type.
-/

namespace WordLang

/-- Why a symbol stands for no declaration. -/
inductive Fault where
  /-- the scope already had a declaration of the name -/
  | duplicate
  /-- no open scope had a declaration of the name -/
  | unresolved
deriving DecidableEq

/-- The identity of a declaration. -/
structure SymbolId where
  index : Nat
deriving DecidableEq

/-- The text of an id, such as `sym6`. -/
def SymbolId.text (id : SymbolId) : String :=
  "sym" ++ toString id.index

/-- A declared name. -/
structure Symbol where
  id : SymbolId
  name : String
  ty : Option Ty
  fault : Option Fault := none
deriving DecidableEq

namespace Symbol

/-- Whether the symbol stands for no declaration. -/
def isFaulty (symbol : Symbol) : Bool :=
  symbol.fault.isSome

/-- The text of a symbol: its name, then its fault or its type. -/
def text (symbol : Symbol) : String :=
  match symbol.fault, symbol.ty with
  | some .duplicate, _ => "Symbol(" ++ symbol.name ++ ":DeclareSymbolError)"
  | some .unresolved, _ => "Symbol(" ++ symbol.name ++ ":ResolveSymbolError)"
  | none, some ty => "Symbol(" ++ symbol.name ++ ":" ++ ty.text ++ ")"
  | none, none => "Symbol(" ++ symbol.name ++ ")"

/-- The symbol of a declaration that succeeded. -/
def declared (index : Nat) (name : String) (ty : Ty) : Symbol :=
  { id := ⟨index⟩, name := name, ty := some ty }

/-- The symbol of a declaration or a use that failed. -/
def faulty (index : Nat) (name : String) (fault : Fault) : Symbol :=
  { id := ⟨index⟩, name := name, ty := none, fault := some fault }

@[simp]
theorem isFaulty_declared (index : Nat) (name : String) (ty : Ty) :
    (declared index name ty).isFaulty = false := rfl

@[simp]
theorem isFaulty_faulty (index : Nat) (name : String) (fault : Fault) :
    (faulty index name fault).isFaulty = true := rfl

end Symbol

/-- The functions that the run-time library provides, visible from every scope. -/
def builtins : List (String × Ty) :=
  [("readInt", .func [] .int),
    ("readChar", .func [] .int),
    ("printBool", .func [.bool] .void),
    ("printInt", .func [.int] .void),
    ("printChar", .func [.int] .void),
    ("println", .func [] .void)]

end WordLang
