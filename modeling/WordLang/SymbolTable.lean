import WordLang.Diagnostic
import WordLang.Symbol

/-!
# Symbol tables

A stack of lexical scopes. The bottom scope is the global one; it starts with the run-time
functions and is never closed, which the shape of the type says: `globals` is a field of its own
and `inner` holds the scopes opened on top of it, the innermost first.

* `add` declares a name in the innermost scope. An outer declaration of the name is shadowed; one
  in the same scope makes the new declaration fail.
* `lookup` finds the innermost declaration of a name.
* Both answer with a symbol in every case. A failure draws a fresh id for its faulty symbol,
  appends one diagnostic and changes no binding.

Resolving a tree takes the list of problems whole, and goes on however long it is. `hasError` and
`exit?` are for clients that drive a table by hand: they ask whether anything went wrong so far, and
close a scope without knowing that one is open.
-/

namespace WordLang

/-- The declarations of one scope, the newest first. -/
abbrev Scope := List (String × Symbol)

/-- A stack of scopes, the id that the next symbol gets, and the problems met so far. -/
structure SymbolTable where
  globals : Scope
  inner : List Scope
  nextId : Nat
  errors : List Diagnostic

namespace SymbolTable

/-- Declares the given names, numbering them from `index` on. -/
def declareAll (index : Nat) : List (String × Ty) → Scope → Scope
  | [], scope => scope
  | (name, ty) :: rest, scope =>
    declareAll (index + 1) rest ((name, .declared index name ty) :: scope)

/-- A table with only the global scope, which holds the run-time functions; their ids are the
first ones from `nextId` on. -/
def new (nextId : Nat) : SymbolTable where
  globals := declareAll nextId builtins []
  inner := []
  nextId := nextId + builtins.length
  errors := []

/-- The open scopes, the innermost first. -/
def scopes (table : SymbolTable) : List Scope :=
  table.inner ++ [table.globals]

/-- The scope that declarations go to. -/
def current (table : SymbolTable) : Scope :=
  table.inner.headD table.globals

/-- The declaration of a name that a use of it means. -/
def find? (table : SymbolTable) (name : String) : Option Symbol :=
  table.scopes.findSome? (List.lookup name)

/-- Opens a scope. -/
def enter (table : SymbolTable) : SymbolTable :=
  { table with inner := [] :: table.inner }

/-- Closes the innermost scope; the global scope stays. Resolving a tree closes only what it has
opened, so it has no use for the question that `exit?` asks first. -/
def leave (table : SymbolTable) : SymbolTable :=
  { table with inner := table.inner.tail }

/-- Closes the innermost scope, if a scope other than the global one is open. -/
def exit? (table : SymbolTable) : Option SymbolTable :=
  if table.inner.isEmpty then none else some table.leave

/-- Puts a declaration in the innermost scope. -/
def bind (table : SymbolTable) (symbol : Symbol) : SymbolTable :=
  match table.inner with
  | [] => { table with globals := (symbol.name, symbol) :: table.globals }
  | scope :: rest => { table with inner := ((symbol.name, symbol) :: scope) :: rest }

/-- Takes the next id. -/
def skipId (table : SymbolTable) : SymbolTable :=
  { table with nextId := table.nextId + 1 }

/-- Records a problem. -/
def report (table : SymbolTable) (problem : Diagnostic) : SymbolTable :=
  { table with errors := table.errors ++ [problem] }

/-- Declares a name in the innermost scope. -/
def add (table : SymbolTable) (pos : Position) (name : String) (ty : Ty) : Symbol × SymbolTable :=
  if (table.current.lookup name).isSome then
    (.faulty table.nextId name .duplicate, (table.skipId).report (.duplicate pos name))
  else
    let symbol := Symbol.declared table.nextId name ty
    (symbol, table.skipId.bind symbol)

/-- Finds the declaration that a use of a name means. -/
def lookup (table : SymbolTable) (pos : Position) (name : String) : Symbol × SymbolTable :=
  match table.find? name with
  | some symbol => (symbol, table)
  | none => (.faulty table.nextId name .unresolved, table.skipId.report (.unresolved pos name))

/-- Whether a problem has been recorded, for clients that stop at the first one. -/
def hasError (table : SymbolTable) : Bool :=
  ! table.errors.isEmpty

/-! ## What the operations do to the scopes -/

@[simp]
theorem scopes_enter (table : SymbolTable) : table.enter.scopes = [] :: table.scopes := rfl

@[simp]
theorem leave_enter (table : SymbolTable) : table.enter.leave = table := rfl

@[simp]
theorem scopes_skipId (table : SymbolTable) : table.skipId.scopes = table.scopes := rfl

@[simp]
theorem scopes_report (table : SymbolTable) (problem : Diagnostic) :
    (table.report problem).scopes = table.scopes := rfl

theorem scopes_eq_cons (table : SymbolTable) :
    table.scopes = table.current :: table.scopes.tail := by
  unfold scopes current
  cases table.inner <;> rfl

/-- A declaration goes to the innermost scope and leaves the others alone. -/
@[simp]
theorem scopes_bind (table : SymbolTable) (symbol : Symbol) :
    (table.bind symbol).scopes = ((symbol.name, symbol) :: table.current) :: table.scopes.tail := by
  unfold bind scopes current
  cases table.inner <;> rfl

/-- A lookup changes no binding. -/
@[simp]
theorem scopes_lookup (table : SymbolTable) (pos : Position) (name : String) :
    (table.lookup pos name).2.scopes = table.scopes := by
  unfold lookup
  cases table.find? name <;> rfl

/-- Opening a scope hides nothing. -/
@[simp]
theorem find?_enter (table : SymbolTable) (name : String) :
    table.enter.find? name = table.find? name := by
  simp [find?, List.findSome?_cons]

end SymbolTable

end WordLang
