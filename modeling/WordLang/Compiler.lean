import WordLang.Asm.Emission
import WordLang.Lowering
import WordLang.Program.Validity
import WordLang.Resolution
import WordLang.Typing

/-!
# The compiler

The passes put together. Checking a tree resolves and types it; a tree without problems is lowered
and the program it gives is validated; compiling also writes the assembly. Every pass hands on the
tree with its slots filled, whether or not it found a problem.
-/

namespace WordLang

/-- A tree that was checked: the tree with its slots filled, its problems, and the symbol id to go
on with. -/
structure Checked where
  tree : Tree
  diagnostics : List Diagnostic
  nextId : Nat

/-- Resolves and types a tree. Problems of names come before problems of types. -/
def Tree.check (tree : Tree) (nextId : Nat) : Checked :=
  let (resolved, table) := tree.resolve nextId
  { tree := resolved.annotate
    diagnostics := table.errors ++ resolved.diagnose
    nextId := table.nextId }

/-- Why a tree has no program. -/
inductive CompileError where
  /-- the tree has problems; nothing was lowered -/
  | diagnostics (found : List Diagnostic)
  /-- a fault of the compiler itself -/
  | lowering (error : LowerError)
  /-- a fault of the compiler itself -/
  | invalid (violation : Violation)

/-- The wording of a compile error. -/
def CompileError.message : CompileError → String
  | .diagnostics found => "compilation failed with " ++ toString found.length ++ " error(s)"
  | .lowering error => "internal compiler error: " ++ error.message
  | .invalid violation => "internal compiler error: " ++ violation.message

/-- The valid program of a tree that was checked. -/
def Checked.program (checked : Checked) : Except CompileError Program :=
  if ! checked.diagnostics.isEmpty then .error (.diagnostics checked.diagnostics)
  else
    match checked.tree.lower with
    | .error error => .error (.lowering error)
    | .ok program =>
      match program.violation? with
      | some violation => .error (.invalid violation)
      | none => .ok program

/-- Compiles a tree and writes its assembly to a sink. Symbols and labels are numbered from zero.
Gives the checked tree too. -/
def Tree.compile (tree : Tree) (room : Asm.Room) : Tree × Except CompileError Asm.Emission :=
  let checked := tree.check 0
  (checked.tree, checked.program.map fun program => Asm.emit program 0 room)

end WordLang
