import WordLang.Program.Inst

/-!
# Programs

A program is what a tree is lowered to: the globals to reserve room for, a pool of constants, and
one routine for each function. A routine owns its instructions and its registers:

* instructions live in an arena that only grows, so a handle stays good once it is given out;
* a register is a number below a counter that only grows.

The pool has each constant once, and a constant keeps its place.
-/

namespace WordLang

/-- A literal of a program. -/
inductive Constant where
  | int (value : Int64)
  | bool (value : Bool)
deriving DecidableEq

/-- The machine word for a constant; a truth value is 0 or 1. -/
def Constant.word : Constant → Int64
  | .int value => value
  | .bool value => if value then 1 else 0

/-- The text of a constant. -/
def Constant.text : Constant → String
  | .int value => toString value.toInt
  | .bool value => if value then "true" else "false"

/-- Room for a global: one element, or as many as an array has. -/
structure GlobalDecl where
  symbol : Symbol
  elements : UInt64

/-- The graph of one function. -/
structure Routine where
  name : String
  ty : Ty
  args : List Temp := []
  start : InstId := 0
  insts : Array Inst := #[{ kind := .nop }]
  temps : Nat := 0
  addrs : Nat := 0

namespace Routine

/-- A routine whose body is a single `nop`. -/
def new (name : String) (ty : Ty) : Routine :=
  { name, ty }

/-- The type a routine returns. -/
def ret (routine : Routine) : Ty :=
  match routine.ty with
  | .func _ ret => ret
  | _ => .void

/-- A value register that was not in use. -/
def freshTemp (routine : Routine) : Temp × Routine :=
  (⟨routine.temps⟩, { routine with temps := routine.temps + 1 })

/-- An address register that was not in use. -/
def freshAddr (routine : Routine) : Addr × Routine :=
  (⟨routine.addrs⟩, { routine with addrs := routine.addrs + 1 })

/-- Adds an instruction without successors. -/
def push (routine : Routine) (kind : InstKind) : InstId × Routine :=
  (routine.insts.size, { routine with insts := routine.insts.push { kind } })

/-- Sets a successor. A handle from outside the arena has none to set. -/
def link (routine : Routine) (source : InstId) (edge : Edge) (target : InstId) : Routine :=
  { routine with insts := routine.insts.modify source fun inst => inst.link target edge }

/-- Whether a handle is in the arena. -/
def holds (routine : Routine) (id : InstId) : Bool :=
  id < routine.insts.size

@[simp]
theorem size_push (routine : Routine) (kind : InstKind) :
    (routine.push kind).2.insts.size = routine.insts.size + 1 := by
  simp [push]

@[simp]
theorem size_link (routine : Routine) (source : InstId) (edge : Edge) (target : InstId) :
    (routine.link source edge target).insts.size = routine.insts.size := by
  simp [link]

end Routine

/-- A lowered program. -/
structure Program where
  globals : List GlobalDecl := []
  routines : List Routine := []
  constants : List Constant := []

/-- The handle of a constant, and the pool with the constant in it. -/
def internConstant (pool : List Constant) (constant : Constant) : ConstId × List Constant :=
  if constant ∈ pool then (pool.idxOf constant, pool) else (pool.length, pool ++ [constant])

/-- The handle leads to the constant. -/
theorem getElem?_internConstant (pool : List Constant) (constant : Constant) :
    (internConstant pool constant).2[(internConstant pool constant).1]? = some constant := by
  unfold internConstant
  split
  · next h =>
    have hlt : pool.idxOf constant < pool.length := List.idxOf_lt_length_of_mem h
    rw [List.getElem?_eq_getElem hlt]
    exact congrArg some (List.getElem_idxOf hlt)
  · simp

/-- Constants keep their places. -/
theorem internConstant_extends (pool : List Constant) (constant : Constant) :
    ∃ added, (internConstant pool constant).2 = pool ++ added := by
  unfold internConstant
  split
  · exact ⟨[], by simp⟩
  · exact ⟨[constant], rfl⟩

namespace Program

/-- Puts a constant in the pool. -/
def intern (program : Program) (constant : Constant) : ConstId × Program :=
  let (id, constants) := internConstant program.constants constant
  (id, { program with constants })

/-- The first routine of a name. -/
def find? (program : Program) (name : String) : Option Routine :=
  program.routines.find? fun routine => routine.name == name

end Program

end WordLang
