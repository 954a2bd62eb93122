import WordLang.Asm.Basic
import WordLang.Program.Inst

/-!
# Fragments

Assembly that was made, and why making it ended early, if it did. Fragments are put one after the
other with `++`; what comes after one that ended early is never made.
-/

namespace WordLang.Asm

/-- What may keep assembly from being made. -/
inductive EmitError where
  /-- the place it goes to does not take it -/
  | write (reason : String)
  | unknownConstant (routine : String) (id : ConstId)
  | incompleteJump (routine : String) (inst : InstId)
  | missingLabel (routine : String) (inst : InstId)
deriving DecidableEq

/-- The wording of an error. -/
def EmitError.message : EmitError → String
  | .write reason => "failed to write assembly: " ++ reason
  | .unknownConstant routine id => "unknown constant c" ++ toString id ++ " in " ++ routine
  | .incompleteJump routine inst =>
    "jump " ++ InstId.text inst ++ " in " ++ routine ++ " lacks a successor"
  | .missingLabel routine inst => "no label for " ++ InstId.text inst ++ " in " ++ routine

/-- Why making assembly ended early: an error, or a program that no valid program is. -/
inductive Halt where
  | error (error : EmitError)
  /-- the size of a global does not fit in a machine word -/
  | oversized (name : String)
  /-- the schedule of a routine holds a handle from outside its arena -/
  | stray (routine : String) (inst : InstId)
deriving DecidableEq

/-- Lines of assembly, and why there are no more, if there should be. -/
structure Fragment where
  lines : List Line := []
  halt : Option Halt := none

namespace Fragment

/-- One line. -/
def line (line : Line) : Fragment :=
  { lines := [line] }

/-- Some instructions. -/
def instrs (instrs : List Instr) : Fragment :=
  { lines := instrs.map .instr }

/-- No lines, and nothing after them. -/
def stop (halt : Halt) : Fragment :=
  { halt := some halt }

/-- An error, and nothing after it. -/
def fail (error : EmitError) : Fragment :=
  stop (.error error)

/-- One fragment and then another, unless the first ended early. -/
protected def append (first second : Fragment) : Fragment :=
  match first.halt with
  | some _ => first
  | none => { lines := first.lines ++ second.lines, halt := second.halt }

instance : Append Fragment := ⟨Fragment.append⟩

/-- The fragments of a list, one after the other. -/
def join : List Fragment → Fragment
  | [] => {}
  | first :: rest => first ++ join rest

theorem append_eq_of_halt {first second : Fragment} {halt : Halt} (h : first.halt = some halt) :
    first ++ second = first := by
  change Fragment.append first second = first
  simp [Fragment.append, h]

theorem lines_append {first : Fragment} (second : Fragment) (h : first.halt = none) :
    (first ++ second).lines = first.lines ++ second.lines := by
  change (Fragment.append first second).lines = _
  simp [Fragment.append, h]

theorem halt_append {first : Fragment} (second : Fragment) (h : first.halt = none) :
    (first ++ second).halt = second.halt := by
  change (Fragment.append first second).halt = _
  simp [Fragment.append, h]

@[simp]
theorem halt_instrs (code : List Instr) : (instrs code).halt = none := rfl

@[simp]
theorem lines_instrs (code : List Instr) : (instrs code).lines = code.map .instr := rfl

end Fragment

end WordLang.Asm
