import WordLang.Program.Traversal

/-!
# Listing programs

The readable form of a program: constants, globals, then each routine with the instructions that
can be reached, and where they lead.
-/

namespace WordLang

/-- Where an instruction leads, as its line shows it. -/
def Inst.successorText (inst : Inst) : String :=
  match inst.next, inst.onTrue with
  | some onFalse, some onTrue => " ? " ++ InstId.text onTrue ++ " : " ++ InstId.text onFalse
  | some next, none => " -> " ++ InstId.text next
  | none, _ => ""

/-- The line of an instruction. -/
def Inst.line (inst : Inst) (id : InstId) : String :=
  "  " ++ InstId.text id ++ ": " ++ inst.kind.text ++ inst.successorText

/-- The lines of a routine. -/
def Routine.lines (routine : Routine) : List String :=
  ("function " ++ routine.name ++ Text.bracketed (routine.args.map Temp.text) ++ ": " ++
      routine.ret.text) ::
    routine.reachable.filterMap fun id => routine.insts[id]?.map (·.line id)

/-- The lines of the constants, numbered from `first` on. -/
def constantLines (first : Nat) : List Constant → List String
  | [] => []
  | constant :: rest =>
    ("const c" ++ toString first ++ " = " ++ constant.text) :: constantLines (first + 1) rest

/-- The line of a global. -/
def GlobalDecl.line (global : GlobalDecl) : String :=
  "global " ++ global.symbol.name ++ "[" ++ toString global.elements.toNat ++ "]"

/-- The lines of a program. -/
def Program.lines (program : Program) : List String :=
  constantLines 0 program.constants ++ program.globals.map GlobalDecl.line ++
    program.routines.flatMap Routine.lines

/-- Lines as a text, each with its line end. -/
def Text.ofLines (lines : List String) : String :=
  lines.foldl (fun text line => text ++ line ++ "\n") ""

/-- The text of a routine. -/
def Routine.text (routine : Routine) : String :=
  Text.ofLines routine.lines

/-- The text of a program. -/
def Program.text (program : Program) : String :=
  Text.ofLines program.lines

end WordLang
