import WordLang.Asm.Emit
import WordLang.Asm.Sink

/-!
# Assembly of a program

A program is written in sections: first the room for its globals, then each routine. A section
takes the labels it needs before any of its lines is written; labels are numbered on from section
to section, and on from the number that the program starts with. Writing stops at the first line
that the sink refuses, and at the end of a section that ended early.
-/

namespace WordLang.Asm

/-- The line that reserves room for a global, if its size is a machine word. -/
def globalCode (global : GlobalDecl) : Fragment :=
  let bytes := global.elements.toNat * wordSize
  if bytes < UInt64.size then .line (.common global.symbol.name bytes)
  else .stop (.oversized global.symbol.name)

/-- Lines that belong together, and the number of the label after those they need. -/
structure Section where
  fragment : Fragment
  nextLabel : Nat

/-- The sections of routines, with labels from `nextLabel` on. -/
def routineSections (constants : List Constant) (nextLabel : Nat) : List Routine → List Section
  | [] => []
  | routine :: rest =>
    let after := nextLabel + routine.labelled.length
    { fragment := routineCode constants nextLabel routine, nextLabel := after } ::
      routineSections constants after rest

/-- The sections of a program, with labels from `nextLabel` on. -/
def sections (program : Program) (nextLabel : Nat) : List Section :=
  { fragment := Fragment.join (program.globals.map globalCode), nextLabel } ::
    routineSections program.constants nextLabel program.routines

/-- What was written of a program: whole lines, the part of a line that was cut off, why writing
ended early if it did, and the number to go on with for labels. -/
structure Emission where
  lines : List String := []
  cut : List UInt8 := []
  halt : Option Halt := none
  nextLabel : Nat

/-- Writes sections to a sink. -/
def writeSections (room : Room) (nextLabel : Nat) : List Section → Emission
  | [] => { nextLabel }
  | first :: rest =>
    let delivery := room.deliver (first.fragment.lines.map Line.text)
    match delivery.rest with
    | .error reason =>
      { lines := delivery.lines, cut := delivery.cut, halt := some (.error (.write reason)),
        nextLabel := first.nextLabel }
    | .ok left =>
      match first.fragment.halt with
      | some halt => { lines := delivery.lines, halt := some halt, nextLabel := first.nextLabel }
      | none =>
        let emission := writeSections left first.nextLabel rest
        { emission with lines := delivery.lines ++ emission.lines }

/-- Writes a program to a sink, with labels from `nextLabel` on. -/
def emit (program : Program) (nextLabel : Nat) (room : Room) : Emission :=
  writeSections room nextLabel (sections program nextLabel)

end WordLang.Asm
