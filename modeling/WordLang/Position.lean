/-!
# Positions

Where a node of a tree was written: a line and a column, each a 64-bit word. A node that was never
placed is at `[0,0]`.
-/

namespace WordLang

/-- A place in the text that a tree was read from. -/
structure Position where
  line : UInt64 := 0
  column : UInt64 := 0
deriving DecidableEq, Inhabited

/-- The text of a position, `[line,column]`. -/
def Position.text (pos : Position) : String :=
  "[" ++ toString pos.line.toNat ++ "," ++ toString pos.column.toNat ++ "]"

end WordLang
