import WordLang.Json.Reader
import WordLang.Tree.Format

/-!
# Reading trees from texts

A text is a program if it is a JSON text whose value is a tree. Objects and arrays may be nested at
most `nestingLimit` deep, not counting what is passed over.
-/

namespace WordLang

/-- How many objects and arrays of a text may be nested. -/
def Tree.nestingLimit : Nat := 127

/-- The program that a text holds. -/
def Tree.parse? (text : String) : Option Tree := do
  Tree.ofJsonWithin? .text nestingLimit (← Json.parse? text)

end WordLang
