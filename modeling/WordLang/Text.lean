/-!
# Text: lists inside a line

Types, calls and routine headers all write a list of items with a comma and a blank between two
neighbours and nothing at either end. The rule is stated once, by recursion on the list, so that
a law about the written form is an induction on the items.
-/

namespace WordLang.Text

/-- The items with `", "` between neighbours. -/
def commaSeparated : List String → String
  | [] => ""
  | [item] => item
  | item :: next :: rest => item ++ ", " ++ commaSeparated (next :: rest)

/-- The items, comma separated, between round brackets. -/
def bracketed (items : List String) : String :=
  "(" ++ commaSeparated items ++ ")"

@[simp]
theorem commaSeparated_nil : commaSeparated [] = "" := rfl

@[simp]
theorem commaSeparated_singleton (item : String) : commaSeparated [item] = item := rfl

theorem commaSeparated_cons_cons (item next : String) (rest : List String) :
    commaSeparated (item :: next :: rest) = item ++ ", " ++ commaSeparated (next :: rest) := rfl

end WordLang.Text
