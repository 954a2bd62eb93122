/-!
# JSON values

The values that a tree is written as. An object keeps its members in the order they were written,
repeated names included. Numbers are integers of any size; whatever else a text may hold, such as a
fraction or a string whose escapes do not spell text, is kept as `other`: it may stand where the
reader of a tree looks at nothing, and nowhere else.
-/

namespace WordLang

/-- A JSON value. -/
inductive Json where
  | null
  | bool (value : Bool)
  | int (value : Int)
  | str (value : String)
  | arr (items : List Json)
  | obj (members : List (String × Json))
  | other
deriving Inhabited

namespace Json

mutual

/-- How many objects and arrays are nested in each other, at most. -/
def depth : Json → Nat
  | .arr items => itemsDepth items + 1
  | .obj members => membersDepth members + 1
  | _ => 0

/-- The greatest depth of a list of items. -/
def itemsDepth : List Json → Nat
  | [] => 0
  | item :: rest => max (depth item) (itemsDepth rest)

/-- The greatest depth of a list of members. -/
def membersDepth : List (String × Json) → Nat
  | [] => 0
  | (_, value) :: rest => max (depth value) (membersDepth rest)

end

theorem depth_le_itemsDepth {item : Json} {items : List Json} (h : item ∈ items) :
    item.depth ≤ itemsDepth items := by
  induction items with
  | nil => cases h
  | cons first rest ih =>
    rw [itemsDepth]
    cases h with
    | head => omega
    | tail _ h => have := ih h; omega

/-! ## Records and variants

A record is an object with its fields as members, or an array with its fields in order. A variant
is a one-member object that maps its tag to its content, or the bare tag when it has none. The
content may be a value of its own, or a record that belongs to the variant. Such a record may be an
array in a text only: in a value that is already in memory it has to be an object. -/

/-- Where a value comes from: it was just read from a text, or it was already in memory. -/
inductive Origin where
  | text
  | memory
deriving DecidableEq

/-- The values of the named fields of a record, in the order of `names`. An object may leave fields
out and may have members of other names, but no field twice; an array has every field and nothing
else. -/
def fields? (names : List String) : Json → Option (List (Option Json))
  | .obj members =>
    if names.all fun name => (members.filter (·.1 == name)).length ≤ 1 then
      some (names.map fun name => members.lookup name)
    else none
  | .arr items => if items.length = names.length then some (items.map some) else none
  | _ => none

/-- The values of the named fields of a record that belongs to a variant. -/
def contents? (origin : Origin) (names : List String) : Json → Option (List (Option Json))
  | .arr items =>
    match origin with
    | .text => fields? names (.arr items)
    | .memory => none
  | json => fields? names json

/-- A record, written as an object. -/
def record (members : List (String × Json)) : Json :=
  .obj members

/-- A variant with content. -/
def tagged (tag : String) (content : Json) : Json :=
  .obj [(tag, content)]

/-- The content of a variant that is an object has the same fields wherever it comes from. -/
@[simp]
theorem contents?_obj (origin : Origin) (names : List String) (members : List (String × Json)) :
    contents? origin names (.obj members) = fields? names (.obj members) := rfl

end Json

end WordLang
