import WordLang.Json
import WordLang.Json.Token

/-!
# Reading JSON texts

The tokens of a text are read by a stack machine: one frame for each array or object that is still
open, and a note of what may come next. Every token is read once, so reading ends with the tokens,
at any nesting. The format is the strict one: no comma before a closing bracket, and nothing but
blanks around the value.
-/

namespace WordLang.Json

/-- An array or an object that is still open; its items are kept with the newest first. An object
also holds the key that was read last; a key that spells no text is `none`. -/
inductive Frame where
  | array (items : List Json)
  | object (members : List (Option String × Json)) (key : Option String)

/-- What may come next. -/
inductive Expect where
  /-- a value -/
  | value
  /-- a value, or the end of the array just opened -/
  | firstItem
  /-- a key -/
  | key
  /-- a key, or the end of the object just opened -/
  | firstKey
  /-- the colon after a key -/
  | colon
  /-- a comma or a closing bracket; at the top, nothing -/
  | next
deriving DecidableEq

/-- The state of the machine. -/
structure Reader where
  frames : List Frame := []
  expect : Expect := .value
  result : Json := .null

namespace Reader

/-- The object with the given members. If some key spells no text the object can be skipped over
but not looked into. -/
def closeMembers (members : List (Option String × Json)) : Json :=
  match members.mapM fun (key, value) => key.map (·, value) with
  | some members => .obj members
  | none => .other

/-- Puts a finished value where it belongs: in the innermost open frame, or on top. -/
def accept (reader : Reader) (value : Json) : Reader :=
  match reader.frames with
  | [] => { reader with expect := .next, result := value }
  | .array items :: rest =>
    { reader with frames := .array (value :: items) :: rest, expect := .next }
  | .object members key :: rest =>
    { reader with frames := .object ((key, value) :: members) key :: rest, expect := .next }

/-- A value that is no array and no object. -/
def scalar? (reader : Reader) (value : Json) : Option Reader :=
  match reader.expect with
  | .value => some (reader.accept value)
  | .firstItem => some (reader.accept value)
  | _ => none

/-- A string: a value or a key. -/
def string? (reader : Reader) (text : Option String) : Option Reader :=
  match reader.expect, reader.frames with
  | .key, .object members _ :: rest =>
    some { reader with frames := .object members text :: rest, expect := .colon }
  | .firstKey, .object members _ :: rest =>
    some { reader with frames := .object members text :: rest, expect := .colon }
  | _, _ => reader.scalar? ((text.map Json.str).getD .other)

/-- Opens an array or an object where a value may stand. -/
def open? (reader : Reader) (frame : Frame) (expect : Expect) : Option Reader :=
  match reader.expect with
  | .value => some { reader with frames := frame :: reader.frames, expect }
  | .firstItem => some { reader with frames := frame :: reader.frames, expect }
  | _ => none

/-- Closes the innermost array. -/
def closeArray? (reader : Reader) : Option Reader :=
  match reader.expect, reader.frames with
  | .next, .array items :: rest => some ({ reader with frames := rest }.accept (.arr items.reverse))
  | .firstItem, .array items :: rest =>
    some ({ reader with frames := rest }.accept (.arr items.reverse))
  | _, _ => none

/-- Closes the innermost object. -/
def closeObject? (reader : Reader) : Option Reader :=
  match reader.expect, reader.frames with
  | .next, .object members _ :: rest =>
    some ({ reader with frames := rest }.accept (closeMembers members.reverse))
  | .firstKey, .object members _ :: rest =>
    some ({ reader with frames := rest }.accept (closeMembers members.reverse))
  | _, _ => none

/-- A comma asks for one more item. -/
def comma? (reader : Reader) : Option Reader :=
  match reader.expect, reader.frames with
  | .next, .array _ :: _ => some { reader with expect := .value }
  | .next, .object _ _ :: _ => some { reader with expect := .key }
  | _, _ => none

/-- Reads one token. -/
def step (reader : Reader) : Token → Option Reader
  | .null => reader.scalar? .null
  | .bool value => reader.scalar? (.bool value)
  | .int value => reader.scalar? (.int value)
  | .otherNumber => reader.scalar? .other
  | .str text => reader.string? text
  | .openArray => reader.open? (.array []) .firstItem
  | .openObject => reader.open? (.object [] none) .firstKey
  | .closeArray => reader.closeArray?
  | .closeObject => reader.closeObject?
  | .comma => reader.comma?
  | .colon => if reader.expect = .colon then some { reader with expect := .value } else none

/-- The value read, once the tokens have ended. -/
def finish? (reader : Reader) : Option Json :=
  if reader.frames.isEmpty && reader.expect = .next then some reader.result else none

end Reader

/-- The value that a text holds, if it is a JSON text. -/
def parse? (text : String) : Option Json := do
  let tokens ← tokens? text
  let reader ← tokens.foldlM Reader.step {}
  reader.finish?

end WordLang.Json
