import WordLang.Json
import WordLang.Ty

/-!
# The written form of types

A type is a variant: `"Int"`, `"Bool"` and `"Void"` have no content; an array, a function and a
fault have a record. Reading takes a *budget*: how many objects and arrays may still be nested. A
text that comes from outside is read with a fixed budget, so that no text is too deep to handle; a
value that is already in memory is read with its own depth, which always suffices.
-/

namespace WordLang

/-- A 64-bit word without sign. -/
def Json.word? : Json → Option UInt64
  | .int value => if 0 ≤ value ∧ value < UInt64.size then some (.ofNat value.toNat) else none
  | _ => none

/-- A signed 64-bit word. -/
def Json.signedWord? : Json → Option Int64
  | .int value =>
    if Int64.minValue.toInt ≤ value ∧ value ≤ Int64.maxValue.toInt then some (.ofInt value)
    else none
  | _ => none

/-- A truth value. -/
def Json.bool? : Json → Option Bool
  | .bool value => some value
  | _ => none

/-- A text. -/
def Json.str? : Json → Option String
  | .str value => some value
  | _ => none

namespace Ty

mutual

/-- The written form of a type. -/
def toJson : Ty → Json
  | .int => .str "Int"
  | .bool => .str "Bool"
  | .void => .str "Void"
  | .array base extent =>
    .tagged "Array" (.record [("base", toJson base), ("extent", .int extent.toNat)])
  | .func params ret =>
    .tagged "Func" (.record [("params", .arr (listToJson params)), ("ret", toJson ret)])
  | .error message => .tagged "Error" (.record [("message", .str message)])

/-- The written forms of several types. -/
def listToJson : List Ty → List Json
  | [] => []
  | ty :: rest => toJson ty :: listToJson rest

end

/-- The type with the given tag, if it is one without content. -/
def bare? : String → Option Ty
  | "Int" => some .int
  | "Bool" => some .bool
  | "Void" => some .void
  | _ => none

/-- Reads a type, within a budget of nested objects and arrays. -/
def ofJson? (origin : Json.Origin) : Nat → Json → Option Ty
  | _, .str tag => bare? tag
  | budget + 1, .obj [("Array", content)] =>
    match budget, content.contents? origin ["base", "extent"] with
    | budget + 1, some [some base, some extent] => do
      some (.array (← ofJson? origin budget base) (← extent.word?))
    | _, _ => none
  | budget + 1, .obj [("Func", content)] =>
    match budget, content.contents? origin ["params", "ret"] with
    | budget + 1, some [some (.arr params), some ret] =>
      match budget with
      | inner + 1 => do
        some (.func (← params.mapM fun param => ofJson? origin inner param)
          (← ofJson? origin (inner + 1) ret))
      | 0 => none
    | _, _ => none
  | budget + 1, .obj [("Error", content)] =>
    match budget, content.contents? origin ["message"] with
    | _ + 1, some [some message] => message.str?.map .error
    | _, _ => none
  | _ + 1, .obj [(tag, .null)] => bare? tag
  | _, _ => none

end Ty

end WordLang
