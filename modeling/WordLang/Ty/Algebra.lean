import WordLang.Operation
import WordLang.Ty

/-!
# The algebra of types

What an operator, an assignment, a call or an indexing makes of the types it is given. Every
operation is total. An operand that is already an `error` is handed through unchanged, the first
one winning; otherwise the operation either fits, and its rule gives the type of the result, or it
does not, and the result is a new `error` that names the types at fault.
-/

namespace WordLang.Ty

/-- The first faulty operand if there is one, else `result`. -/
def propagate (operands : List Ty) (result : Ty) : Ty :=
  (operands.find? isError).getD result

/-- What is said of an arithmetic operation that does not fit. -/
def arithComplaint (left right : Ty) : Arith → String
  | .add => "cannot add " ++ left.text ++ " with " ++ right.text
  | .sub => "cannot subtract " ++ right.text ++ " from " ++ left.text
  | .mul => "cannot multiply " ++ left.text ++ " with " ++ right.text
  | .div => "cannot divide " ++ left.text ++ " by " ++ right.text

/-- Two integers make an integer. -/
def arith (op : Arith) (left right : Ty) : Ty :=
  propagate [left, right] <|
    match left, right with
    | .int, .int => .int
    | _, _ => .error (arithComplaint left right op)

/-- Two integers make a boolean. -/
def compare (left right : Ty) : Ty :=
  propagate [left, right] <|
    match left, right with
    | .int, .int => .bool
    | _, _ => .error ("cannot compare " ++ left.text ++ " with " ++ right.text)

/-- The word between the operands of a connective, as messages have it. -/
def connectiveWord : Connective → String
  | .and => " and "
  | .or => " or "

/-- Two booleans make a boolean. -/
def connect (op : Connective) (left right : Ty) : Ty :=
  propagate [left, right] <|
    match left, right with
    | .bool, .bool => .bool
    | _, _ => .error ("cannot compute " ++ left.text ++ connectiveWord op ++ right.text)

/-- A boolean makes a boolean. -/
def negate (operand : Ty) : Ty :=
  propagate [operand] <|
    match operand with
    | .bool => .bool
    | _ => .error ("cannot negate " ++ operand.text)

/-- Whether values of a type fit in a variable: integers and booleans do. -/
def isScalar : Ty → Bool
  | .int => true
  | .bool => true
  | _ => false

/-- A scalar location takes a value of an equivalent type, and the assignment has that type. -/
def assign (location value : Ty) : Ty :=
  propagate [location, value] <|
    if location.isScalar && location.equivalent value then location
    else .error ("cannot assign " ++ value.text ++ " to " ++ location.text)

/-- A function applied to arguments of its parameters' types gives its return type. -/
def call (callee : Ty) (args : List Ty) : Ty :=
  propagate (callee :: args) <|
    match callee with
    | .func params ret =>
      if equivalentList params args then ret
      else .error ("cannot call " ++ callee.text ++ " using " ++ listText args)
    | _ => .error ("cannot call " ++ callee.text ++ " using " ++ listText args)

/-- An array indexed by an integer gives its element type. -/
def index (base position : Ty) : Ty :=
  propagate [base, position] <|
    match base, position with
    | .array element _, .int => element
    | _, _ => .error ("cannot index " ++ base.text ++ " with " ++ position.text)

/-! ## Propagation -/

theorem propagate_eq_of_clean {operands : List Ty} {result : Ty}
    (h : operands.all (! ·.isError) = true) : propagate operands result = result := by
  have : operands.find? isError = none := by
    rw [List.find?_eq_none]
    intro ty hty hErr
    have := List.all_eq_true.mp h ty hty
    simp [hErr] at this
  simp [propagate, this]

/-- A faulty first operand is the result. -/
@[simp]
theorem propagate_error_cons (message : String) (operands : List Ty) (result : Ty) :
    propagate (.error message :: operands) result = .error message := rfl

/-- Whatever was propagated is a fault as soon as one operand is. -/
theorem isError_propagate_of_mem {operands : List Ty} {result ty : Ty}
    (hty : ty ∈ operands) (hErr : ty.isError = true) :
    (propagate operands result).isError = true := by
  cases hFind : operands.find? isError with
  | none => exact absurd hErr (by simpa using List.find?_eq_none.mp hFind ty hty)
  | some first => simpa [propagate, hFind] using List.find?_some hFind

end WordLang.Ty
