/-!
# Operations

The operators that may stand in an expression, cut by what they do to words:

* `Arith` works on two integers and gives an integer;
* `Comparison` works on two integers and gives a boolean;
* `Connective` works on two booleans and decides from the left one whether the right one runs;
* negation works on one boolean.

Each has one spelling, used in trees and in messages.
-/

namespace WordLang

/-- Arithmetic on machine words. -/
inductive Arith where
  | add
  | sub
  | mul
  | div
deriving DecidableEq

/-- Comparison of signed machine words. -/
inductive Comparison where
  | ge
  | gt
  | le
  | lt
  | eq
  | ne
deriving DecidableEq

/-- The connectives that skip their right operand when the left one decides. -/
inductive Connective where
  | and
  | or
deriving DecidableEq

/-- An operator of an expression. -/
inductive Operation where
  | arith (op : Arith)
  | compare (op : Comparison)
  | connect (op : Connective)
  | negate
deriving DecidableEq

/-- The spelling of an arithmetic operator. -/
def Arith.name : Arith → String
  | .add => "Add"
  | .sub => "Sub"
  | .mul => "Mul"
  | .div => "Div"

/-- The spelling of a comparison. -/
def Comparison.name : Comparison → String
  | .ge => "Ge"
  | .gt => "Gt"
  | .le => "Le"
  | .lt => "Lt"
  | .eq => "Eq"
  | .ne => "Ne"

/-- The spelling of a connective. -/
def Connective.name : Connective → String
  | .and => "LogicAnd"
  | .or => "LogicOr"

namespace Operation

/-- The spelling of an operator. -/
def name : Operation → String
  | .arith op => op.name
  | .compare op => op.name
  | .connect op => op.name
  | .negate => "LogicNot"

/-- Every operator, comparisons first. -/
def all : List Operation :=
  [.compare .ge, .compare .gt, .compare .le, .compare .lt, .compare .eq, .compare .ne,
    .arith .add, .arith .sub, .arith .mul, .arith .div, .connect .and, .connect .or, .negate]

/-- The operator with the given spelling. -/
def ofName? (text : String) : Option Operation :=
  all.find? fun op => op.name == text

/-- Spelling an operator and reading it back gives the operator. -/
@[simp]
theorem ofName?_name (op : Operation) : ofName? op.name = some op := by
  cases op with
  | negate => decide
  | arith op => cases op <;> decide
  | compare op => cases op <;> decide
  | connect op => cases op <;> decide

end Operation

end WordLang
