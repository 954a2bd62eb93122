import WordLang.Text

/-!
# Types

A value is an integer word, a boolean word or nothing at all; a name may also stand for an array
or a function. A type that could not be worked out is itself a type, `error`, that carries the
reason: so every question about types has an answer, and one fault is reported once.

Two relations compare types:

* `a = b`, decided by `same`, looks at everything;
* `equivalent a b` is the relation that checking uses: it looks through arrays and functions, and
  an `error` is equivalent to nothing, itself included.
-/

namespace WordLang

/-- The type of an expression or of a declared name. -/
inductive Ty where
  /-- a signed 64-bit word -/
  | int
  /-- a truth value, held in a word as 0 or 1 -/
  | bool
  /-- no value -/
  | void
  /-- a row of `extent` elements -/
  | array (base : Ty) (extent : UInt64)
  /-- a function of the given parameters -/
  | func (params : List Ty) (ret : Ty)
  /-- no type could be given; `message` says why -/
  | error (message : String)
deriving Inhabited

namespace Ty

/-- Whether a type records a fault. -/
def isError : Ty → Bool
  | .error _ => true
  | _ => false

/-- Whether a type is `void`. -/
def isVoid : Ty → Bool
  | .void => true
  | _ => false

/-- Whether a type is an array type. -/
def isArray : Ty → Bool
  | .array _ _ => true
  | _ => false

/-! ## Equality -/

mutual

/-- Whether two types are the same in every part. -/
def same : Ty → Ty → Bool
  | .int, .int => true
  | .bool, .bool => true
  | .void, .void => true
  | .array a m, .array b n => m == n && same a b
  | .func ps a, .func qs b => same a b && sameList ps qs
  | .error m, .error n => m == n
  | _, _ => false

/-- Whether two lists of types are the same, place by place. -/
def sameList : List Ty → List Ty → Bool
  | [], [] => true
  | a :: as, b :: bs => same a b && sameList as bs
  | _, _ => false

end

mutual

theorem eq_of_same : ∀ (a b : Ty), same a b = true → a = b
  | .int, b, h => by cases b <;> simp_all [same]
  | .bool, b, h => by cases b <;> simp_all [same]
  | .void, b, h => by cases b <;> simp_all [same]
  | .error _, b, h => by cases b <;> simp_all [same]
  | .array a m, b, h => by
    cases b with
    | array b n =>
      rw [same, Bool.and_eq_true, beq_iff_eq] at h
      rw [h.1, eq_of_same a b h.2]
    | _ => simp [same] at h
  | .func ps a, b, h => by
    cases b with
    | func qs b =>
      rw [same, Bool.and_eq_true] at h
      rw [eq_of_same a b h.1, eq_of_sameList ps qs h.2]
    | _ => simp [same] at h

theorem eq_of_sameList : ∀ (as bs : List Ty), sameList as bs = true → as = bs
  | [], bs, h => by cases bs <;> simp_all [sameList]
  | a :: as, bs, h => by
    cases bs with
    | nil => simp [sameList] at h
    | cons b bs =>
      rw [sameList, Bool.and_eq_true] at h
      rw [eq_of_same a b h.1, eq_of_sameList as bs h.2]

end

mutual

theorem same_self : ∀ (a : Ty), same a a = true
  | .int => rfl
  | .bool => rfl
  | .void => rfl
  | .error _ => by simp [same]
  | .array a _ => by simp [same, same_self a]
  | .func ps a => by simp [same, same_self a, sameList_self ps]

theorem sameList_self : ∀ (as : List Ty), sameList as as = true
  | [] => rfl
  | a :: as => by simp [sameList, same_self a, sameList_self as]

end

/-- `same` decides equality. -/
theorem same_iff {a b : Ty} : same a b = true ↔ a = b :=
  ⟨eq_of_same a b, fun h => h ▸ same_self a⟩

instance : DecidableEq Ty := fun _ _ => decidable_of_iff _ same_iff

/-! ## Equivalence -/

mutual

/-- Whether two types may stand for each other: equal in every part, and without a fault. -/
def equivalent : Ty → Ty → Bool
  | .int, .int => true
  | .bool, .bool => true
  | .void, .void => true
  | .array a m, .array b n => m == n && equivalent a b
  | .func ps a, .func qs b => equivalent a b && equivalentList ps qs
  | _, _ => false

/-- Whether two lists have one length and are equivalent place by place. -/
def equivalentList : List Ty → List Ty → Bool
  | [], [] => true
  | a :: as, b :: bs => equivalent a b && equivalentList as bs
  | _, _ => false

end

/-- A fault is equivalent to nothing. -/
@[simp]
theorem equivalent_error_left (message : String) (b : Ty) :
    equivalent (.error message) b = false := by
  cases b <;> rfl

/-- Nothing is equivalent to a fault. -/
@[simp]
theorem equivalent_error_right (a : Ty) (message : String) :
    equivalent a (.error message) = false := by
  cases a <;> rfl

/-! ## The written form -/

mutual

/-- The text of a type: `array[3,int]`, `func(int, bool):void`, `error(reason)`. -/
def text : Ty → String
  | .int => "int"
  | .bool => "bool"
  | .void => "void"
  | .array base extent => "array[" ++ toString extent.toNat ++ "," ++ text base ++ "]"
  | .func params ret => "func" ++ Text.bracketed (texts params) ++ ":" ++ text ret
  | .error message => "error(" ++ message ++ ")"

/-- The texts of several types. -/
def texts : List Ty → List String
  | [] => []
  | a :: as => text a :: texts as

end

/-- The text of a list of types, between brackets. -/
def listText (as : List Ty) : String :=
  Text.bracketed (texts as)

@[simp]
theorem texts_eq_map (as : List Ty) : texts as = as.map text := by
  induction as with
  | nil => rfl
  | cons a as ih => simp [texts, ih]

end Ty

end WordLang
