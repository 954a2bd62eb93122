import WordLang.Ty.Algebra

/-!
# Equivalence of types

Checking compares types by `equivalent`. That is equality, except that a type with an `error`
somewhere in it is equivalent to nothing. So on types without an `error` the two relations are the
same, and a call fits exactly when the types of its arguments are those of the parameters
(`equivalent_exact`).

A fault is equivalent to nothing, not even to itself. This keeps a declared type with a fault inside
of it from fitting anywhere, and it is why a call can fail although its arguments have the very
types of the parameters.

What a call that does not fit gives is a new fault, whose message shows the callee. It could not be
mistaken for the return type of the callee: if that is a fault too, the message would have to
contain the whole text of the callee, and so itself.
-/

namespace WordLang.Ty

mutual

/-- Whether a type has no `error` in it, at any depth. -/
def errorFree : Ty → Bool
  | .int => true
  | .bool => true
  | .void => true
  | .array base _ => errorFree base
  | .func params ret => errorFreeAll params && errorFree ret
  | .error _ => false

/-- Whether no type of a list has an `error` in it. -/
def errorFreeAll : List Ty → Bool
  | [] => true
  | ty :: rest => errorFree ty && errorFreeAll rest

end

/-- Only `void` is void. -/
theorem isVoid_iff {ty : Ty} : ty.isVoid = true ↔ ty = .void := by
  cases ty <;> simp [isVoid]

/-- Everything else is not. -/
theorem isVoid_eq_false_iff {ty : Ty} : ty.isVoid = false ↔ ty ≠ .void := by
  rw [Bool.eq_false_iff, Ne, isVoid_iff]

/-- A type without an `error` in it is no fault. -/
theorem isError_of_errorFree {ty : Ty} (h : ty.errorFree = true) : ty.isError = false := by
  cases ty with
  | error message => cases h
  | _ => rfl

/-- A list of types without an `error`, type by type. -/
theorem errorFreeAll_iff {types : List Ty} :
    errorFreeAll types = true ↔ ∀ ty ∈ types, ty.errorFree = true := by
  induction types with
  | nil => exact ⟨fun _ _ hty => absurd hty List.not_mem_nil, fun _ => rfl⟩
  | cons ty rest ih => rw [errorFreeAll, Bool.and_eq_true, ih, List.forall_mem_cons]

mutual

/-- Equivalent types are equal types without an `error`. -/
theorem equivalent_iff : ∀ {a b : Ty}, equivalent a b = true ↔ a = b ∧ a.errorFree = true
  | .int, b => by cases b <;> simp [equivalent, errorFree]
  | .bool, b => by cases b <;> simp [equivalent, errorFree]
  | .void, b => by cases b <;> simp [equivalent, errorFree]
  | .error _, b => by simp [errorFree]
  | .array a m, b => by
    cases b with
    | array b n =>
      rw [equivalent, errorFree, Bool.and_eq_true, beq_iff_eq, equivalent_iff, Ty.array.injEq]
      exact ⟨fun ⟨hextent, hbase, hfree⟩ => ⟨⟨hbase, hextent⟩, hfree⟩,
        fun ⟨⟨hbase, hextent⟩, hfree⟩ => ⟨hextent, hbase, hfree⟩⟩
    | _ => simp [equivalent]
  | .func ps a, b => by
    cases b with
    | func qs b =>
      rw [equivalent, errorFree, Bool.and_eq_true, Bool.and_eq_true, equivalent_iff,
        equivalentList_iff, Ty.func.injEq]
      exact ⟨
        fun ⟨⟨hret, hretFree⟩, hparams, hparamsFree⟩ => ⟨⟨hparams, hret⟩, hparamsFree, hretFree⟩,
        fun ⟨⟨hparams, hret⟩, hparamsFree, hretFree⟩ => ⟨⟨hret, hretFree⟩, hparams, hparamsFree⟩⟩
    | _ => simp [equivalent]

/-- Lists of types are compared type by type. -/
theorem equivalentList_iff : ∀ {as bs : List Ty},
    equivalentList as bs = true ↔ as = bs ∧ errorFreeAll as = true
  | [], bs => by cases bs <;> simp [equivalentList, errorFreeAll]
  | a :: as, [] => by simp [equivalentList]
  | a :: as, b :: bs => by
    rw [equivalentList, errorFreeAll, Bool.and_eq_true, Bool.and_eq_true, equivalent_iff,
      equivalentList_iff, List.cons.injEq]
    exact ⟨fun ⟨⟨hfirst, hfree⟩, hrest, hrestFree⟩ => ⟨⟨hfirst, hrest⟩, hfree, hrestFree⟩,
      fun ⟨⟨hfirst, hrest⟩, hfree, hrestFree⟩ => ⟨⟨hfirst, hfree⟩, hrest, hrestFree⟩⟩

end

/-! ## Operations that fit

What indexing and assigning come to when the types are right. -/

/-- An array that is indexed with an integer gives an element. -/
theorem index_array {element : Ty} {extent : UInt64} :
    (Ty.array element extent).index .int = element := rfl

/-- A scalar takes a value of its type. -/
theorem assign_self {ty : Ty} (h : ty.isScalar = true) : ty.assign ty = ty := by
  cases ty with
  | int => rfl
  | bool => rfl
  | _ => cases h

/-- A location that an assignment fits is a scalar, and its type is that of the value. -/
theorem of_assign_scalar {location value : Ty} (h : (location.assign value).isError = false)
    (hlocation : location.isError = false) (hvalue : value.isError = false) :
    location.isScalar = true ∧ value = location := by
  rw [assign, propagate_eq_of_clean (by simp [hlocation, hvalue])] at h
  split at h
  · next hfits =>
    obtain ⟨hscalar, hequivalent⟩ := Bool.and_eq_true_iff.mp hfits
    exact ⟨hscalar, (equivalent_iff.mp hequivalent).1.symm⟩
  · cases h

/-! ## Calls that fit, and calls that do not

If no operand is a fault, a call gives the return type or a new fault, and never both. -/

section

variable {params args : List Ty} {callee ret : Ty}

/-- Neither the callee nor an argument is a fault. -/
theorem all_not_isError (hcallee : callee.isError = false)
    (hargs : ∀ arg ∈ args, arg.isError = false) : (callee :: args).all (! ·.isError) = true := by
  rw [List.all_eq_true, List.forall_mem_cons, hcallee]
  refine ⟨rfl, fun arg harg => ?_⟩
  rw [hargs arg harg]
  rfl

/-- A function takes arguments exactly if they have the types of its parameters and there is no
`error` in these. -/
theorem call_func_of_clean (hargs : ∀ arg ∈ args, arg.isError = false) :
    (Ty.func params ret).call args =
      if params = args ∧ errorFreeAll params = true then ret
      else .error ("cannot call " ++ (Ty.func params ret).text ++ " using " ++ listText args) := by
  rw [call, propagate_eq_of_clean (all_not_isError rfl hargs)]
  simp only [equivalentList_iff]

/-- A function takes arguments of the types of its parameters. -/
theorem call_func (h : errorFreeAll params = true) : (Ty.func params ret).call params = ret := by
  have hclean : ∀ param ∈ params, param.isError = false :=
    fun param hparam => isError_of_errorFree (errorFreeAll_iff.mp h param hparam)
  rw [call_func_of_clean hclean, if_pos ⟨rfl, h⟩]

/-- Nothing but a function can be called. -/
theorem call_of_not_func (hcallee : callee.isError = false)
    (hargs : ∀ arg ∈ args, arg.isError = false) (hfunc : ∀ params ret, callee ≠ .func params ret) :
    callee.call args = .error ("cannot call " ++ callee.text ++ " using " ++ listText args) := by
  rw [call]
  · exact propagate_eq_of_clean (all_not_isError hcallee hargs)
  · exact hfunc

/-- The return type may be an `error`, but not the one that a call which does not fit gives: that
one has the text of the callee in its message, which has the text of the return type in it. -/
theorem ret_ne_complaint :
    ret ≠ .error ("cannot call " ++ (Ty.func params ret).text ++ " using " ++ listText args) := by
  intro hret
  have hlength := congrArg (fun ty => (text ty).length) hret
  have hword : 0 < "cannot call ".length := by decide
  simp only [text, String.length_append] at hlength
  omega

/-- The return type is what a call gives exactly if the call fits. -/
theorem call_func_eq_ret_iff (hargs : ∀ arg ∈ args, arg.isError = false) :
    (Ty.func params ret).call args = ret ↔ params = args ∧ errorFreeAll params = true := by
  rw [call_func_of_clean hargs]
  split
  · next hfits => exact ⟨fun _ => hfits, fun _ => rfl⟩
  · next hfits => exact ⟨fun hcomplaint => absurd hcomplaint.symm ret_ne_complaint,
      (absurd · hfits)⟩

end

/-! ## The laws -/

/-- Two types are equivalent exactly if they are equal and have no `error` in them. So equivalence
is symmetric and transitive, and the types without an `error` are those that are equivalent to
themselves. Where neither the callee nor an argument is an `error`, a call gives the return type
exactly if the callee is a function whose parameters have the types of the arguments, with no
`error` in any of them, and otherwise a new `error` that names both sides. -/
theorem equivalent_exact :
    (∀ a b : Ty, equivalent a b = true ↔ a = b ∧ a.errorFree = true) ∧
    (∀ a b : Ty, equivalent a b = equivalent b a) ∧
    (∀ a b c : Ty, equivalent a b = true → equivalent b c = true → equivalent a c = true) ∧
    (∀ a : Ty, equivalent a a = true ↔ a.errorFree = true) ∧
    ∀ (callee : Ty) (args : List Ty), callee.isError = false →
      (∀ arg ∈ args, arg.isError = false) →
      ((∃ params ret, callee = .func params ret ∧ callee.call args = ret) ↔
        (∃ ret, callee = .func args ret) ∧ errorFreeAll args = true) ∧
      (¬ ((∃ ret, callee = .func args ret) ∧ errorFreeAll args = true) →
        callee.call args = .error ("cannot call " ++ callee.text ++ " using " ++
          listText args)) := by
  have hsymm : ∀ a b : Ty, equivalent a b = true → equivalent b a = true := by
    intro a b h
    -- everything else follows from the first statement
    obtain ⟨rfl, hfree⟩ := equivalent_iff.mp h
    exact h
  refine ⟨fun a b => equivalent_iff, fun a b => ?_, fun a b c hab hbc => ?_, fun a => ?_,
    fun callee args hcallee hargs => ⟨⟨?_, ?_⟩, fun hmisfit => ?_⟩⟩
  · exact Bool.eq_iff_iff.mpr ⟨hsymm a b, hsymm b a⟩
  · obtain ⟨rfl, -⟩ := equivalent_iff.mp hab
    exact hbc
  · exact equivalent_iff.trans (and_iff_right rfl)
  · rintro ⟨params, ret, rfl, hret⟩
    obtain ⟨rfl, hfree⟩ := (call_func_eq_ret_iff hargs).mp hret
    exact ⟨⟨ret, rfl⟩, hfree⟩
  · rintro ⟨⟨ret, rfl⟩, hfree⟩
    exact ⟨args, ret, rfl, (call_func_eq_ret_iff hargs).mpr ⟨rfl, hfree⟩⟩
  · by_cases hfunc : ∃ params ret, callee = .func params ret
    · obtain ⟨params, ret, rfl⟩ := hfunc
      rw [call_func_of_clean hargs, if_neg]
      rintro ⟨rfl, hfree⟩
      exact hmisfit ⟨⟨ret, rfl⟩, hfree⟩
    · exact call_of_not_func hcallee hargs fun params ret h => hfunc ⟨params, ret, h⟩

/-- A function that takes a row of functions, and one that takes the like with an `error` deep
inside. -/
theorem equivalent_exact_nested :
    let rows (inner : Ty) : Ty := .array (.func [.int, inner] .bool) 3
    let broken := rows (.error "late")
    let callee (row : Ty) : Ty := .func [row, .bool] (.error "unknown")
    equivalent (callee (rows .void)) (callee (rows .void)) = false ∧
      equivalent (rows .void) (rows .void) = true ∧
      (callee (rows .void)).call [rows .void, .bool] = .error "unknown" ∧
      (callee broken).call [broken, .bool] =
        .error ("cannot call " ++ (callee broken).text ++ " using " ++
          listText [broken, .bool]) := by
  intro rows broken callee
  obtain ⟨-, -, htrans, hself, hcall⟩ := equivalent_exact
  have hrows : equivalent (rows .void) (rows .void) = true := (hself _).mpr rfl
  have hfits := (hcall (callee (rows .void)) [rows .void, .bool] rfl (by decide)).1.mpr
    ⟨⟨_, rfl⟩, rfl⟩
  obtain ⟨params, ret, hfunc, hret⟩ := hfits
  refine ⟨?_, htrans _ _ _ hrows hrows, ?_, ?_⟩
  · exact Bool.eq_false_iff.mpr fun h => Bool.false_ne_true ((hself _).mp h)
  · rw [hret]
    exact (Ty.func.inj hfunc).2.symm
  · refine (hcall (callee broken) [broken, .bool] rfl (by decide)).2 fun h => ?_
    exact Bool.false_ne_true h.2

end WordLang.Ty
