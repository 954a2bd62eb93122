import WordLang.Proofs.Resolution.Scoping
import WordLang.Typing

/-!
# Trees without problems

What can be concluded when type checking reports nothing. An `error` type that comes from an operand
is not reported again, so that nothing was reported does not say by itself that no type is an
`error`. It does once the names are in scope and their types are not: an expression is then the
first place where a fault could arise, and would be reported.

From there the types of the operands follow, because each operation is an `error` on all other
types.

The types that may be declared are left open here (`ok`), as different statements ask for different
things: that no declared type has an `error` in it, or also that no parameter is `void`. All that is
used is that a type which is `ok` is no fault itself.
-/

namespace WordLang

/-! ## What an operation asks of its operands

Read backwards: if the result is no fault, then the operands are of these types. An operation hands
faults through, so no operand is a fault; and it gives a fault for every other combination. -/

namespace Ty

/-- If faults were handed through and none came out, then none went in. Every operation hands faults
through first, so this is the beginning of each of the lemmas below. -/
theorem propagate_isError {operands : List Ty} {result : Ty}
    (h : (propagate operands result).isError = false) :
    (∀ ty ∈ operands, ty.isError = false) ∧ result.isError = false := by
  have hclean : ∀ ty ∈ operands, ty.isError = false := by
    intro ty hty
    rcases herror : ty.isError with _ | _
    · rfl
    · rw [isError_propagate_of_mem hty herror] at h
      cases h
  refine ⟨hclean, ?_⟩
  rwa [propagate_eq_of_clean] at h
  rw [List.all_eq_true]
  intro ty hty
  rw [hclean ty hty]
  rfl

/-- Arithmetic is done on integers. -/
theorem of_arith {op : Arith} {left right : Ty} (h : (left.arith op right).isError = false) :
    left = .int ∧ right = .int := by
  unfold arith at h
  replace h := (propagate_isError h).2
  split at h
  · exact ⟨rfl, rfl⟩
  · cases h

/-- So are comparisons. -/
theorem of_compare {left right : Ty} (h : (left.compare right).isError = false) :
    left = .int ∧ right = .int := by
  unfold compare at h
  replace h := (propagate_isError h).2
  split at h
  · exact ⟨rfl, rfl⟩
  · cases h

/-- Connectives are for booleans. -/
theorem of_connect {op : Connective} {left right : Ty}
    (h : (left.connect op right).isError = false) : left = .bool ∧ right = .bool := by
  unfold connect at h
  replace h := (propagate_isError h).2
  split at h
  · exact ⟨rfl, rfl⟩
  · cases h

/-- So is negation. -/
theorem of_negate {operand : Ty} (h : operand.negate.isError = false) : operand = .bool := by
  unfold negate at h
  replace h := (propagate_isError h).2
  split at h
  · rfl
  · cases h

/-- Operations are done on values, so neither operand of one that is allowed is `void`. What stands
to the right of a negation is not used, and nothing is known of its type. -/
theorem isVoid_of_binaryTy {op : Operation} {left right : Ty}
    (h : (op.binaryTy left right).isError = false) :
    left.isVoid = false ∧ (op ≠ .negate → right.isVoid = false) := by
  cases op with
  | arith op =>
    obtain ⟨rfl, rfl⟩ := of_arith h
    exact ⟨rfl, fun _ => rfl⟩
  | compare op =>
    obtain ⟨rfl, rfl⟩ := of_compare h
    exact ⟨rfl, fun _ => rfl⟩
  | connect op =>
    obtain ⟨rfl, rfl⟩ := of_connect h
    exact ⟨rfl, fun _ => rfl⟩
  | negate =>
    obtain rfl := of_negate h
    exact ⟨rfl, fun hop => absurd rfl hop⟩

/-- An index is an integer. -/
theorem of_index {base position : Ty} (h : (base.index position).isError = false) :
    position = .int := by
  unfold index at h
  replace h := (propagate_isError h).2
  split at h
  · rfl
  · cases h

/-- An assignment has a location for words, and a value of its type. The type is not `void`, since
there is no location for nothing. -/
theorem of_assign {location value : Ty} (h : (location.assign value).isError = false) :
    location.isError = false ∧ value.isVoid = false := by
  rw [assign] at h
  obtain ⟨hclean, h⟩ := propagate_isError h
  refine ⟨hclean location List.mem_cons_self, ?_⟩
  split at h
  · next hfits =>
    cases location <;> cases value <;> simp_all [isScalar, equivalent, isVoid]
  · cases h

/-- A call has as many arguments as there are parameters. -/
theorem length_eq_of_equivalentList : ∀ {params args : List Ty},
    equivalentList params args = true → params.length = args.length
  | [], [], _ => rfl
  | [], _ :: _, h => nomatch h
  | _ :: _, [], h => nomatch h
  | _ :: _, _ :: _, h =>
    congrArg (· + 1) (length_eq_of_equivalentList (Bool.and_eq_true_iff.mp h).2)

/-- Only nothing is equivalent to nothing. -/
theorem isVoid_eq_of_equivalent {a b : Ty} (h : equivalent a b = true) : b.isVoid = a.isVoid := by
  cases a <;> cases b <;> first | rfl | cases h

/-- If no parameter is `void`, then no argument is. -/
theorem forall_not_isVoid_of_equivalentList : ∀ {params args : List Ty},
    equivalentList params args = true → (∀ param ∈ params, param.isVoid = false) →
    ∀ arg ∈ args, arg.isVoid = false
  | [], [], _, _ => fun _ h => absurd h List.not_mem_nil
  | [], _ :: _, h, _ => nomatch h
  | _ :: _, [], h, _ => nomatch h
  | param :: params, arg :: args, h, hparams => by
    obtain ⟨hfirst, hrest⟩ := Bool.and_eq_true_iff.mp h
    rw [List.forall_mem_cons] at hparams ⊢
    exact ⟨(isVoid_eq_of_equivalent hfirst).trans hparams.1,
      forall_not_isVoid_of_equivalentList hrest hparams.2⟩

/-- A call has a function as its callee, and arguments of the types of its parameters. What the call
gives is what the function returns, be it `void`. -/
theorem of_call {callee : Ty} {args : List Ty} (h : (callee.call args).isError = false) :
    ∃ params ret, callee = .func params ret ∧ equivalentList params args = true ∧
      callee.call args = ret := by
  unfold call at h ⊢
  obtain ⟨hclean, hresult⟩ := propagate_isError h
  rw [propagate_eq_of_clean (by simpa using hclean)]
  split at hresult
  · next params ret =>
    split at hresult
    · next hargs =>
      refine ⟨params, ret, rfl, hargs, ?_⟩
      simp [hargs]
    · cases hresult
  · cases hresult

end Ty

/-- Types that are `ok` are no faults, and functions of such a type have only parameters that can be
passed. That holds also of functions that are passed themselves. -/
structure Ty.Regular (ok : Ty → Bool) : Prop where
  clean : ∀ ty, ok ty = true → ty.isError = false
  params : ∀ params ret, ok (.func params ret) = true → ∀ param ∈ params, param.isVoid = false

/-! ## Expressions

By recursion on the expression. In each case no operand is a fault, so if the result were one it
would be new, and would be reported. -/

section

variable {ok : Ty → Bool} {floor : Nat} {known : List SymbolId}

/-- The type of a name that is in scope is one that was declared. So what holds of all declared
types holds of it. -/
theorem Ident.Uses.exists_symbol {ident : Ident} (h : ident.Uses ok floor known) :
    ∃ symbol, ident.symbol = some symbol ∧ symbol.fault = none ∧
      symbol.ty = some ident.ty ∧ ok ident.ty = true := by
  obtain ⟨symbol, hsymbol, ⟨hfault, ty, hty, hok⟩, -⟩ := h
  have heq : ident.ty = ty := by
    rw [Ident.ty, hsymbol, Option.bind_some, hty]
    rfl
  rw [heq]
  exact ⟨symbol, hsymbol, hfault, hty, hok⟩

/-- What is not reported although its operands are clean is no fault. A report is left out only
where an operand was at fault already. -/
theorem Ty.isError_of_reportAt {pos : Position} {operands : List Ty} {ty : Ty}
    (h : ty.reportAt pos operands = []) (hclean : ∀ operand ∈ operands, operand.isError = false) :
    ty.isError = false := by
  rcases Ty.reportAt_eq_nil_iff.mp h with hty | hany
  · exact hty
  · obtain ⟨operand, hmem, herror⟩ := List.any_eq_true.mp hany
    rw [hclean operand hmem] at herror
    cases herror

/-- The type of a name in scope is no fault. -/
theorem Ident.Uses.isError_ty (hok : ∀ ty, ok ty = true → ty.isError = false) {ident : Ident}
    (h : ident.Uses ok floor known) : ident.ty.isError = false := by
  obtain ⟨_, _, _, _, hty⟩ := h.exists_symbol
  exact hok _ hty

mutual

/-- Nor is that of an expression about which nothing is reported. -/
theorem Expr.isError_infer (hok : ∀ ty, ok ty = true → ty.isError = false) :
    ∀ {expr : Expr}, expr.Scoped ok floor known → expr.diagnose = [] → expr.infer.isError = false
  | .int _ _, _, _ => rfl
  | .bool _ _, _, _ => rfl
  | .var _ ident, hscoped, h => by
    refine Ty.isError_of_reportAt h ?_
    rw [List.forall_mem_singleton]
    exact Ident.Uses.isError_ty hok hscoped
  | .index _ base position, ⟨hbase, hposition⟩, h => by
    obtain ⟨hinner, h⟩ := List.append_eq_nil_iff.mp h
    refine Ty.isError_of_reportAt h ?_
    rw [List.forall_mem_cons, List.forall_mem_singleton]
    exact ⟨hbase.isError_ty hok, Expr.isError_infer hok hposition hinner⟩
  | .call _ callee args, ⟨hcallee, hargs⟩, h => by
    obtain ⟨hinner, h⟩ := List.append_eq_nil_iff.mp h
    refine Ty.isError_of_reportAt h ?_
    rw [List.forall_mem_cons]
    exact ⟨hcallee.isError_ty hok, Expr.isError_inferAll hok hargs hinner⟩
  | .unary _ op operand, hscoped, h => by
    obtain ⟨hinner, h⟩ := List.append_eq_nil_iff.mp h
    refine Ty.isError_of_reportAt h ?_
    rw [List.forall_mem_singleton]
    exact Expr.isError_infer hok hscoped hinner
  | .binary _ op left right, ⟨hleft, hright⟩, h => by
    obtain ⟨hinner, h⟩ := List.append_eq_nil_iff.mp h
    obtain ⟨hinnerLeft, hinnerRight⟩ := List.append_eq_nil_iff.mp hinner
    refine Ty.isError_of_reportAt h ?_
    rw [List.forall_mem_cons, List.forall_mem_singleton]
    exact ⟨Expr.isError_infer hok hleft hinnerLeft, Expr.isError_infer hok hright hinnerRight⟩

/-- Nor are those of several. -/
theorem Expr.isError_inferAll (hok : ∀ ty, ok ty = true → ty.isError = false) :
    ∀ {exprs : List Expr}, Expr.ScopedAll ok floor known exprs → Expr.diagnoseAll exprs = [] →
      ∀ ty ∈ Expr.inferAll exprs, ty.isError = false
  | [], _, _ => fun _ h => absurd h List.not_mem_nil
  | expr :: rest, ⟨hexpr, hrest⟩, h => by
    obtain ⟨hfirst, hothers⟩ := List.append_eq_nil_iff.mp h
    rw [Expr.inferAll, List.forall_mem_cons]
    exact ⟨Expr.isError_infer hok hexpr hfirst, Expr.isError_inferAll hok hrest hothers⟩

end

/-- The type of a condition without problems: it is a boolean, and so it is not `void`. -/
theorem Expr.infer_of_diagnoseCondition (hok : ∀ ty, ok ty = true → ty.isError = false)
    {cond : Expr} {pos : Position} {construct : String} (hscoped : cond.Scoped ok floor known)
    (h : cond.diagnoseCondition pos construct = []) :
    cond.diagnose = [] ∧ cond.infer.isVoid = false := by
  obtain ⟨hinner, h⟩ := List.append_eq_nil_iff.mp h
  refine ⟨hinner, ?_⟩
  split at h
  · next hbool =>
    rw [Expr.isError_infer hok hscoped hinner, Bool.false_or] at hbool
    have hvoid := Ty.isVoid_eq_of_equivalent hbool
    exact hvoid.symm
  · cases h

end

end WordLang
