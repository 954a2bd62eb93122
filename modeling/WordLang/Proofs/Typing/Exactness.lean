import WordLang.Proofs.Resolution.Lexical
import WordLang.Proofs.Typing.Clean
import WordLang.Proofs.Typing.Rules
import WordLang.Proofs.Typing.Equivalence

/-!
# Checking accepts exactly what is well typed

Checking works with `error` types: an operation that does not fit has one, and so has everything
that is made from it, but only the first place is reported. In a tree whose names are resolved to
symbols of types without an `error` no fault comes from outside. So an expression about which
nothing is reported has the type that is inferred (`Expr.hasType_infer`), and nothing is reported
about an expression that has a type (`Expr.infer_of_hasType`). Statements and functions follow, one
lemma for each construct.

Resolution without problems leads to such names (`Tree.named_of_resolve`), and that gives the main
statement (`Tree.diagnose_eq_nil_iff_wellTyped`).

The rules of typing are relations (`HasType`, `Stmt.WellTyped` and so on), and they know nothing of
faults: a rule applies or it does not. Checking never fails, and goes on with a fault where no rule
applies. The two directions are therefore of different kinds. From checking to the rules, a report
that is empty says that no part was at fault, and the rule for the construct is found by looking at
the types that were inferred. From the rules to checking, the type that a rule gives has no `error`
in it, and so it is not reported.

What the hypothesis on names is for can be seen from a name without one: if its type is a fault,
then it was reported elsewhere, and checking says nothing about it although no rule applies.
-/

namespace WordLang

/-! ## Names

Names that bring no fault with them. The occurrences of a construct are those of its parts in a row,
so what is asked of the names of a construct is asked of the names of its parts. -/

/-- A name has a type, and one without an `error`. Nothing is said of where it comes from, or of
what else has the same name. -/
def Ident.Named (ident : Ident) : Prop :=
  ∃ ty, ident.Has ty ∧ ty.errorFree = true

/-- All names of a row of occurrences have such types. -/
def AllNamed (occurrences : List Occurrence) : Prop :=
  ∀ occurrence ∈ occurrences, occurrence.ident.Named

/-- The names of both parts. -/
theorem AllNamed.append {first second : List Occurrence} (h : AllNamed (first ++ second)) :
    AllNamed first ∧ AllNamed second :=
  List.forall_mem_append.mp h

/-- The first name, and the others. -/
theorem AllNamed.cons_used {scope : List Nat} {ident : Ident} {rest : List Occurrence}
    (h : AllNamed (ident.used scope :: rest)) : ident.Named ∧ AllNamed rest :=
  List.forall_mem_cons.mp h

/-- The type that a name has by the rules is the one that checking reads. -/
theorem Ident.Has.ty_eq {ident : Ident} {ty : Ty} (h : ident.Has ty) : ident.ty = ty := by
  rw [Ident.ty, show ident.symbol.bind (·.ty) = some ty from h, Option.getD_some]

/-- The name has the type that checking reads, and this is without an `error`. -/
theorem Ident.Named.has {ident : Ident} (h : ident.Named) :
    ident.Has ident.ty ∧ ident.ty.errorFree = true := by
  obtain ⟨ty, hty, hfree⟩ := h
  rw [hty.ty_eq]
  exact ⟨hty, hfree⟩

/-- So it is no fault. -/
theorem Ident.Named.isError {ident : Ident} (h : ident.Named) : ident.ty.isError = false :=
  Ty.isError_of_errorFree h.has.2

/-! ## Expressions

Both directions by recursion on the expression. First what a type that is no fault says about how it
was made: from an array and an integer, from a function and arguments that fit. -/

/-- What is no fault is not reported. -/
theorem Ty.reportAt_of_errorFree {pos : Position} {operands : List Ty} {ty : Ty}
    (h : ty.errorFree = true) : ty.reportAt pos operands = [] :=
  Ty.reportAt_eq_nil_iff.mpr (.inl (Ty.isError_of_errorFree h))

/-- A name stands for a value of its type unless it is that of an array. -/
theorem Ident.of_valueTy {ident : Ident} (h : ident.valueTy.isError = false) :
    ident.ty.isArray = false ∧ ident.valueTy = ident.ty := by
  rw [Ident.valueTy] at h ⊢
  split at h
  · cases h
  · next harray => exact ⟨Bool.eq_false_iff.mpr harray, if_neg harray⟩

/-- If indexing gives no fault, an array was indexed with an integer. The type of the element is
what indexing gives. -/
theorem Ty.of_index_array {base position : Ty} (h : (base.index position).isError = false) :
    ∃ extent, base = .array (base.index position) extent ∧ position = .int := by
  unfold Ty.index at h ⊢
  obtain ⟨hclean, hresult⟩ := Ty.propagate_isError h
  rw [Ty.propagate_eq_of_clean (by simpa using hclean)]
  split at hresult
  · exact ⟨_, rfl, rfl⟩
  · cases hresult

/-- What is indexed without a report is an array, and the index an integer. Neither operand is a
fault, so a fault of the result would be new and would have been reported. -/
theorem Ident.Named.indexed {base : Ident} {position : Ty} {pos : Position} (hbase : base.Named)
    (hposition : position.errorFree = true)
    (h : (base.ty.index position).reportAt pos [base.ty, position] = []) :
    (∃ extent, base.Has (.array (base.ty.index position) extent)) ∧ position = .int ∧
      (base.ty.index position).errorFree = true := by
  have hclean := Ty.isError_of_reportAt h (List.forall_mem_cons.mpr
    ⟨hbase.isError, List.forall_mem_singleton.mpr (Ty.isError_of_errorFree hposition)⟩)
  obtain ⟨extent, harray, hint⟩ := Ty.of_index_array hclean
  obtain ⟨hhas, hfree⟩ := hbase.has
  rw [harray] at hfree
  exact ⟨⟨extent, hhas.trans (congrArg some harray)⟩, hint, hfree⟩

/-- What is called without a report is a function with parameters of the types of the arguments.
Types without an `error` are equivalent only if they are the same, so the arguments have these types
themselves. -/
theorem Ident.Named.called {callee : Ident} {args : List Ty} {pos : Position}
    (hcallee : callee.Named) (hargs : Ty.errorFreeAll args = true)
    (h : (callee.ty.call args).reportAt pos (callee.ty :: args) = []) :
    callee.Has (.func args (callee.ty.call args)) ∧ (callee.ty.call args).errorFree = true := by
  have hclean := Ty.isError_of_reportAt h (List.forall_mem_cons.mpr
    ⟨hcallee.isError, fun ty hty => Ty.isError_of_errorFree (Ty.errorFreeAll_iff.mp hargs ty hty)⟩)
  obtain ⟨params, ret, hfunc, hequivalent, hret⟩ := Ty.of_call hclean
  obtain ⟨rfl, -⟩ := Ty.equivalentList_iff.mp hequivalent
  obtain ⟨hhas, hfree⟩ := hcallee.has
  rw [hret]
  rw [hfunc] at hfree hhas
  exact ⟨hhas, (Bool.and_eq_true_iff.mp hfree).2⟩

mutual

/-- An expression about which nothing is reported has the type that is inferred. By recursion on the
expression: nothing is reported about its parts, so these have types, and that the construct is not
reported says which ones. -/
theorem Expr.hasType_infer {scope : List Nat} : ∀ {expr : Expr},
    AllNamed (expr.occurrences scope) → expr.diagnose = [] →
      HasType expr expr.infer ∧ expr.infer.errorFree = true
  | .int _ _, _, _ => ⟨.int, rfl⟩
  | .bool _ _, _, _ => ⟨.bool, rfl⟩
  | .var info ident, hnames, h => by
    obtain ⟨hident, -⟩ := hnames.cons_used
    have hclean := Ty.isError_of_reportAt h (List.forall_mem_singleton.mpr hident.isError)
    obtain ⟨harray, hty⟩ := Ident.of_valueTy hclean
    rw [Expr.infer, hty]
    exact ⟨.var hident.has.1 harray, hident.has.2⟩
  | .index info base position, hnames, h => by
    obtain ⟨hbase, hposition⟩ := hnames.cons_used
    obtain ⟨hinner, h⟩ := List.append_eq_nil_iff.mp h
    obtain ⟨hty, hfree⟩ := Expr.hasType_infer hposition hinner
    obtain ⟨⟨extent, harray⟩, hint, helement⟩ := hbase.indexed hfree h
    rw [hint] at hty
    exact ⟨.index harray hty, helement⟩
  | .call info callee args, hnames, h => by
    obtain ⟨hcallee, hargs⟩ := hnames.cons_used
    obtain ⟨hinner, h⟩ := List.append_eq_nil_iff.mp h
    obtain ⟨htypes, hfree⟩ := Expr.hasTypes_inferAll hargs hinner
    obtain ⟨hfunc, hret⟩ := hcallee.called hfree h
    exact ⟨.call hfunc htypes, hret⟩
  | .unary info op operand, hnames, h => by
    have hoperand : AllNamed (operand.occurrences scope) := hnames
    obtain ⟨hinner, h⟩ := List.append_eq_nil_iff.mp h
    obtain ⟨hty, hfree⟩ := Expr.hasType_infer hoperand hinner
    have hclean := Ty.isError_of_reportAt h
      (List.forall_mem_singleton.mpr (Ty.isError_of_errorFree hfree))
    cases op with
    | negate =>
      have hbool := Ty.of_negate hclean
      rw [hbool] at hty
      rw [Expr.infer, Operation.unaryTy, hbool]
      exact ⟨.negate hty, rfl⟩
    | _ => cases hclean
  | .binary info op left right, hnames, h => by
    obtain ⟨hleft, hright⟩ := hnames.append
    obtain ⟨hinner, h⟩ := List.append_eq_nil_iff.mp h
    obtain ⟨hinnerLeft, hinnerRight⟩ := List.append_eq_nil_iff.mp hinner
    obtain ⟨hleft, hleftFree⟩ := Expr.hasType_infer hleft hinnerLeft
    obtain ⟨hright, hrightFree⟩ := Expr.hasType_infer hright hinnerRight
    have hclean := Ty.isError_of_reportAt h (List.forall_mem_cons.mpr
      ⟨Ty.isError_of_errorFree hleftFree,
        List.forall_mem_singleton.mpr (Ty.isError_of_errorFree hrightFree)⟩)
    rw [Expr.infer]
    cases op with
    | arith op =>
      obtain ⟨hl, hr⟩ := Ty.of_arith hclean
      rw [hl] at hleft ⊢
      rw [hr] at hright ⊢
      exact ⟨.arith hleft hright, rfl⟩
    | compare op =>
      obtain ⟨hl, hr⟩ := Ty.of_compare hclean
      rw [hl] at hleft ⊢
      rw [hr] at hright ⊢
      exact ⟨.compare hleft hright, rfl⟩
    | connect op =>
      obtain ⟨hl, hr⟩ := Ty.of_connect hclean
      rw [hl] at hleft ⊢
      rw [hr] at hright ⊢
      exact ⟨.connect hleft hright, rfl⟩
    | negate =>
      -- the right operand has a type too, and nothing is asked of it
      have hl := Ty.of_negate hclean
      rw [hl] at hleft ⊢
      exact ⟨.negateIgnoring hleft hright, rfl⟩

/-- Several expressions about which nothing is reported have the types that are inferred. -/
theorem Expr.hasTypes_inferAll {scope : List Nat} : ∀ {exprs : List Expr},
    AllNamed (Expr.occurrencesAll scope exprs) → Expr.diagnoseAll exprs = [] →
      HasTypes exprs (Expr.inferAll exprs) ∧ Ty.errorFreeAll (Expr.inferAll exprs) = true
  | [], _, _ => ⟨.nil, rfl⟩
  | expr :: rest, hnames, h => by
    obtain ⟨hexpr, hrest⟩ := hnames.append
    obtain ⟨hfirst, hothers⟩ := List.append_eq_nil_iff.mp h
    obtain ⟨hty, hfree⟩ := Expr.hasType_infer hexpr hfirst
    obtain ⟨htypes, hfreeAll⟩ := Expr.hasTypes_inferAll hrest hothers
    exact ⟨.cons hty htypes, Bool.and_eq_true_iff.mpr ⟨hfree, hfreeAll⟩⟩

end

mutual

/-- Nothing is reported about an expression that has a type, and that type is inferred. The three go
together, since the type of a part is needed to see that the whole is no fault. -/
theorem Expr.infer_of_hasType {scope : List Nat} : ∀ {expr : Expr} {ty : Ty},
    AllNamed (expr.occurrences scope) → HasType expr ty →
      expr.infer = ty ∧ ty.errorFree = true ∧ expr.diagnose = []
  | .int _ _, _, _, .int => ⟨rfl, rfl, rfl⟩
  | .bool _ _, _, _, .bool => ⟨rfl, rfl, rfl⟩
  | .var info ident, ty, hnames, .var hident hvalue => by
    obtain ⟨hnamed, -⟩ := hnames.cons_used
    obtain ⟨-, hfree⟩ := hnamed.has
    have hty : ident.valueTy = ty := by
      rw [Ident.valueTy, hident.ty_eq, hvalue]
      rfl
    rw [hident.ty_eq] at hfree
    rw [Expr.infer, Expr.diagnose, hty]
    exact ⟨rfl, hfree, Ty.reportAt_of_errorFree hfree⟩
  | .index info base position, ty, hnames, .index hbase hposition => by
    obtain ⟨hnamed, hinner⟩ := hnames.cons_used
    obtain ⟨hint, -, hquiet⟩ := Expr.infer_of_hasType hinner hposition
    obtain ⟨-, hfree⟩ := hnamed.has
    rw [hbase.ty_eq] at hfree
    rw [Expr.infer, Expr.diagnose, hint, hquiet, hbase.ty_eq, Ty.index_array]
    exact ⟨rfl, hfree, Ty.reportAt_of_errorFree hfree⟩
  | .call info callee args, ty, hnames, .call hcallee hargs => by
    obtain ⟨hnamed, hinner⟩ := hnames.cons_used
    obtain ⟨htypes, hquiet⟩ := Expr.inferAll_of_hasTypes hinner hargs
    obtain ⟨-, hfree⟩ := hnamed.has
    rw [hcallee.ty_eq, Ty.errorFree, Bool.and_eq_true] at hfree
    rw [Expr.infer, Expr.diagnose, htypes, hquiet, hcallee.ty_eq, Ty.call_func hfree.1]
    exact ⟨rfl, hfree.2, Ty.reportAt_of_errorFree hfree.2⟩
  | .unary info .negate operand, _, hnames, .negate hoperand => by
    have hinner : AllNamed (operand.occurrences scope) := hnames
    obtain ⟨hbool, -, hquiet⟩ := Expr.infer_of_hasType hinner hoperand
    rw [Expr.infer, Expr.diagnose, hbool, hquiet]
    exact ⟨rfl, rfl, rfl⟩
  | .binary info (.arith op) left right, _, hnames, .arith hleft hright => by
    obtain ⟨hinnerLeft, hinnerRight⟩ := hnames.append
    obtain ⟨hl, -, hquietLeft⟩ := Expr.infer_of_hasType hinnerLeft hleft
    obtain ⟨hr, -, hquietRight⟩ := Expr.infer_of_hasType hinnerRight hright
    rw [Expr.infer, Expr.diagnose, hl, hr, hquietLeft, hquietRight]
    exact ⟨rfl, rfl, rfl⟩
  | .binary info (.compare op) left right, _, hnames, .compare hleft hright => by
    obtain ⟨hinnerLeft, hinnerRight⟩ := hnames.append
    obtain ⟨hl, -, hquietLeft⟩ := Expr.infer_of_hasType hinnerLeft hleft
    obtain ⟨hr, -, hquietRight⟩ := Expr.infer_of_hasType hinnerRight hright
    rw [Expr.infer, Expr.diagnose, hl, hr, hquietLeft, hquietRight]
    exact ⟨rfl, rfl, rfl⟩
  | .binary info (.connect op) left right, _, hnames, .connect hleft hright => by
    obtain ⟨hinnerLeft, hinnerRight⟩ := hnames.append
    obtain ⟨hl, -, hquietLeft⟩ := Expr.infer_of_hasType hinnerLeft hleft
    obtain ⟨hr, -, hquietRight⟩ := Expr.infer_of_hasType hinnerRight hright
    rw [Expr.infer, Expr.diagnose, hl, hr, hquietLeft, hquietRight]
    exact ⟨rfl, rfl, rfl⟩
  | .binary info .negate left right, _, hnames, .negateIgnoring hleft hright => by
    obtain ⟨hinnerLeft, hinnerRight⟩ := hnames.append
    obtain ⟨hl, -, hquietLeft⟩ := Expr.infer_of_hasType hinnerLeft hleft
    obtain ⟨-, -, hquietRight⟩ := Expr.infer_of_hasType hinnerRight hright
    rw [Expr.infer, Expr.diagnose, hl, hquietLeft, hquietRight]
    exact ⟨rfl, rfl, rfl⟩

/-- Nothing is reported about several expressions that have types. -/
theorem Expr.inferAll_of_hasTypes {scope : List Nat} : ∀ {exprs : List Expr} {types : List Ty},
    AllNamed (Expr.occurrencesAll scope exprs) → HasTypes exprs types →
      Expr.inferAll exprs = types ∧ Expr.diagnoseAll exprs = []
  | [], _, _, .nil => ⟨rfl, rfl⟩
  | expr :: rest, _, hnames, .cons hexpr hrest => by
    obtain ⟨hfirst, hothers⟩ := hnames.append
    obtain ⟨hty, -, hquiet⟩ := Expr.infer_of_hasType hfirst hexpr
    obtain ⟨htypes, hquietRest⟩ := Expr.inferAll_of_hasTypes hothers hrest
    rw [Expr.inferAll, Expr.diagnoseAll, hty, htypes, hquiet, hquietRest]
    exact ⟨rfl, rfl⟩

end

/-! ## Parts of statements

Equivalences from here on, since both directions have the same shape: a row of reports is empty if
each report in it is, and a rule for a statement asks for something of each part. -/

section

variable {scope : List Nat} {pos : Position}

/-- A condition is right exactly if it is a boolean. A condition that is a fault was reported where
the fault arose, and not again as a condition; so the report about the expression is needed too. -/
theorem Expr.diagnoseCondition_eq_nil_iff {cond : Expr} {construct : String}
    (hnames : AllNamed (cond.occurrences scope)) :
    cond.diagnoseCondition pos construct = [] ↔ HasType cond .bool := by
  rw [Expr.diagnoseCondition, List.append_eq_nil_iff]
  constructor
  · rintro ⟨hquiet, hbool⟩
    obtain ⟨hty, hfree⟩ := Expr.hasType_infer hnames hquiet
    split at hbool
    · next hcond =>
      rw [Ty.isError_of_errorFree hfree, Bool.false_or] at hcond
      rwa [(Ty.equivalent_iff.mp hcond).1] at hty
    · cases hbool
  · intro hty
    obtain ⟨hbool, -, hquiet⟩ := Expr.infer_of_hasType hnames hty
    rw [hbool]
    exact ⟨hquiet, rfl⟩

/-- What can be assigned is an integer or a boolean. -/
theorem Ty.isScalar_iff {ty : Ty} : ty.isScalar = true ↔ ty = .int ∨ ty = .bool := by
  cases ty <;> simp [Ty.isScalar]

/-- An assignment is right exactly if the types are the same, and can be assigned. That rules out
arrays, functions and `void`. -/
theorem Assignment.diagnose_eq_nil_iff {assignment : Assignment}
    (hnames : AllNamed (assignment.occurrences scope)) :
    assignment.diagnose = [] ↔ assignment.WellTyped := by
  obtain ⟨hlocation, hvalue⟩ := hnames.append
  rw [Assignment.diagnose, List.append_eq_nil_iff, List.append_eq_nil_iff]
  constructor
  · rintro ⟨⟨hquietLocation, hquietValue⟩, hquiet⟩
    obtain ⟨hlocation, hlocationFree⟩ := Expr.hasType_infer hlocation hquietLocation
    obtain ⟨hvalue, hvalueFree⟩ := Expr.hasType_infer hvalue hquietValue
    have hlocationClean := Ty.isError_of_errorFree hlocationFree
    have hvalueClean := Ty.isError_of_errorFree hvalueFree
    have hclean := Ty.isError_of_reportAt hquiet (List.forall_mem_cons.mpr
      ⟨hlocationClean, List.forall_mem_singleton.mpr hvalueClean⟩)
    obtain ⟨hscalar, hsame⟩ := Ty.of_assign_scalar hclean hlocationClean hvalueClean
    rw [hsame] at hvalue
    exact ⟨_, Ty.isScalar_iff.mp hscalar, hlocation, hvalue⟩
  · rintro ⟨ty, hscalar, hlocationTy, hvalueTy⟩
    obtain ⟨hl, hfree, hquietLocation⟩ := Expr.infer_of_hasType hlocation hlocationTy
    obtain ⟨hv, -, hquietValue⟩ := Expr.infer_of_hasType hvalue hvalueTy
    refine ⟨⟨hquietLocation, hquietValue⟩, ?_⟩
    rw [Assignment.infer, hl, hv, Ty.assign_self (Ty.isScalar_iff.mpr hscalar)]
    exact Ty.reportAt_of_errorFree hfree

/-- A call is right exactly if the callee is a function whose parameters have the types of the
arguments. It may return anything. -/
theorem Expr.diagnoseCall_eq_nil_iff {callee : Ident} {args : List Expr}
    (hnames : AllNamed (callee.used scope :: Expr.occurrencesAll scope args)) :
    Expr.diagnoseAll args ++ (callee.ty.call (Expr.inferAll args)).reportAt pos
        (callee.ty :: Expr.inferAll args) = [] ↔
      ∃ params ret, callee.Has (.func params ret) ∧ HasTypes args params := by
  obtain ⟨hnamed, hargs⟩ := hnames.cons_used
  rw [List.append_eq_nil_iff]
  constructor
  · rintro ⟨hinner, hquiet⟩
    obtain ⟨htypes, hfree⟩ := Expr.hasTypes_inferAll hargs hinner
    obtain ⟨hfunc, -⟩ := hnamed.called hfree hquiet
    exact ⟨_, _, hfunc, htypes⟩
  · rintro ⟨params, ret, hfunc, htypes⟩
    obtain ⟨hinfer, hinner⟩ := Expr.inferAll_of_hasTypes hargs htypes
    obtain ⟨-, hfree⟩ := hnamed.has
    rw [hfunc.ty_eq, Ty.errorFree, Bool.and_eq_true] at hfree
    rw [hinfer, hfunc.ty_eq, Ty.call_func hfree.1]
    exact ⟨hinner, Ty.reportAt_of_errorFree hfree.2⟩

/-- A type without an `error` can be returned exactly where it is declared. The declared type may
itself have an `error` in it, and then nothing can be returned. -/
theorem Ty.diagnoseReturn_eq_nil_iff {ret ty : Ty} (hfree : ty.errorFree = true) :
    Ty.diagnoseReturn pos ret ty = [] ↔ ty = ret := by
  rw [Ty.diagnoseReturn, Ty.isError_of_errorFree hfree, Bool.false_or]
  split
  · next hequivalent => exact ⟨fun _ => (Ty.equivalent_iff.mp hequivalent).1, fun _ => rfl⟩
  · next hequivalent =>
    refine ⟨fun hcons => (nomatch hcons), fun hsame => absurd ?_ hequivalent⟩
    exact Ty.equivalent_iff.mpr ⟨hsame, hfree⟩

/-- A value is returned rightly exactly if it has the type that the function returns. -/
theorem Expr.diagnoseReturn_eq_nil_iff {ret : Ty} {value : Expr}
    (hnames : AllNamed (value.occurrences scope)) :
    value.diagnose ++ Ty.diagnoseReturn pos ret value.infer = [] ↔ HasType value ret := by
  rw [List.append_eq_nil_iff]
  constructor
  · rintro ⟨hquiet, hreturn⟩
    obtain ⟨hty, hfree⟩ := Expr.hasType_infer hnames hquiet
    rwa [(Ty.diagnoseReturn_eq_nil_iff hfree).mp hreturn] at hty
  · intro hty
    obtain ⟨hinfer, hfree, hquiet⟩ := Expr.infer_of_hasType hnames hty
    rw [hinfer]
    exact ⟨hquiet, (Ty.diagnoseReturn_eq_nil_iff hfree).mpr rfl⟩

end

/-! ## Statements

By recursion on the statement. Whether a break is allowed is the one thing that the rules and
checking pass down. -/

mutual

/-- Nothing is reported about a statement exactly if it is well typed. A row of reports is empty if
each of them is, so each case is a conjunction on both sides. -/
theorem Stmt.diagnose_eq_nil_iff {ret : Ty} {scope : List Nat} :
    ∀ {inLoop : Bool} {n : Nat} {stmt : Stmt}, AllNamed (stmt.occurrences scope n) →
      (stmt.diagnose ret inLoop = [] ↔ Stmt.WellTyped ret inLoop stmt)
  | inLoop, n, .declare info decl, _ => by
    rw [Stmt.diagnose, VarDecl.diagnoseLocal]
    split
    · next harray =>
      -- an array cannot be a local: its report is the diagnostic
      refine ⟨fun h => (nomatch h), fun h => ?_⟩
      cases h with
      | declare hdecl => exact nomatch hdecl.symm.trans harray
    · next harray => exact ⟨fun _ => .declare (Bool.eq_false_iff.mpr harray), fun _ => rfl⟩
  | inLoop, n, .assign info assignment, hnames => by
    have hassignment : AllNamed (assignment.occurrences scope) := hnames
    rw [Stmt.diagnose, Assignment.diagnose_eq_nil_iff hassignment]
    refine ⟨.assign, fun h => ?_⟩
    cases h with
    | assign h => exact h
  | inLoop, n, .call info callee args, hnames => by
    rw [Stmt.diagnose, Expr.diagnoseCall_eq_nil_iff hnames]
    constructor
    · rintro ⟨params, result, hcallee, hargs⟩
      exact .call hcallee hargs
    · intro h
      cases h with
      | call hcallee hargs => exact ⟨_, _, hcallee, hargs⟩
  | inLoop, n, .ifElse info cond onTrue onFalse, hnames => by
    obtain ⟨hcond, hblocks⟩ := hnames.append
    obtain ⟨htrue, hfalse⟩ := hblocks.append
    rw [Stmt.diagnose, List.append_eq_nil_iff, List.append_eq_nil_iff,
      Expr.diagnoseCondition_eq_nil_iff hcond, Stmt.diagnoseAll_eq_nil_iff htrue,
      Stmt.diagnoseAll_eq_nil_iff hfalse]
    constructor
    · rintro ⟨⟨hcond, htrue⟩, hfalse⟩
      exact .ifElse hcond htrue hfalse
    · intro h
      cases h with
      | ifElse hcond htrue hfalse => exact ⟨⟨hcond, htrue⟩, hfalse⟩
  | inLoop, n, .loop info init cond increment body, hnames => by
    obtain ⟨hinit, hnames⟩ := hnames.append
    obtain ⟨hcond, hnames⟩ := hnames.append
    obtain ⟨hincrement, hbody⟩ := hnames.append
    rw [Stmt.diagnose, List.append_eq_nil_iff, List.append_eq_nil_iff, List.append_eq_nil_iff,
      Assignment.diagnose_eq_nil_iff hinit, Expr.diagnoseCondition_eq_nil_iff hcond,
      Assignment.diagnose_eq_nil_iff hincrement, Stmt.diagnoseAll_eq_nil_iff hbody]
    constructor
    · rintro ⟨⟨⟨hinit, hcond⟩, hincrement⟩, hbody⟩
      exact .loop hinit hcond hincrement hbody
    · intro h
      cases h with
      | loop hinit hcond hincrement hbody => exact ⟨⟨⟨hinit, hcond⟩, hincrement⟩, hbody⟩
  | true, n, .leave info, _ => ⟨fun _ => .leave, fun _ => rfl⟩
  | false, n, .leave info, _ => ⟨fun h => (nomatch h), fun h => (nomatch h)⟩
  | inLoop, n, .ret info none, _ => by
    rw [Stmt.diagnose, Ty.diagnoseReturn_eq_nil_iff rfl]
    refine ⟨fun h => .ret h.symm, fun h => ?_⟩
    cases h with
    | ret hvoid => exact hvoid.symm
  | inLoop, n, .ret info (some value), hnames => by
    have hvalue : AllNamed (value.occurrences scope) := hnames
    rw [Stmt.diagnose, Expr.diagnoseReturn_eq_nil_iff hvalue]
    refine ⟨.retValue, fun h => ?_⟩
    cases h with
    | retValue hvalue => exact hvalue

/-- Nothing is reported about a block exactly if all its statements are well typed. -/
theorem Stmt.diagnoseAll_eq_nil_iff {ret : Ty} {scope : List Nat} :
    ∀ {inLoop : Bool} {n : Nat} {stmts : List Stmt},
      AllNamed (Stmt.occurrencesAll scope n stmts) →
      (Stmt.diagnoseAll ret inLoop stmts = [] ↔ Stmt.AllWellTyped ret inLoop stmts)
  | inLoop, n, [], _ => ⟨fun _ => .nil, fun _ => rfl⟩
  | inLoop, n, stmt :: rest, hnames => by
    obtain ⟨hstmt, hrest⟩ := hnames.append
    rw [Stmt.diagnoseAll, List.append_eq_nil_iff, Stmt.diagnose_eq_nil_iff hstmt,
      Stmt.diagnoseAll_eq_nil_iff hrest]
    constructor
    · rintro ⟨hstmt, hrest⟩
      exact .cons hstmt hrest
    · intro h
      cases h with
      | cons hstmt hrest => exact ⟨hstmt, hrest⟩

end

/-! ## Paths

Whether all paths of a body return does not depend on types. It is a function in checking and a
relation in the rules. -/

mutual

/-- A statement returns on all paths. The relation asks for one statement in each of both blocks,
and the function looks for it. -/
theorem Stmt.returns_iff : ∀ {stmt : Stmt}, stmt.returns = true ↔ stmt.Returns
  | .ret _ _ => ⟨fun _ => .ret, fun _ => rfl⟩
  | .ifElse _ _ onTrue onFalse => by
    rw [Stmt.returns, Bool.and_eq_true, Stmt.anyReturns_iff, Stmt.anyReturns_iff]
    constructor
    · rintro ⟨⟨first, htrue, hfirst⟩, second, hfalse, hsecond⟩
      exact .ifElse htrue hfirst hfalse hsecond
    · intro h
      cases h with
      | ifElse htrue hfirst hfalse hsecond =>
        exact ⟨⟨_, htrue, hfirst⟩, _, hfalse, hsecond⟩
  | .declare _ _ => ⟨fun h => (nomatch h), fun h => (nomatch h)⟩
  | .assign _ _ => ⟨fun h => (nomatch h), fun h => (nomatch h)⟩
  | .call _ _ _ => ⟨fun h => (nomatch h), fun h => (nomatch h)⟩
  | .loop _ _ _ _ _ => ⟨fun h => (nomatch h), fun h => (nomatch h)⟩
  | .leave _ => ⟨fun h => (nomatch h), fun h => (nomatch h)⟩

/-- A block does if one of its statements does. -/
theorem Stmt.anyReturns_iff : ∀ {stmts : List Stmt},
    Stmt.anyReturns stmts = true ↔ ∃ stmt ∈ stmts, stmt.Returns
  | [] => ⟨fun h => (nomatch h), fun ⟨_, hmem, _⟩ => absurd hmem List.not_mem_nil⟩
  | stmt :: rest => by
    rw [Stmt.anyReturns, Bool.or_eq_true, Stmt.returns_iff, Stmt.anyReturns_iff,
      List.exists_mem_cons_iff]

end

/-! ## Functions and programs

A function adds its signature and its paths to what is reported of its body. -/

/-- The signature of the entry function is right exactly if it takes and returns nothing. Of a
function with another name nothing is asked. -/
theorem FunDef.signatureFault?_eq_none_iff {definition : FunDef} :
    definition.signatureFault? = none ↔
      (definition.ident.name = "main" → definition.ret = .void ∧ definition.params = []) := by
  rw [FunDef.signatureFault?]
  by_cases hmain : definition.ident.name = "main"
  · by_cases hret : definition.ret = .void
    · by_cases hparams : definition.params = []
      · simp [hret, hparams, Ty.isVoid]
      · simp [hret, hparams, hmain, Ty.isVoid]
    · simp [hret, hmain, Ty.isVoid_eq_false_iff.mpr hret]
  · simp [hmain]

/-- The paths are right exactly if a function that returns a value does so on all of them. -/
theorem FunDef.diagnosePaths_eq_nil_iff {definition : FunDef} :
    definition.diagnosePaths = [] ↔
      (definition.ret ≠ .void → ∃ stmt ∈ definition.body.stmts, stmt.Returns) := by
  rw [FunDef.diagnosePaths, ← Stmt.anyReturns_iff]
  by_cases hret : definition.ret = .void
  · simp [hret, Ty.isVoid]
  · by_cases hreturns : Stmt.anyReturns definition.body.stmts = true
    · simp [hreturns]
    · simp [hret, hreturns, Ty.isVoid_eq_false_iff.mpr hret]

/-- Nothing is reported about a function exactly if it is well typed. If the signature is wrong
there is a report, so it does not matter that the body is not looked at then. -/
theorem FunDef.diagnose_eq_nil_iff {definition : FunDef} {n : Nat}
    (hnames : AllNamed (definition.occurrences n)) :
    definition.diagnose = [] ↔ definition.WellTyped := by
  have hbody : AllNamed (Stmt.occurrencesAll [n] 0 definition.body.stmts) :=
    (List.forall_mem_append.mp (List.forall_mem_cons.mp hnames).2).2
  have hparams : definition.diagnoseParams = [] ↔
      ∀ param ∈ definition.params, param.declared.isArray = false := by
    simp [FunDef.diagnoseParams]
  constructor
  · intro h
    rw [FunDef.diagnose] at h
    split at h
    · cases h
    · next hsignature =>
      rw [List.append_eq_nil_iff, List.append_eq_nil_iff, hparams,
        Stmt.diagnoseAll_eq_nil_iff hbody, FunDef.diagnosePaths_eq_nil_iff] at h
      exact ⟨FunDef.signatureFault?_eq_none_iff.mp hsignature, h.1.1, h.1.2, h.2⟩
  · intro h
    rw [FunDef.diagnose, FunDef.signatureFault?_eq_none_iff.mpr h.entry]
    simp only [List.append_eq_nil_iff]
    exact ⟨⟨hparams.mpr h.params, (Stmt.diagnoseAll_eq_nil_iff hbody).mpr h.body⟩,
      FunDef.diagnosePaths_eq_nil_iff.mpr h.returns⟩

/-- The names of a function are among those of the tree. -/
theorem Item.named_of_mem {items : List Item} {definition : FunDef} {n : Nat}
    (hnames : AllNamed (Item.occurrencesAll n items)) (hmem : Item.function definition ∈ items) :
    ∃ m, AllNamed (definition.occurrences m) := by
  induction items generalizing n with
  | nil => cases hmem
  | cons item rest ih =>
    obtain ⟨hitem, hrest⟩ := hnames.append
    rcases List.mem_cons.mp hmem with rfl | hmem
    · exact ⟨n, hitem⟩
    · exact ih hrest hmem

/-- Nothing is reported about a tree exactly if it is well typed, if its names are such names. This
form knows nothing of resolution, and may be used for names that were bound in any other way. -/
theorem Tree.diagnose_eq_nil_iff {tree : Tree} (hnames : AllNamed tree.occurrences) :
    tree.diagnose = [] ↔ tree.WellTyped := by
  have hitems : tree.diagnose = [] ↔ ∀ item ∈ tree.items, item.diagnose = [] :=
    List.flatMap_eq_nil_iff
  rw [hitems]
  constructor
  · intro h definition hmem
    obtain ⟨n, hdefinition⟩ := Item.named_of_mem hnames hmem
    exact (FunDef.diagnose_eq_nil_iff hdefinition).mp (h _ hmem)
  · intro h item hmem
    cases item with
    | global decl => rfl
    | function definition =>
      obtain ⟨n, hdefinition⟩ := Item.named_of_mem hnames hmem
      exact (FunDef.diagnose_eq_nil_iff hdefinition).mpr (h definition hmem)

/-! ## Names of a resolved tree

Resolution binds every use to a declaration before it. If nothing is reported, the symbol has the
type that was declared, and a declared type is without an `error` by assumption. -/

/-- The types that a tree declares: those of its variables and parameters, and those of its
functions. -/
def Tree.declaredTypes (tree : Tree) : List Ty :=
  tree.occurrences.filterMap (·.declared)

/-- A use means a declaration of its name before it. -/
theorem mem_of_designated {seen : List Occurrence} {scope : List Nat} {name : String}
    {decl : Occurrence} (h : designated seen scope name = some decl) :
    decl ∈ seen ∧ decl.declared.isSome = true ∧ decl.name = name := by
  obtain ⟨outer, -, hfirst⟩ := List.exists_of_findSome?_eq_some h
  rw [firstDeclaration] at hfirst
  have hdeclares := List.find?_some hfirst
  obtain ⟨hdeclared, -, hname⟩ := Occurrence.declares_iff.mp hdeclares
  exact ⟨List.mem_of_find?_eq_some hfirst, hdeclared, hname⟩

/-- An occurrence that is not reported, after declarations of types without an `error`. -/
theorem Occurrence.BoundAfter.named {seen : List Occurrence} {occurrence : Occurrence}
    (h : occurrence.BoundAfter seen) (hquiet : occurrence.problem? = none)
    (hseen : ∀ decl ∈ seen, decl.declared.isSome = true → decl.ident.Named)
    (hfree : ∀ ty, occurrence.declared = some ty → ty.errorFree = true) :
    occurrence.ident.Named := by
  rcases hdeclared : occurrence.declared with _ | ty
  · rcases hdecl : designated seen occurrence.scope occurrence.name with _ | decl
    · obtain ⟨id, hsymbol⟩ := h.unresolved hdeclared hdecl
      rw [Occurrence.problem?, hsymbol] at hquiet
      cases hquiet
    · obtain ⟨hmem, hisSome, -⟩ := mem_of_designated hdecl
      obtain ⟨ty, hty, htyFree⟩ := hseen decl hmem hisSome
      have hsymbol : occurrence.ident.symbol = decl.ident.symbol := h.found hdeclared decl hdecl
      refine ⟨ty, ?_, htyFree⟩
      rw [Ident.Has, hsymbol]
      exact hty
  · rcases hfirst : firstDeclaration seen occurrence.name occurrence.scope with _ | decl
    · obtain ⟨id, hsymbol⟩ := h.declared ty hdeclared hfirst
      have hsymbol' : occurrence.ident.symbol = some (.declared id occurrence.name ty) := hsymbol
      refine ⟨ty, ?_, hfree ty hdeclared⟩
      rw [Ident.Has, hsymbol']
      rfl
    · obtain ⟨id, hsymbol⟩ := h.duplicate ty hdeclared (by rw [hfirst]; rfl)
      rw [Occurrence.problem?, hsymbol] at hquiet
      cases hquiet

/-- By induction on the occurrences, from the left: what a use means came before it. So at each
occurrence everything is known of what it may mean. -/
theorem BoundAll.named {seen new : List Occurrence} (h : BoundAll seen new)
    (hquiet : ∀ occurrence ∈ new, occurrence.problem? = none)
    (hseen : ∀ decl ∈ seen, decl.declared.isSome = true → decl.ident.Named)
    (hfree : ∀ occurrence ∈ new, ∀ ty, occurrence.declared = some ty → ty.errorFree = true) :
    AllNamed new := by
  induction new generalizing seen with
  | nil => exact fun _ hmem => absurd hmem List.not_mem_nil
  | cons occurrence rest ih =>
    rw [List.forall_mem_cons] at hquiet hfree
    have hnamed := h.1.named hquiet.1 hseen hfree.1
    refine List.forall_mem_cons.mpr ⟨hnamed, ih h.2 hquiet.2 ?_ hfree.2⟩
    rw [List.forall_mem_append, List.forall_mem_singleton]
    exact ⟨hseen, fun _ => hnamed⟩

/-- Resolution without problems gives every name a type without an `error`, if only such types are
declared. -/
theorem Tree.named_of_resolve {tree : Tree} {nextId : Nat}
    (hquiet : (tree.resolve nextId).2.errors = [])
    (hfree : ∀ ty ∈ tree.declaredTypes, ty.errorFree = true) :
    AllNamed (tree.resolve nextId).1.occurrences := by
  obtain ⟨n, h⟩ := tree.extends_resolve nextId
  have herrors := h.errors
  rw [hquiet] at herrors
  have hproblems := List.filterMap_eq_nil_iff.mp (List.append_eq_nil_iff.mp herrors.symm).2
  have hruntime : ∀ decl ∈ runtimeDeclarations nextId,
      decl.declared.isSome = true → decl.ident.Named := by
    intro decl hdecl _
    obtain ⟨⟨⟨name, ty⟩, index⟩, hmem, rfl⟩ := List.mem_map.mp hdecl
    have hbuiltins : ∀ entry ∈ builtins, entry.2.errorFree = true := by decide
    exact ⟨ty, rfl, hbuiltins (name, ty) (List.fst_mem_of_mem_zipIdx hmem)⟩
  refine h.bound.named hproblems hruntime fun occurrence hmem ty hty => ?_
  -- the types that are declared are in the tree before it is resolved
  have hbare : occurrence.bare ∈ tree.occurrences.map Occurrence.bare := by
    rw [← h.same]
    exact List.mem_map_of_mem hmem
  obtain ⟨origin, horigin, hsame⟩ := List.mem_map.mp hbare
  have hdeclared : origin.declared = some ty := (congrArg Occurrence.declared hsame).trans hty
  exact hfree ty (List.mem_filterMap.mpr ⟨origin, horigin, hdeclared⟩)

/-- Checking accepts exactly the well-typed trees, among those whose names are resolved without
problems and whose declared types have no `error` in them.

Both directions are of use. Programs that are accepted are well typed, so later passes may rely on
the rules; and a program that is well typed is not refused, so there is no report without a reason.
-/
theorem Tree.diagnose_eq_nil_iff_wellTyped {tree : Tree} {nextId : Nat}
    (hquiet : (tree.resolve nextId).2.errors = [])
    (hfree : ∀ ty ∈ tree.declaredTypes, ty.errorFree = true) :
    (tree.resolve nextId).1.diagnose = [] ↔ (tree.resolve nextId).1.WellTyped :=
  Tree.diagnose_eq_nil_iff (Tree.named_of_resolve hquiet hfree)

/-- A function that looks for a number in an array, with a second operand that negation ignores.
With `limit` for the type of the second parameter. -/
def lookupTree (limit : Ty) : Tree :=
  let name (text : String) : Ident := { name := text }
  let var (text : String) : Expr := .var {} (name text)
  let less : Expr := .binary {} (.compare .lt) (var "i") (var "limit")
  { items :=
      [.global { ident := name "row", declared := .array .int 8 },
        .function
          { ident := name "find", ret := .int
            params := [{ ident := name "wanted", declared := .int },
              { ident := name "limit", declared := limit }]
            body := { stmts :=
              [.declare {} { ident := name "i", declared := .int },
                .loop {} { location := var "i", value := .int {} 0 }
                  (.binary {} (.connect .and) less (.binary {} .negate
                    (.bool {} false) (var "find")))
                  { location := var "i", value := .binary {} (.arith .add) (var "i") (.int {} 1) }
                  { stmts :=
                    [.ifElse {} (.binary {} (.compare .eq) (.index {} (name "row") (var "i"))
                        (var "wanted"))
                      { stmts := [.ret {} (some (var "i")), .leave {}] } { stmts := [] }] },
                .ret {} (some (.int {} (-1)))] } }] }

/-- Both sides, and both outcomes: with an integer to look for the function is well typed, and with
a boolean it is not. -/
theorem Tree.diagnose_eq_nil_iff_wellTyped_lookup :
    (((lookupTree .int).resolve 0).2.errors = [] ∧ ((lookupTree .int).resolve 0).1.WellTyped) ∧
      ((lookupTree .bool).resolve 0).2.errors = [] ∧
        ¬ ((lookupTree .bool).resolve 0).1.WellTyped := by
  have hquiet : ((lookupTree .int).resolve 0).2.errors = [] := by decide +kernel
  have hquiet' : ((lookupTree .bool).resolve 0).2.errors = [] := by decide +kernel
  have hfits := Tree.diagnose_eq_nil_iff_wellTyped hquiet (by decide +kernel)
  have hfaulty := Tree.diagnose_eq_nil_iff_wellTyped hquiet' (by decide +kernel)
  exact ⟨⟨hquiet, hfits.mp (by decide +kernel)⟩, hquiet',
    fun h => absurd (hfaulty.mpr h) (by decide +kernel)⟩

end WordLang
