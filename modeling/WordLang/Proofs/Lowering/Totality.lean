import WordLang.Compiler
import WordLang.Proofs.Lowering.Soundness
import WordLang.Proofs.Lowering.Values
import WordLang.Proofs.Typing.Annotation

/-!
# Trees without problems can be lowered

Nearly every error that lowering can end with is excluded by a check before it: a missing symbol by
resolution; a callee that is no function and a break outside of a loop by type checking. What is
left is a value that is missing, and only an argument of a call can miss one (`Expr.missing?`). No
tree has such an argument where no function has a `void` parameter.

The same argument counts the arguments of calls, which is all that validation may still complain
about. So the two things are shown together: a construct can be lowered, and if every call so far
passes the right number of arguments, then so does every call afterwards (`Builder.Matched`).

The recursion is on the tree, for any builder to start from: nothing about the builder decides
whether lowering succeeds. What is used of a construct is that its names are in scope (`Scoped`),
that nothing is reported about it, and that no argument in it misses a value. Whether an expression
has a value is then seen in its type: all but `void` ones have one (`Expr.Lowers`).
-/

namespace WordLang

/-! ## Arguments of calls

Only adding a call can add one that passes a wrong number of arguments. -/

/-- A call passes as many arguments as the callee's type has parameters. A callee whose type is not
that of a function does not matter: it was refused before. -/
def InstKind.Matched : InstKind → Prop
  | .call _ callee args =>
    ∀ params ret, callee.ty = some (.func params ret) → params.length = args.length
  | _ => True

/-- Every call so far passes the right number of arguments. Whether a call is reachable is not
asked, so the property is kept by everything but adding a call. -/
def Builder.Matched (b : Builder) : Prop :=
  ∀ (id : Nat) inst, b.inst? id = some inst → inst.kind.Matched

namespace Builder

variable {b : Builder}

/-- A new instruction has to match, and the others as well. -/
@[simp]
theorem matched_push {kind : InstKind} : (b.push kind).Matched ↔ b.Matched ∧ kind.Matched := by
  constructor
  · intro h
    refine ⟨fun id inst hinst => ?_, h b.size _ (inst?_push_size kind)⟩
    exact h id inst ((inst?_push_of_lt (lt_size hinst)).trans hinst)
  · rintro ⟨hb, hkind⟩ id inst hinst
    rw [inst?_push] at hinst
    split at hinst
    · obtain rfl := Option.some.inj hinst
      exact hkind
    · exact hb id inst hinst

/-- Edges do not matter. -/
@[simp]
theorem matched_link {source target : Nat} {edge : Edge} :
    (b.link source target edge).Matched ↔ b.Matched := by
  constructor
  · intro h id inst hinst
    by_cases heq : source = id
    · have hlinked := h id (inst.link target edge)
      rw [inst?_link, if_pos heq, hinst, Inst.kind_link] at hlinked
      exact hlinked rfl
    · exact h id inst (by rw [inst?_link, if_neg heq, hinst])
  · intro h id inst hinst
    rw [inst?_link] at hinst
    split at hinst
    · obtain ⟨old, hold, rfl⟩ := Option.map_eq_some_iff.mp hinst
      rw [Inst.kind_link]
      exact h id old hold
    · exact h id inst hinst

/-- Nor do registers. -/
@[simp]
theorem matched_takeTemp : b.takeTemp.Matched ↔ b.Matched := Iff.rfl

@[simp]
theorem matched_takeAddr : b.takeAddr.Matched ↔ b.Matched := Iff.rfl

/-- Nor does the register for a result. -/
@[simp]
theorem matched_takeResult {hasValue : Bool} :
    (b.takeResult hasValue).Matched ↔ b.Matched := by
  cases hasValue <;> exact Iff.rfl

@[simp]
theorem matched_intern {constant : Constant} : (b.intern constant).Matched ↔ b.Matched := Iff.rfl

/-- Nor do locals. -/
@[simp]
theorem matched_bindNext {symbol : Symbol} : (b.bindNext symbol).Matched ↔ b.Matched := Iff.rfl

end Builder

/-! ## Expressions

An operand that is `void` would be reported, since no operation takes one. An argument that is
`void` is not reported if the parameter is `void` too; that is the gap which `missing?` is about. -/

/-- An expression can be lowered; it has a value unless it is a call of a function that returns
nothing. The third part is the one about arguments, which is carried along because it needs the same
case distinction. -/
def Expr.Lowers (expr : Expr) (b : Builder) : Prop :=
  ∃ chain b', expr.lower b = .ok (chain, b') ∧
    (expr.isEmptyCall = false → ∃ temp, chain.value = some temp) ∧ (b.Matched → b'.Matched)

/-- It has a value if its type is not `void`. In this form the lemma is used for operands, whose
types are known from the operation. -/
theorem Expr.Lowers.of_infer {ok : Ty → Bool} {floor : Nat} {known : List SymbolId} {expr : Expr}
    {b : Builder} (h : expr.Lowers b) (hok : ∀ ty, ok ty = true → ty.isError = false)
    (hscoped : expr.Scoped ok floor known) (hclean : expr.diagnose = [])
    (hvoid : expr.infer.isVoid = false) :
    ∃ chain b', expr.lower b = .ok (chain, b') ∧ (∃ temp, chain.value = some temp) ∧
      (b.Matched → b'.Matched) := by
  obtain ⟨chain, b', hlower, hvalue, hmatched⟩ := h
  exact ⟨chain, b', hlower, hvalue (Expr.isEmptyCall_of_infer hok hscoped hclean hvoid), hmatched⟩

section

variable {ok : Ty → Bool} {floor : Nat} {known : List SymbolId}

/-- A name in scope has a symbol, whose type is the one that checking reads. -/
theorem Ident.Uses.resolved {ident : Ident} (h : ident.Uses ok floor known) :
    ∃ symbol, ident.resolved = .ok symbol ∧ symbol.ty = some ident.ty ∧ ok ident.ty = true := by
  obtain ⟨symbol, hsymbol, hfault, hty, hok⟩ := h.exists_symbol
  exact ⟨symbol, Ident.resolved_eq_ok.mpr ⟨hsymbol, hfault⟩, hty, hok⟩

/-- A name in scope has a value, also one that is declared `void`: there is a register for it, or a
word in memory. -/
theorem Lower.varValue_total {ident : Ident} (h : ident.Uses ok floor known) (b : Builder) :
    ∃ chain b', Lower.varValue ident b = .ok (chain, b') ∧ (∃ temp, chain.value = some temp) ∧
      (b.Matched → b'.Matched) := by
  obtain ⟨symbol, hsymbol, -⟩ := h.resolved
  rcases hlocal : b.locals.lookup symbol.id with _ | temp
  · refine ⟨_, _, Lower.varValue_eq_ok.mpr ⟨symbol, hsymbol, .inr ⟨hlocal, rfl, rfl⟩⟩, ⟨_, rfl⟩, ?_⟩
    intro hb
    simp [hb, InstKind.Matched]
  · refine ⟨_, _, Lower.varValue_eq_ok.mpr ⟨symbol, hsymbol, .inl ⟨temp, hlocal, rfl, rfl⟩⟩,
      ⟨_, rfl⟩, ?_⟩
    intro hb
    simp [hb, InstKind.Matched]

mutual

/-- An expression without problems can be lowered. The builder that a part starts from is that of
the part before, so each case first lowers its parts in order and then gives the result that the
inversion lemma asks for. -/
theorem Expr.lowers (hok : ∀ ty, ok ty = true → ty.isError = false) : ∀ {expr : Expr},
    expr.Scoped ok floor known → expr.diagnose = [] → expr.missing? = none → ∀ b, expr.Lowers b
  | .int _ _, _, _, _, b => by
    refine ⟨_, _, Expr.lower_int_eq_ok.mpr ⟨rfl, rfl⟩, fun _ => ⟨_, rfl⟩, fun hb => ?_⟩
    simp [hb, InstKind.Matched]
  | .bool _ _, _, _, _, b => by
    refine ⟨_, _, Expr.lower_bool_eq_ok.mpr ⟨rfl, rfl⟩, fun _ => ⟨_, rfl⟩, fun hb => ?_⟩
    simp [hb, InstKind.Matched]
  | .var _ ident, hscoped, _, _, b => by
    obtain ⟨chain, b', hlower, hvalue, hmatched⟩ := Lower.varValue_total hscoped b
    exact ⟨chain, b', hlower, fun _ => hvalue, hmatched⟩
  | .index info base position, hscoped, h, hnone, b => by
    have hty := Ty.of_index (Expr.isError_infer hok hscoped h)
    obtain ⟨hinner, -⟩ := List.append_eq_nil_iff.mp h
    rw [Expr.missing?] at hnone
    obtain ⟨symbol, hsymbol, -⟩ := hscoped.1.resolved
    obtain ⟨index, b₁, hindex, ⟨offset, hoffset⟩, hmatched⟩ :=
      (Expr.lowers hok hscoped.2 hinner hnone b).of_infer hok hscoped.2 hinner (by rw [hty]; rfl)
    refine ⟨_, _, Expr.lower_index_eq_ok.mpr ⟨symbol, hsymbol, index, b₁, hindex, offset, hoffset,
      rfl, rfl⟩, fun _ => ⟨_, rfl⟩, fun hb => ?_⟩
    simp [hmatched hb, InstKind.Matched]
  | .call info callee args, hscoped, h, hnone, b => by
    -- no problem was reported, so the callee is a function and the arguments have the types of its
    -- parameters
    obtain ⟨params, ret, hcallee, hargs, -⟩ := Ty.of_call (Expr.isError_infer hok hscoped h)
    obtain ⟨hinner, -⟩ := List.append_eq_nil_iff.mp h
    rw [Expr.missing?] at hnone
    obtain ⟨symbol, hsymbol, hty, -⟩ := hscoped.1.resolved
    rw [hcallee] at hty
    obtain ⟨temps, last, b₁, hlower, hlength, hmatched⟩ :=
      Expr.lowersAll hok hscoped.2 hinner hnone b.size (b.push .nop)
    refine ⟨_, _, Expr.lower_call_eq_ok.mpr ⟨symbol, hsymbol, params, ret, hty, temps, last, b₁,
      hlower, rfl, rfl⟩, fun hvoid => ?_, fun hb => ?_⟩
    · rw [Expr.isEmptyCall, hcallee] at hvoid
      have hvalue : ret.isVoid = false := hvoid
      rw [hvalue]
      exact ⟨_, rfl⟩
    -- as many arguments as parameters, since their types were compared one by one
    · have hcount : InstKind.Matched (.call (b₁.result (!ret.isVoid)) symbol temps) := by
        intro params' ret' hty'
        rw [hty] at hty'
        cases hty'
        rw [Ty.length_eq_of_equivalentList hargs, Expr.inferAll_eq_map, List.length_map, hlength]
      simp [hmatched (by simp [hb, InstKind.Matched]), hcount]
  | .unary info op operand, hscoped, h, hnone, b => by
    have hclean := Expr.isError_infer hok hscoped h
    obtain ⟨hinner, -⟩ := List.append_eq_nil_iff.mp h
    have hscoped' : operand.Scoped ok floor known := hscoped
    rw [Expr.missing?] at hnone
    cases op with
    | negate =>
      obtain ⟨left, b₁, hoperand, ⟨value, hvalue⟩, hmatched⟩ :=
        (Expr.lowers hok hscoped' hinner hnone b).of_infer hok hscoped' hinner
          (by rw [Ty.of_negate hclean]; rfl)
      refine ⟨_, _, Expr.lower_unary_eq_ok.mpr ⟨left, b₁, hoperand, value, hvalue, rfl, rfl, rfl⟩,
        fun _ => ⟨_, rfl⟩, fun hb => ?_⟩
      simp [hmatched hb, InstKind.Matched]
    | _ => cases hclean
  | .binary info op left right, hscoped, h, hnone, b => by
    obtain ⟨hvoidLeft, hvoidRight⟩ := Ty.isVoid_of_binaryTy (Expr.isError_infer hok hscoped h)
    obtain ⟨hinner, -⟩ := List.append_eq_nil_iff.mp h
    obtain ⟨hinnerLeft, hinnerRight⟩ := List.append_eq_nil_iff.mp hinner
    obtain ⟨hnoneLeft, hnoneRight⟩ := Expr.missing?_of_binary hnone
    obtain ⟨l, b₁, hl, ⟨value, hvalue⟩, hmatched⟩ :=
      (Expr.lowers hok hscoped.1 hinnerLeft hnoneLeft b).of_infer hok hscoped.1 hinnerLeft hvoidLeft
    -- where the right operand is lowered depends on the operation
    have hright : op ≠ .negate → ∀ mid, ∃ r b₂, right.lower mid = .ok (r, b₂) ∧
        (∃ temp, r.value = some temp) ∧ (mid.Matched → b₂.Matched) := fun hop mid =>
      (Expr.lowers hok hscoped.2 hinnerRight (hnoneRight hop) mid).of_infer hok hscoped.2
        hinnerRight (hvoidRight hop)
    cases op with
    | negate =>
      refine ⟨_, _, Expr.lower_negate_eq_ok.mpr ⟨l, b₁, hl, value, hvalue, rfl, rfl⟩,
        fun _ => ⟨_, rfl⟩, fun hb => ?_⟩
      simp [hmatched hb, InstKind.Matched]
    | arith op =>
      obtain ⟨r, b₂, hr, ⟨value', hvalue'⟩, hmatched'⟩ := hright nofun b₁
      refine ⟨_, _, Expr.lower_arith_eq_ok.mpr ⟨l, b₁, hl, value, hvalue, r, b₂, hr,
        value', hvalue', rfl, rfl⟩, fun _ => ⟨_, rfl⟩, fun hb => ?_⟩
      simp [hmatched' (hmatched hb), InstKind.Matched]
    | compare op =>
      obtain ⟨r, b₂, hr, ⟨value', hvalue'⟩, hmatched'⟩ := hright nofun b₁
      refine ⟨_, _, Expr.lower_compare_eq_ok.mpr ⟨l, b₁, hl, value, hvalue, r, b₂, hr, value',
        hvalue', rfl, rfl⟩, fun _ => ⟨_, rfl⟩, fun hb => ?_⟩
      simp [hmatched' (hmatched hb), InstKind.Matched]
    | connect op =>
      obtain ⟨r, b₂, hr, ⟨value', hvalue'⟩, hmatched'⟩ := hright nofun
        (((b₁.push (.jump value)).link l.exit b₁.size .next).takeTemp.push
          (.copy b₁.nextTemp (.temp value)))
      refine ⟨_, _, Expr.lower_connect_eq_ok.mpr ⟨l, b₁, hl, value, hvalue, r, b₂, hr, value',
        hvalue', rfl, rfl⟩, fun _ => ⟨_, rfl⟩, fun hb => ?_⟩
      simp [hmatched' (by simp [hmatched hb, InstKind.Matched]), InstKind.Matched]

/-- So can arguments without problems, and there is a register for each of them. An argument that
misses its value is excluded by assumption and by nothing else. -/
theorem Expr.lowersAll (hok : ∀ ty, ok ty = true → ty.isError = false) :
    ∀ {args : List Expr}, Expr.ScopedAll ok floor known args → Expr.diagnoseAll args = [] →
    Expr.missingArg? args = none → ∀ exit b,
      ∃ temps last b', Expr.lowerArgs exit args b = .ok ((temps, last), b') ∧
        temps.length = args.length ∧ (b.Matched → b'.Matched)
  | [], _, _, _, exit, b =>
    ⟨[], exit, b, Expr.lowerArgs_nil_eq_ok.mpr ⟨rfl, rfl, rfl⟩, rfl, fun hb => hb⟩
  | arg :: rest, hscoped, h, hnone, exit, b => by
    obtain ⟨hfirst, hothers⟩ := List.append_eq_nil_iff.mp h
    obtain ⟨hinner, hcall, hnone⟩ := Expr.missingArg?_cons_eq_none.mp hnone
    obtain ⟨first, b₁, hlower, hvalue, hmatched⟩ := Expr.lowers hok hscoped.1 hfirst hinner b
    obtain ⟨temp, htemp⟩ := hvalue hcall
    obtain ⟨temps, last, b', hrest, hlength, hmatched'⟩ := Expr.lowersAll hok hscoped.2
      hothers hnone first.exit (b₁.link exit first.entry .next)
    refine ⟨temp :: temps, last, b', Expr.lowerArgs_cons_eq_ok.mpr ⟨first, b₁, hlower, temp, htemp,
      temps, hrest, rfl⟩, congrArg (· + 1) hlength, fun hb => ?_⟩
    exact hmatched' (by simp [hmatched hb])

end

/-! ## Statements

What a statement needs besides its expressions: a place to assign to, a symbol for a declaration,
and a loop around a break. The place to break to is there whenever checking thinks that there is a
loop. -/

/-- What is asked of the value of an assignment without problems: that it is not `void`, because a
location of that type cannot be assigned to. -/
theorem Assignment.isVoid_of_diagnose (hok : ∀ ty, ok ty = true → ty.isError = false)
    {assignment : Assignment} (hscoped : assignment.Scoped ok floor known)
    (h : assignment.diagnose = []) :
    assignment.location.infer.isError = false ∧ assignment.value.infer.isVoid = false := by
  obtain ⟨-, hlocation, hvalue⟩ := hscoped
  obtain ⟨hinner, h⟩ := List.append_eq_nil_iff.mp h
  obtain ⟨hinnerLocation, hinnerValue⟩ := List.append_eq_nil_iff.mp hinner
  refine Ty.of_assign (Ty.isError_of_reportAt h ?_)
  rw [List.forall_mem_cons, List.forall_mem_singleton]
  exact ⟨Expr.isError_infer hok hlocation hinnerLocation,
    Expr.isError_infer hok hvalue hinnerValue⟩

/-- An assignment without problems can be lowered. What stands on its left is a variable or an
element; anything else would have been reported. -/
theorem Assignment.lowers (hok : ∀ ty, ok ty = true → ty.isError = false) {assignment : Assignment}
    (hscoped : assignment.Scoped ok floor known) (h : assignment.diagnose = [])
    (hnone : assignment.missing? = none) (b : Builder) :
    ∃ chain b', assignment.lower b = .ok (chain, b') ∧ (b.Matched → b'.Matched) := by
  obtain ⟨hcleanLocation, hvoid⟩ := Assignment.isVoid_of_diagnose hok hscoped h
  obtain ⟨info, location, value⟩ := assignment
  obtain ⟨hplace, hlocation, hvalue⟩ := hscoped
  obtain ⟨hinner, -⟩ := List.append_eq_nil_iff.mp h
  obtain ⟨hinnerLocation, hinnerValue⟩ := List.append_eq_nil_iff.mp hinner
  obtain ⟨hnoneLocation, hnoneValue⟩ := Option.or_eq_none_iff.mp hnone
  have hlowers := fun b => (Expr.lowers hok hvalue hinnerValue hnoneValue b).of_infer hok hvalue
    hinnerValue hvoid
  cases location with
  | var place ident =>
    have hident : ident.Uses ok floor known := hlocation
    obtain ⟨symbol, hsymbol, -⟩ := hident.resolved
    obtain ⟨v, b₁, hv, ⟨src, hsrc⟩, hmatched⟩ := hlowers b
    rcases hlocal : b.locals.lookup symbol.id with _ | dst
    · refine ⟨_, _, Assignment.lower_var_eq_ok.mpr ⟨symbol, hsymbol, v, b₁, hv, src, hsrc,
        .inr ⟨hlocal, rfl, rfl⟩⟩, fun hb => ?_⟩
      simp [hmatched hb, InstKind.Matched]
    · refine ⟨_, _, Assignment.lower_var_eq_ok.mpr ⟨symbol, hsymbol, v, b₁, hv, src, hsrc,
        .inl ⟨dst, hlocal, rfl, rfl⟩⟩, fun hb => ?_⟩
      simp [hmatched hb, InstKind.Matched]
  | index place base position =>
    have hty := Ty.of_index hcleanLocation
    obtain ⟨hinnerPosition, -⟩ := List.append_eq_nil_iff.mp hinnerLocation
    obtain ⟨symbol, hsymbol, -⟩ := hlocation.1.resolved
    obtain ⟨index, b₁, hindex, ⟨offset, hoffset⟩, hmatched⟩ :=
      (Expr.lowers hok hlocation.2 hinnerPosition hnoneLocation b).of_infer hok hlocation.2
        hinnerPosition (by rw [hty]; rfl)
    obtain ⟨v, b₂, hv, ⟨src, hsrc⟩, hmatched'⟩ :=
      hlowers (b₁.takeAddr.push (.addressAt b₁.nextAddr symbol (some offset)))
    refine ⟨_, _, Assignment.lower_index_eq_ok.mpr ⟨symbol, hsymbol, index, b₁, hindex, offset,
      hoffset, v, b₂, hv, src, hsrc, rfl, rfl⟩, fun hb => ?_⟩
    simp [hmatched' (by simp [hmatched hb, InstKind.Matched]), InstKind.Matched]
  | _ => cases hplace

/-- A name that is declared has a symbol. -/
theorem Ident.Declares.resolved {ident : Ident} (h : ident.Declares floor known) :
    ∃ symbol, ident.resolved = .ok symbol := by
  obtain ⟨symbol, hsymbol, hfault, -⟩ := h
  exact ⟨symbol, Ident.resolved_eq_ok.mpr ⟨hsymbol, hfault⟩⟩

mutual

/-- A statement without problems can be lowered. A break outside of a loop is a problem, so where
there is none, there is a place to break to. -/
theorem Stmt.lowers (hok : ∀ ty, ok ty = true → ty.isError = false) {ret : Ty} : ∀ {stmt : Stmt}
    {known : List SymbolId} {inLoop : Bool} {out : Option InstId}, stmt.Scoped ok floor known →
    stmt.diagnose ret inLoop = [] → stmt.missing? = none →
    (inLoop = true → ∃ target, out = some target) → ∀ b,
      ∃ chain b', stmt.lower out b = .ok (chain, b') ∧ (b.Matched → b'.Matched)
  | .declare info decl, known, inLoop, out, hscoped, h, _, hout, b => by
    have hdeclares : decl.ident.Declares floor known := hscoped
    obtain ⟨symbol, hsymbol⟩ := hdeclares.resolved
    refine ⟨_, _, Stmt.lower_declare_eq_ok.mpr ⟨symbol, hsymbol, rfl, rfl⟩, fun hb => ?_⟩
    simp [hb, InstKind.Matched]
  | .assign info assignment, known, inLoop, out, hscoped, h, hnone, hout, b => by
    rw [Stmt.lower_assign]
    exact Assignment.lowers hok hscoped h hnone b
  | .call info callee args, known, inLoop, out, hscoped, h, hnone, hout, b => by
    have hcall : (Expr.call info callee args).Scoped ok floor known := hscoped
    obtain ⟨chain, b', hlower, -, hmatched⟩ := Expr.lowers hok hcall h hnone b
    rw [Stmt.lower_call]
    exact ⟨chain, b', hlower, hmatched⟩
  | .ifElse info cond onTrue onFalse, known, inLoop, out, hscoped, h, hnone, hout, b => by
    obtain ⟨hcond, htrue, hfalse⟩ := hscoped
    obtain ⟨h, hcleanFalse⟩ := List.append_eq_nil_iff.mp h
    obtain ⟨hcleanCond, hcleanTrue⟩ := List.append_eq_nil_iff.mp h
    obtain ⟨hnoneCond, hnone⟩ := Option.or_eq_none_iff.mp hnone
    obtain ⟨hnoneTrue, hnoneFalse⟩ := Option.or_eq_none_iff.mp hnone
    obtain ⟨hinner, hvoid⟩ := Expr.infer_of_diagnoseCondition hok hcond hcleanCond
    obtain ⟨c, b₁, hc, ⟨value, hvalue⟩, hmatched⟩ :=
      (Expr.lowers hok hcond hinner hnoneCond b).of_infer hok hcond hinner hvoid
    obtain ⟨trueExit, b₂, hlowerTrue, hmatched₁⟩ := Stmt.lowersAll hok htrue hcleanTrue hnoneTrue
      hout (b₁.size + 1) (((b₁.push (.jump value)).link c.exit b₁.size .next).push .nop)
    obtain ⟨falseExit, b₃, hlowerFalse, hmatched₂⟩ := Stmt.lowersAll hok hfalse hcleanFalse
      hnoneFalse hout b₂.size (b₂.push .nop)
    refine ⟨_, _, Stmt.lower_ifElse_eq_ok.mpr ⟨c, b₁, hc, value, hvalue, trueExit, b₂, hlowerTrue,
      falseExit, b₃, hlowerFalse, rfl, rfl⟩, fun hb => ?_⟩
    have hb₂ : b₂.Matched := hmatched₁ (by simp [hmatched hb, InstKind.Matched])
    simp [hmatched₂ (by simp [hb₂, InstKind.Matched]), InstKind.Matched]
  | .loop info init cond increment body, known, inLoop, out, hscoped, h, hnone, hout, b => by
    obtain ⟨hinit, hcond, hincrement, hbody⟩ := hscoped
    obtain ⟨h, hcleanBody⟩ := List.append_eq_nil_iff.mp h
    obtain ⟨h, hcleanStep⟩ := List.append_eq_nil_iff.mp h
    obtain ⟨hcleanInit, hcleanCond⟩ := List.append_eq_nil_iff.mp h
    obtain ⟨hnoneInit, hnone⟩ := Option.or_eq_none_iff.mp hnone
    obtain ⟨hnoneCond, hnone⟩ := Option.or_eq_none_iff.mp hnone
    obtain ⟨hnoneBody, hnoneStep⟩ := Option.or_eq_none_iff.mp hnone
    obtain ⟨hinner, hvoid⟩ := Expr.infer_of_diagnoseCondition hok hcond hcleanCond
    obtain ⟨i, b₁, hi, hmatched₀⟩ := Assignment.lowers hok hinit hcleanInit hnoneInit b
    obtain ⟨c, b₂, hc, ⟨value, hvalue⟩, hmatched₁⟩ :=
      (Expr.lowers hok hcond hinner hnoneCond b₁).of_infer hok hcond hinner hvoid
    obtain ⟨bodyExit, b₃, hlowerBody, hmatched₂⟩ := Stmt.lowersAll hok hbody hcleanBody hnoneBody
      -- breaks of the body lead to the end of this loop
      (fun _ => ⟨b₂.size + 1, rfl⟩) (b₂.size + 2)
      (((((b₂.push (.jump value)).push .nop).link i.exit c.entry .next).link
        c.exit b₂.size .next).push .nop)
    obtain ⟨step, b₄, hstep, hmatched₃⟩ := Assignment.lowers hok hincrement hcleanStep hnoneStep b₃
    refine ⟨_, _, Stmt.lower_loop_eq_ok.mpr ⟨i, b₁, hi, c, b₂, hc, value, hvalue, bodyExit, b₃,
      hlowerBody, step, b₄, hstep, rfl, rfl⟩, fun hb => ?_⟩
    have hb₂ : b₂.Matched := hmatched₁ (hmatched₀ hb)
    simp [hmatched₃ (hmatched₂ (by simp [hb₂, InstKind.Matched]))]
  | .leave info, known, inLoop, out, _, h, _, hout, b => by
    cases inLoop with
    | false => cases h
    | true =>
      obtain ⟨target, htarget⟩ := hout rfl
      refine ⟨_, _, Stmt.lower_leave_eq_ok.mpr ⟨target, htarget, rfl, rfl⟩, fun hb => ?_⟩
      simp [hb, InstKind.Matched]
  | .ret info none, known, inLoop, out, _, _, _, _, b => by
    refine ⟨_, _, Stmt.lower_ret_none_eq_ok.mpr ⟨rfl, rfl⟩, fun hb => ?_⟩
    simp [hb, InstKind.Matched]
  | .ret info (some value), known, inLoop, out, hscoped, h, hnone, _, b => by
    have hscoped' : value.Scoped ok floor known := hscoped
    obtain ⟨hinner, -⟩ := List.append_eq_nil_iff.mp h
    obtain ⟨v, b₁, hv, -, hmatched⟩ := Expr.lowers hok hscoped' hinner hnone b
    refine ⟨_, _, Stmt.lower_ret_some_eq_ok.mpr ⟨v, b₁, hv, rfl, rfl⟩, fun hb => ?_⟩
    simp [hmatched hb, InstKind.Matched]

/-- So can a block. -/
theorem Stmt.lowersAll (hok : ∀ ty, ok ty = true → ty.isError = false) {ret : Ty} :
    ∀ {stmts : List Stmt} {known : List SymbolId} {inLoop : Bool} {out : Option InstId},
    Stmt.ScopedAll ok floor known stmts → Stmt.diagnoseAll ret inLoop stmts = [] →
    Stmt.missingIn? stmts = none → (inLoop = true → ∃ target, out = some target) → ∀ exit b,
      ∃ last b', Stmt.lowerAll out exit stmts b = .ok (last, b') ∧ (b.Matched → b'.Matched)
  | [], known, inLoop, out, _, _, _, _, exit, b =>
    ⟨exit, b, Stmt.lowerAll_nil_eq_ok.mpr ⟨rfl, rfl⟩, fun hb => hb⟩
  | stmt :: rest, known, inLoop, out, hscoped, h, hnone, hout, exit, b => by
    obtain ⟨hfirst, hothers⟩ := List.append_eq_nil_iff.mp h
    obtain ⟨hnoneFirst, hnoneOthers⟩ := Option.or_eq_none_iff.mp hnone
    obtain ⟨first, b₁, hlower, hmatched⟩ := Stmt.lowers hok hscoped.1 hfirst hnoneFirst hout b
    obtain ⟨last, b', hrest, hmatched'⟩ := Stmt.lowersAll hok hscoped.2 hothers hnoneOthers hout
      first.exit (b₁.link exit first.entry .next)
    refine ⟨last, b', Stmt.lowerAll_cons_eq_ok.mpr ⟨first, b₁, hlower, hrest⟩, fun hb => ?_⟩
    exact hmatched' (by simp [hmatched hb])

end

/-! ## Programs

Functions are lowered one after the other, with the constants of those before. None of them depends
on what became of the others. -/

/-- Every call of a routine passes the right number of arguments. This is what is left of
`Builder.Matched` when the routine is done. -/
def Routine.Matched (routine : Routine) : Prop :=
  ∀ (id : Nat) inst, routine.insts[id]? = some inst → inst.kind.Matched

/-- Parameters that are in scope can be lowered. -/
theorem Param.lowers : ∀ {params : List Param} {known : List SymbolId},
    Param.ScopedAll floor known params → ∀ b,
      ∃ temps b', Param.lowerAll params b = .ok (temps, b') ∧ (b.Matched → b'.Matched)
  | [], _, _, b => ⟨[], b, Param.lowerAll_nil_eq_ok.mpr ⟨rfl, rfl⟩, fun hb => hb⟩
  | param :: rest, known, hscoped, b => by
    obtain ⟨symbol, hsymbol⟩ := hscoped.1.resolved
    obtain ⟨temps, b', hrest, hmatched⟩ := Param.lowers hscoped.2 (b.bindNext symbol)
    refine ⟨b.nextTemp :: temps, b',
      Param.lowerAll_cons_eq_ok.mpr ⟨symbol, hsymbol, temps, hrest, rfl⟩, fun hb => ?_⟩
    exact hmatched (Builder.matched_bindNext.mpr hb)

/-- A function without problems can be lowered, and its calls pass the right number of arguments.
The constants of the functions before it do not matter, only that there are some. -/
theorem FunDef.lowers (hok : ∀ ty, ok ty = true → ty.isError = false) {definition : FunDef}
    (hscoped : definition.Scoped ok) (h : definition.diagnose = [])
    (hnone : Stmt.missingIn? definition.body.stmts = none) (constants : List Constant) :
    ∃ routine pool, definition.lower constants = .ok (routine, pool) ∧ routine.Matched := by
  obtain ⟨⟨symbol, hsymbol, hfault⟩, floor, hparams, hbody⟩ := hscoped
  have hclean := FunDef.diagnoseAll_of_diagnose h
  have hstart : (Builder.start constants symbol.name definition.ty).Matched := by
    intro id inst hinst
    have hmem := Array.mem_of_getElem? hinst
    obtain rfl := Array.mem_singleton.mp hmem
    trivial
  obtain ⟨args, b₁, hargs, hmatched⟩ :=
    Param.lowers hparams (.start constants symbol.name definition.ty)
  obtain ⟨last, b₂, hlower, hmatched'⟩ := Stmt.lowersAll hok hbody hclean hnone
    (fun hloop => nomatch hloop) b₁.routine.start (b₁.withArgs args)
  refine ⟨b₂.routine, b₂.constants, FunDef.lower_eq_ok.mpr ⟨symbol, Ident.resolved_eq_ok.mpr
    ⟨hsymbol, hfault⟩, args, b₁, hargs, last, b₂, hlower, rfl, rfl⟩, hmatched' ?_⟩
  exact hmatched hstart

/-- A top declaration without problems can be lowered, in any program whose calls match so far. A
global needs nothing but its symbol. -/
theorem Item.lowers (hok : ∀ ty, ok ty = true → ty.isError = false) {item : Item}
    (hscoped : item.Scoped ok) (h : item.diagnose = []) (hnone : item.missing? = none)
    {program : Program} (hprogram : ∀ routine ∈ program.routines, routine.Matched) :
    ∃ program', item.lower program = .ok program' ∧
      (∀ routine ∈ program'.routines, routine.Matched) := by
  cases item with
  | global decl =>
    obtain ⟨symbol, hsymbol, hfault⟩ := hscoped
    exact ⟨_, Item.lower_global_eq_ok.mpr ⟨symbol, Ident.resolved_eq_ok.mpr ⟨hsymbol, hfault⟩, rfl⟩,
      hprogram⟩
  | function definition =>
    obtain ⟨routine, pool, hlower, hmatched⟩ := FunDef.lowers hok hscoped h hnone program.constants
    refine ⟨_, Item.lower_function_eq_ok.mpr ⟨routine, pool, hlower, rfl⟩, ?_⟩
    intro other hother
    rcases List.mem_append.mp hother with hmem | hmem
    · exact hprogram other hmem
    · obtain rfl := List.mem_singleton.mp hmem
      exact hmatched

/-- So can all items of a tree. -/
theorem Item.lowersAll (hok : ∀ ty, ok ty = true → ty.isError = false) {items : List Item}
    (hscoped : ∀ item ∈ items, item.Scoped ok) (h : ∀ item ∈ items, item.diagnose = [])
    (hnone : ∀ item ∈ items, item.missing? = none)
    {program : Program} (hprogram : ∀ routine ∈ program.routines, routine.Matched) :
    ∃ program', items.foldlM Item.lower program = .ok program' ∧
      (∀ routine ∈ program'.routines, routine.Matched) := by
  induction items generalizing program with
  | nil => exact ⟨program, rfl, hprogram⟩
  | cons item rest ih =>
    rw [List.forall_mem_cons] at hscoped h hnone
    obtain ⟨mid, hitem, hmid⟩ := Item.lowers hok hscoped.1 h.1 hnone.1 hprogram
    obtain ⟨program', hrest, hmatched⟩ := ih hscoped.2 h.2 hnone.2 hmid
    exact ⟨program', Item.lowerAll_cons_eq_ok.mpr ⟨mid, hitem, hrest⟩, hmatched⟩

end

/-! ## Validation

Lowering gives sound routines, whatever it is given. What soundness leaves open is the number of
arguments, and that has just been counted. -/

/-- A call that matches has no violation of this kind. -/
theorem Inst.arityViolation?_eq_none {inst : Inst} (h : inst.kind.Matched) (site : Site) :
    inst.arityViolation? site = none := by
  unfold Inst.arityViolation?
  split
  · next dst callee args hkind =>
    rw [hkind] at h
    split
    · next params ret hty => rw [if_pos (h params ret hty)]
    · rfl
  · rfl

/-- A sound routine whose calls match has no violation at all. -/
theorem Routine.Sound.violation?_eq_none {constants : List Constant} {routine : Routine}
    (h : routine.Sound constants) (hmatched : routine.Matched) :
    routine.violation? constants = none := by
  rcases hv : routine.violation? constants with _ | violation
  · rfl
  · obtain ⟨id, inst, site, hinst, harity⟩ := h.exists_arityViolation? hv
    rw [Inst.arityViolation?_eq_none (hmatched id inst hinst)] at harity
    cases harity

/-- A tree without problems, in which no argument misses a value, has a valid program. Lowering
gives a sound one, and the arguments have been counted. -/
theorem Tree.lowers_of_missing? {ok : Ty → Bool} (hok : ∀ ty, ok ty = true → ty.isError = false)
    (hbuiltins : ∀ entry ∈ builtins, ok entry.2 = true) {tree : Tree} {nextId : Nat}
    (hplain : tree.items.all (Item.plain ok) = true)
    (hclean : (tree.check nextId).diagnostics = [])
    (hnone : (tree.resolve nextId).1.missing? = none) :
    ∃ program, (tree.check nextId).tree.lower = .ok program ∧ program.violation? = none := by
  obtain ⟨hnames, htypes⟩ := List.append_eq_nil_iff.mp hclean
  obtain ⟨hscoped, -⟩ := Tree.scoped_of_resolve hbuiltins hplain hnames
  have hempty : ∀ routine ∈ ({} : Program).routines, routine.Matched :=
    fun _ hmem => absurd hmem List.not_mem_nil
  obtain ⟨program, hlower, hmatched⟩ := Item.lowersAll hok hscoped
    (List.flatMap_eq_nil_iff.mp htypes) (List.findSome?_eq_none_iff.mp hnone) hempty
  have hlower : (tree.check nextId).tree.lower = .ok program :=
    (Tree.lower_annotate _).trans hlower
  refine ⟨program, hlower, List.findSome?_eq_none_iff.mpr fun routine hroutine => ?_⟩
  exact (Tree.sound_of_lower hlower routine hroutine).violation?_eq_none (hmatched routine hroutine)

/-- A tree without problems, whose declared types are regular, has a valid program. Regular types
have no `void` parameters, so an argument that is `void` would have been reported. -/
theorem Tree.lowers_of_clean {ok : Ty → Bool} (hok : Ty.Regular ok)
    (hbuiltins : ∀ entry ∈ builtins, ok entry.2 = true) {tree : Tree} {nextId : Nat}
    (hplain : tree.items.all (Item.plain ok) = true)
    (hclean : (tree.check nextId).diagnostics = []) :
    ∃ program, (tree.check nextId).tree.lower = .ok program ∧ program.violation? = none := by
  obtain ⟨hnames, htypes⟩ := List.append_eq_nil_iff.mp hclean
  obtain ⟨hscoped, -⟩ := Tree.scoped_of_resolve hbuiltins hplain hnames
  refine Tree.lowers_of_missing? hok.clean hbuiltins hplain hclean ?_
  refine List.findSome?_eq_none_iff.mpr fun item hitem => ?_
  exact Item.missing?_eq_none hok (hscoped item hitem)
    (List.flatMap_eq_nil_iff.mp htypes item hitem)

end WordLang
