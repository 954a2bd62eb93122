import WordLang.Proofs.Pipeline
import WordLang.Proofs.Typing.Equivalence

/-!
# Where lowering fails

A tree without problems fails to lower exactly when a call passes on what a function gives back that
returns nothing. It fails at the first such argument (`Tree.lower_outcome_of_clean`).

That everything else succeeds is known. What is left is to follow lowering up to the argument that
misses a value, through constructs that were lowered before it and into the one that has it. So each
lemma is about a construct in which there is such an argument, and says that its lowering fails with
that argument's place, whatever it starts from.

The search for the argument (`Expr.missing?`) goes through a construct in the order of lowering. In
each case it has found nothing in the parts before, so these can be lowered, and it has found the
argument in the next part, which therefore fails.
-/

namespace WordLang

open Stateful

/-! ## Steps that succeed

Each hands on to what follows, whether that succeeds or not. -/

namespace Lower

variable {α : Type} {b : Builder}

/-- Adding an instruction. -/
theorem push_bind {kind : InstKind} {rest : InstId → Lower α} :
    (push kind >>= rest) b = rest b.size (b.push kind) :=
  bind_of_ok (push_eq_ok.mpr ⟨rfl, rfl⟩)

/-- Setting the edge that is taken by default. -/
theorem follow_bind {source target : InstId} {rest : Unit → Lower α} :
    (follow source target >>= rest) b = rest () (b.link source target .next) :=
  bind_of_ok (follow_eq_ok.mpr rfl)

/-- Taking a register. -/
theorem freshTemp_bind {rest : Temp → Lower α} :
    (freshTemp >>= rest) b = rest b.nextTemp b.takeTemp :=
  bind_of_ok (freshTemp_eq_ok.mpr ⟨rfl, rfl⟩)

/-- Taking a register for an address. -/
theorem freshAddr_bind {rest : Addr → Lower α} :
    (freshAddr >>= rest) b = rest b.nextAddr b.takeAddr :=
  bind_of_ok (freshAddr_eq_ok.mpr ⟨rfl, rfl⟩)

/-- Looking for the register of a name. -/
theorem local?_bind {symbol : Symbol} {rest : Option Temp → Lower α} :
    (local? symbol >>= rest) b = rest (b.locals.lookup symbol.id) b :=
  bind_of_ok (local?_eq_ok.mpr ⟨rfl, rfl⟩)

/-- Asking for a value that is there. -/
theorem valueAt_bind {chain : Chain} {temp : Temp} (h : chain.value = some temp) {pos : Position}
    {rest : Temp → Lower α} :
    (liftM (chain.valueAt pos) >>= rest) b = rest temp b :=
  bind_of_ok (lift_of_ok (Chain.valueAt_eq_ok.mpr h) b)

/-- Asking for the symbol of a name that has one. -/
theorem resolved_bind {ident : Ident} {symbol : Symbol} (h : ident.resolved = .ok symbol)
    {rest : Symbol → Lower α} : (liftM ident.resolved >>= rest) b = rest symbol b :=
  bind_of_ok (lift_of_ok h b)

end Lower

/-! ## Expressions

The one place where a new error arises is an argument that is itself a call without a value. All
other cases hand on an error of a part. -/

/-- A call without a value has none. It can be lowered all the same; that it is missed is noticed
only where a value is wanted. -/
theorem Expr.value_of_isEmptyCall {expr : Expr} (h : expr.isEmptyCall = true) {b b' : Builder}
    {chain : Chain} (hlower : expr.lower b = .ok (chain, b')) : chain.value = none := by
  cases expr with
  | call info callee args =>
    obtain ⟨symbol, hsymbol, params, ret, hty, temps, exit, b₁, -, -, rfl⟩ :=
      Expr.lower_call_eq_ok.mp hlower
    obtain ⟨hsymbol, -⟩ := Ident.resolved_eq_ok.mp hsymbol
    have hcallee : callee.ty = .func params ret := by
      rw [Ident.ty, hsymbol, Option.bind_some, hty]
      rfl
    rw [Expr.isEmptyCall, hcallee] at h
    have hvoid : ret.isVoid = true := h
    rw [hvoid]
    rfl
  | _ => cases h

section

variable {ok : Ty → Bool} {floor : Nat} {known : List SymbolId} {pos : Position}

mutual

/-- An expression that has such an argument fails at it, from any builder. The parts before it can
be lowered, because the search has found nothing in them. -/
theorem Expr.fails (hok : ∀ ty, ok ty = true → ty.isError = false) : ∀ {expr : Expr},
    expr.Scoped ok floor known → expr.diagnose = [] → expr.missing? = some pos → ∀ b,
      expr.lower b = .error (.missingValue pos)
  | .int _ _, _, _, hsome, _ => nomatch hsome
  | .bool _ _, _, _, hsome, _ => nomatch hsome
  | .var _ _, _, _, hsome, _ => nomatch hsome
  | .index info base position, hscoped, h, hsome, b => by
    obtain ⟨hinner, -⟩ := List.append_eq_nil_iff.mp h
    rw [Expr.missing?] at hsome
    obtain ⟨symbol, hsymbol, -⟩ := hscoped.1.resolved
    rw [Expr.lower, Lower.resolved_bind hsymbol,
      bind_of_error (Expr.fails hok hscoped.2 hinner hsome b)]
  | .call info callee args, hscoped, h, hsome, b => by
    obtain ⟨params, ret, hcallee, -⟩ := Ty.of_call (Expr.isError_infer hok hscoped h)
    obtain ⟨hinner, -⟩ := List.append_eq_nil_iff.mp h
    rw [Expr.missing?] at hsome
    obtain ⟨symbol, hsymbol, hty, -⟩ := hscoped.1.resolved
    rw [hcallee] at hty
    have hhas : Lower.callHasValue info.pos symbol = .ok (!ret.isVoid) :=
      Lower.callHasValue_eq_ok.mpr ⟨params, ret, hty, rfl⟩
    rw [Expr.lower, Lower.resolved_bind hsymbol, bind_of_ok (lift_of_ok hhas b),
      Lower.push_bind,
      bind_of_error (Expr.failsArgs hok hscoped.2 hinner hsome _ _)]
  | .unary info op operand, hscoped, h, hsome, b => by
    obtain ⟨hinner, -⟩ := List.append_eq_nil_iff.mp h
    have hscoped' : operand.Scoped ok floor known := hscoped
    rw [Expr.missing?] at hsome
    rw [Expr.lower, bind_of_error (Expr.fails hok hscoped' hinner hsome b)]
  | .binary info op left right, hscoped, h, hsome, b => by
    have hvoid := (Ty.isVoid_of_binaryTy (Expr.isError_infer hok hscoped h)).1
    obtain ⟨hinner, -⟩ := List.append_eq_nil_iff.mp h
    obtain ⟨hinnerLeft, hinnerRight⟩ := List.append_eq_nil_iff.mp hinner
    rw [Expr.missing?_binary] at hsome
    -- the left operand is always lowered first
    rcases hleft : left.missing? with _ | first
    -- it can be lowered, and the argument is in the right one, which is used then
    · obtain ⟨l, b₁, hl, ⟨value, hvalue⟩, -⟩ :=
        (Expr.lowers hok hscoped.1 hinnerLeft hleft b).of_infer hok hscoped.1 hinnerLeft hvoid
      rw [hleft, Option.none_or] at hsome
      have hright : op ≠ .negate → ∀ mid, right.lower mid = .error (.missingValue pos) := by
        intro hop
        rw [if_neg hop] at hsome
        exact Expr.fails hok hscoped.2 hinnerRight hsome
      rw [Expr.lower, bind_of_ok hl, Lower.valueAt_bind hvalue]
      cases op with
      | negate => cases hsome
      | arith op => exact bind_of_error (hright nofun b₁)
      | compare op => exact bind_of_error (hright nofun b₁)
      | connect op =>
        dsimp only
        rw [Lower.push_bind, Lower.follow_bind, Lower.freshTemp_bind, Lower.push_bind,
          bind_of_error (hright nofun _)]
    · have hfirst : first = pos := by
        rw [hleft, Option.some_or, ite_self] at hsome
        exact Option.some.inj hsome
      rw [hfirst] at hleft
      rw [Expr.lower, bind_of_error (Expr.fails hok hscoped.1 hinnerLeft hleft b)]

/-- So do the arguments of a call, one of which is such an argument or has one in it. This is where
the error arises: an argument that is an empty call has been lowered, and its value is asked for. -/
theorem Expr.failsArgs (hok : ∀ ty, ok ty = true → ty.isError = false) : ∀ {args : List Expr},
    Expr.ScopedAll ok floor known args → Expr.diagnoseAll args = [] →
    Expr.missingArg? args = some pos → ∀ exit b,
      Expr.lowerArgs exit args b = .error (.missingValue pos)
  | [], _, _, hsome, _, _ => nomatch hsome
  | arg :: rest, hscoped, h, hsome, exit, b => by
    obtain ⟨hfirst, hothers⟩ := List.append_eq_nil_iff.mp h
    rw [Expr.missingArg?] at hsome
    rw [Expr.lowerArgs]
    rcases Option.or_eq_some_iff.mp hsome with hinner | ⟨hinner, hsome⟩
    · rw [bind_of_error (Expr.fails hok hscoped.1 hfirst hinner b)]
    obtain ⟨first, b₁, hlower, hvalue, -⟩ := Expr.lowers hok hscoped.1 hfirst hinner b
    rw [bind_of_ok hlower]
    rcases hcall : arg.isEmptyCall with _ | _
    · rw [hcall, if_neg Bool.false_ne_true, Option.none_or] at hsome
      obtain ⟨temp, htemp⟩ := hvalue hcall
      rw [Lower.valueAt_bind htemp,
        Lower.follow_bind,
        bind_of_error (Expr.failsArgs hok hscoped.2 hothers hsome _ _)]
    · -- this is the argument: it was lowered, but to nothing
      rw [hcall, if_pos rfl, Option.some_or] at hsome
      have hmissing : first.valueAt arg.pos = .error (.missingValue arg.pos) := by
        rw [Chain.valueAt, Expr.value_of_isEmptyCall hcall hlower]
      rw [bind_of_error (lift_of_error hmissing b₁), Option.some.inj hsome]

end

/-- So does an assignment. To an element, the index comes before the value, as in the search. -/
theorem Assignment.fails (hok : ∀ ty, ok ty = true → ty.isError = false) {assignment : Assignment}
    (hscoped : assignment.Scoped ok floor known) (h : assignment.diagnose = [])
    (hsome : assignment.missing? = some pos) (b : Builder) :
    assignment.lower b = .error (.missingValue pos) := by
  obtain ⟨hcleanLocation, -⟩ := Assignment.isVoid_of_diagnose hok hscoped h
  obtain ⟨info, location, value⟩ := assignment
  obtain ⟨hplace, hlocation, hvalue⟩ := hscoped
  obtain ⟨hinner, -⟩ := List.append_eq_nil_iff.mp h
  obtain ⟨hinnerLocation, hinnerValue⟩ := List.append_eq_nil_iff.mp hinner
  cases location with
  | var place ident =>
    have hident : ident.Uses ok floor known := hlocation
    obtain ⟨symbol, hsymbol, -⟩ := hident.resolved
    have hsome : value.missing? = some pos := hsome
    rw [Assignment.lower]
    dsimp only
    rw [Lower.resolved_bind hsymbol,
      Lower.local?_bind,
      bind_of_error (Expr.fails hok hvalue hinnerValue hsome b)]
  | index place base position =>
    have hty := Ty.of_index hcleanLocation
    obtain ⟨hinnerPosition, -⟩ := List.append_eq_nil_iff.mp hinnerLocation
    obtain ⟨symbol, hsymbol, -⟩ := hlocation.1.resolved
    rw [Assignment.lower]
    dsimp only
    rw [Lower.resolved_bind hsymbol]
    rcases Option.or_eq_some_iff.mp hsome with hposition | ⟨hposition, hsome⟩
    · rw [bind_of_error (Expr.fails hok hlocation.2 hinnerPosition hposition b)]
    · obtain ⟨index, b₁, hindex, ⟨offset, hoffset⟩, -⟩ :=
        (Expr.lowers hok hlocation.2 hinnerPosition hposition b).of_infer hok hlocation.2
          hinnerPosition (by rw [hty]; rfl)
      rw [bind_of_ok hindex, Lower.valueAt_bind hoffset,
        Lower.freshAddr_bind,
        Lower.push_bind,
        bind_of_error (Expr.fails hok hvalue hinnerValue hsome _)]
  | _ => cases hplace

mutual

/-- So does a statement. The place to break to matters only for the parts before the argument, which
have to be lowered. -/
theorem Stmt.fails (hok : ∀ ty, ok ty = true → ty.isError = false) {ret : Ty} : ∀ {stmt : Stmt}
    {known : List SymbolId} {inLoop : Bool} {out : Option InstId}, stmt.Scoped ok floor known →
    stmt.diagnose ret inLoop = [] → stmt.missing? = some pos →
    (inLoop = true → ∃ target, out = some target) → ∀ b,
      stmt.lower out b = .error (.missingValue pos)
  | .declare _ _, _, _, _, _, _, hsome, _, _ => nomatch hsome
  | .assign info assignment, _, _, _, hscoped, h, hsome, _, b => by
    rw [Stmt.lower_assign]
    exact Assignment.fails hok hscoped h hsome b
  | .call info callee args, known, _, _, hscoped, h, hsome, _, b => by
    have hcall : (Expr.call info callee args).Scoped ok floor known := hscoped
    rw [Stmt.lower_call]
    exact Expr.fails hok hcall h hsome b
  | .ifElse info cond onTrue onFalse, _, _, _, hscoped, h, hsome, hout, b => by
    obtain ⟨hcond, htrue, hfalse⟩ := hscoped
    obtain ⟨h, hcleanFalse⟩ := List.append_eq_nil_iff.mp h
    obtain ⟨hcleanCond, hcleanTrue⟩ := List.append_eq_nil_iff.mp h
    obtain ⟨hinner, hvoid⟩ := Expr.infer_of_diagnoseCondition hok hcond hcleanCond
    rw [Stmt.lower]
    rcases Option.or_eq_some_iff.mp hsome with hsome | ⟨hnone, hsome⟩
    · rw [bind_of_error (Expr.fails hok hcond hinner hsome b)]
    obtain ⟨c, b₁, hc, ⟨value, hvalue⟩, -⟩ :=
      (Expr.lowers hok hcond hinner hnone b).of_infer hok hcond hinner hvoid
    rw [bind_of_ok hc, Lower.valueAt_bind hvalue, Lower.push_bind, Lower.follow_bind,
      Lower.push_bind, Builder.size_link, Builder.size_push]
    rcases Option.or_eq_some_iff.mp hsome with hsome | ⟨hnone, hsome⟩
    · rw [bind_of_error (Stmt.failsAll hok htrue hcleanTrue hsome hout _ _)]
    obtain ⟨trueExit, b₂, hlower, -⟩ := Stmt.lowersAll hok htrue hcleanTrue hnone hout
      (b₁.size + 1) (((b₁.push (.jump value)).link c.exit b₁.size .next).push .nop)
    rw [bind_of_ok hlower, Lower.push_bind,
      bind_of_error (Stmt.failsAll hok hfalse hcleanFalse hsome hout _ _)]
  | .loop info init cond increment body, _, _, _, hscoped, h, hsome, hout, b => by
    obtain ⟨hinit, hcond, hincrement, hbody⟩ := hscoped
    obtain ⟨h, hcleanBody⟩ := List.append_eq_nil_iff.mp h
    obtain ⟨h, hcleanStep⟩ := List.append_eq_nil_iff.mp h
    obtain ⟨hcleanInit, hcleanCond⟩ := List.append_eq_nil_iff.mp h
    obtain ⟨hinner, hvoid⟩ := Expr.infer_of_diagnoseCondition hok hcond hcleanCond
    rw [Stmt.lower]
    rcases Option.or_eq_some_iff.mp hsome with hsome | ⟨hnone, hsome⟩
    · rw [bind_of_error (Assignment.fails hok hinit hcleanInit hsome b)]
    obtain ⟨i, b₁, hi, -⟩ := Assignment.lowers hok hinit hcleanInit hnone b
    rw [bind_of_ok hi]
    rcases Option.or_eq_some_iff.mp hsome with hsome | ⟨hnone, hsome⟩
    · rw [bind_of_error (Expr.fails hok hcond hinner hsome b₁)]
    obtain ⟨c, b₂, hc, ⟨value, hvalue⟩, -⟩ :=
      (Expr.lowers hok hcond hinner hnone b₁).of_infer hok hcond hinner hvoid
    rw [bind_of_ok hc, Lower.valueAt_bind hvalue, Lower.push_bind, Lower.push_bind,
      Lower.follow_bind, Lower.follow_bind, Lower.push_bind]
    simp only [Builder.size_link, Builder.size_push]
    rcases Option.or_eq_some_iff.mp hsome with hsome | ⟨hnone, hsome⟩
    · rw [bind_of_error (Stmt.failsAll hok hbody hcleanBody hsome (fun _ => ⟨_, rfl⟩) _ _)]
    obtain ⟨bodyExit, b₃, hlower, -⟩ := Stmt.lowersAll hok hbody hcleanBody hnone
      (fun _ => ⟨b₂.size + 1, rfl⟩) (b₂.size + 2)
      (((((b₂.push (.jump value)).push .nop).link i.exit c.entry .next).link
        c.exit b₂.size .next).push .nop)
    -- the increment is lowered last
    rw [bind_of_ok hlower, bind_of_error (Assignment.fails hok hincrement hcleanStep hsome b₃)]
  | .leave _, _, _, _, _, _, hsome, _, _ => nomatch hsome
  | .ret _ none, _, _, _, _, _, hsome, _, _ => nomatch hsome
  | .ret info (some value), known, _, _, hscoped, h, hsome, _, b => by
    have hscoped' : value.Scoped ok floor known := hscoped
    obtain ⟨hinner, -⟩ := List.append_eq_nil_iff.mp h
    rw [Stmt.lower, bind_of_error (Expr.fails hok hscoped' hinner hsome b)]

/-- So does a block. -/
theorem Stmt.failsAll (hok : ∀ ty, ok ty = true → ty.isError = false) {ret : Ty} :
    ∀ {stmts : List Stmt} {known : List SymbolId} {inLoop : Bool} {out : Option InstId},
    Stmt.ScopedAll ok floor known stmts → Stmt.diagnoseAll ret inLoop stmts = [] →
    Stmt.missingIn? stmts = some pos → (inLoop = true → ∃ target, out = some target) → ∀ exit b,
      Stmt.lowerAll out exit stmts b = .error (.missingValue pos)
  | [], _, _, _, _, _, hsome, _, _, _ => nomatch hsome
  | stmt :: rest, _, _, _, hscoped, h, hsome, hout, exit, b => by
    obtain ⟨hfirst, hothers⟩ := List.append_eq_nil_iff.mp h
    rw [Stmt.lowerAll]
    rcases Option.or_eq_some_iff.mp hsome with hsome | ⟨hnone, hsome⟩
    · rw [bind_of_error (Stmt.fails hok hscoped.1 hfirst hsome hout b)]
    obtain ⟨first, b₁, hlower, -⟩ := Stmt.lowers hok hscoped.1 hfirst hnone hout b
    rw [bind_of_ok hlower, Lower.follow_bind]
    exact Stmt.failsAll hok hscoped.2 hothers hsome hout _ _

end

/-! ## Programs

A program fails in its first function that fails. -/

/-- A function fails in its body: parameters have no values to miss. -/
theorem FunDef.fails (hok : ∀ ty, ok ty = true → ty.isError = false) {definition : FunDef}
    (hscoped : definition.Scoped ok) (h : definition.diagnose = [])
    (hsome : Stmt.missingIn? definition.body.stmts = some pos) (constants : List Constant) :
    definition.lower constants = .error (.missingValue pos) := by
  obtain ⟨⟨symbol, hsymbol, hfault⟩, floor, hparams, hbody⟩ := hscoped
  have hclean := FunDef.diagnoseAll_of_diagnose h
  obtain ⟨args, b₁, hargs, -⟩ := Param.lowers hparams (.start constants symbol.name definition.ty)
  have hfails : definition.lowerBody (.start constants symbol.name definition.ty) =
      .error (.missingValue pos) := by
    rw [FunDef.lowerBody, bind_of_ok hargs]
    change (Stmt.lowerAll none b₁.routine.start definition.body.stmts >>= fun _ => pure ())
      (b₁.withArgs args) = _
    rw [bind_of_error (Stmt.failsAll hok hbody hclean hsome (by simp) _ _)]
  rw [FunDef.lower, Ident.resolved_eq_ok.mpr ⟨hsymbol, hfault⟩]
  change (definition.lowerBody (.start constants symbol.name definition.ty) >>= _) = _
  rw [hfails]
  rfl

/-- So does a top declaration. A global has no value that it starts with. -/
theorem Item.fails (hok : ∀ ty, ok ty = true → ty.isError = false) {item : Item}
    (hscoped : item.Scoped ok) (h : item.diagnose = []) (hsome : item.missing? = some pos)
    (program : Program) : item.lower program = .error (.missingValue pos) := by
  cases item with
  | global decl => cases hsome
  | function definition =>
    rw [Item.lower, FunDef.fails hok hscoped h hsome program.constants]
    rfl

/-- The items before the first one that fails are lowered. That the calls in them pass the right
number of arguments is not needed for the failure, but comes with lowering them. -/
theorem Item.failsAll (hok : ∀ ty, ok ty = true → ty.isError = false) {items : List Item}
    (hscoped : ∀ item ∈ items, item.Scoped ok) (h : ∀ item ∈ items, item.diagnose = [])
    (hsome : items.findSome? Item.missing? = some pos) {program : Program}
    (hprogram : ∀ routine ∈ program.routines, routine.Matched) :
    items.foldlM Item.lower program = .error (.missingValue pos) := by
  induction items generalizing program with
  | nil => cases hsome
  | cons item rest ih =>
    rw [List.forall_mem_cons] at hscoped h
    rw [List.foldlM_cons]
    rw [List.findSome?_cons] at hsome
    rcases hitem : item.missing? with _ | first
    · rw [hitem] at hsome
      obtain ⟨mid, hlower, hmid⟩ := Item.lowers hok hscoped.1 h.1 hitem hprogram
      rw [hlower]
      exact ih hscoped.2 h.2 hsome hmid
    · rw [hitem] at hsome
      rw [Item.fails hok hscoped.1 h.1 hitem program, Option.some.inj hsome]
      rfl

end

/-- A tree without problems fails at the first argument that misses a value. The search is made in
the resolved tree, since types play no part in it but those of the called functions, which
resolution has given to the names. -/
theorem Tree.fails_of_missing? {ok : Ty → Bool} (hok : ∀ ty, ok ty = true → ty.isError = false)
    (hbuiltins : ∀ entry ∈ builtins, ok entry.2 = true) {tree : Tree} {nextId : Nat}
    (hplain : tree.items.all (Item.plain ok) = true) (hclean : (tree.check nextId).diagnostics = [])
    {pos : Position} (hsome : (tree.resolve nextId).1.missing? = some pos) :
    (tree.check nextId).tree.lower = .error (.missingValue pos) := by
  obtain ⟨hnames, htypes⟩ := List.append_eq_nil_iff.mp hclean
  obtain ⟨hscoped, -⟩ := Tree.scoped_of_resolve hbuiltins hplain hnames
  have hempty : ∀ routine ∈ ({} : Program).routines, routine.Matched :=
    fun _ hmem => absurd hmem List.not_mem_nil
  exact (Tree.lower_annotate _).trans
    (Item.failsAll hok hscoped (List.flatMap_eq_nil_iff.mp htypes) hsome hempty)

/-- What a tree without problems is lowered to, if it is, is valid. -/
theorem Tree.violation?_of_lower {ok : Ty → Bool} (hok : ∀ ty, ok ty = true → ty.isError = false)
    (hbuiltins : ∀ entry ∈ builtins, ok entry.2 = true) {tree : Tree} {nextId : Nat}
    (hplain : tree.items.all (Item.plain ok) = true) (hclean : (tree.check nextId).diagnostics = [])
    {program : Program} (hlower : (tree.check nextId).tree.lower = .ok program) :
    program.violation? = none := by
  rcases hmissing : (tree.resolve nextId).1.missing? with _ | pos
  · obtain ⟨other, hother, hvalid⟩ :=
      Tree.lowers_of_missing? hok hbuiltins hplain hclean hmissing
    rw [hother] at hlower
    cases hlower
    exact hvalid
  · rw [Tree.fails_of_missing? hok hbuiltins hplain hclean hmissing] at hlower
    cases hlower

/-- A tree without problems, whose declared types have no fault in them, has a valid program, unless
an argument misses a value; then it fails at the first such argument, and for no other reason.

The two cases exclude each other and there is no third one, so this says for every such tree what
becomes of it. If no declared type has a `void` parameter, it is the first one
(`Tree.lowers_of_clean`). -/
theorem Tree.lower_outcome_of_clean {tree : Tree} {nextId : Nat}
    (hplain : tree.plain Ty.errorFree = true) (hclean : (tree.check nextId).diagnostics = []) :
    ((tree.resolve nextId).1.missing? = none →
      ∃ program, (tree.check nextId).tree.lower = .ok program ∧ program.violation? = none) ∧
    ∀ pos, (tree.resolve nextId).1.missing? = some pos →
      (tree.check nextId).tree.lower = .error (.missingValue pos) := by
  have hok : ∀ ty, Ty.errorFree ty = true → ty.isError = false := fun _ => Ty.isError_of_errorFree
  have hbuiltins : ∀ entry ∈ builtins, Ty.errorFree entry.2 = true := by decide
  exact ⟨Tree.lowers_of_missing? hok hbuiltins hplain hclean,
    fun _ => Tree.fails_of_missing? hok hbuiltins hplain hclean⟩

/-- A function with a `void` parameter is called, with a variable and with what a call gives back.
To the type checker the two calls are alike. The variable has a register, though nothing was ever
put in it; the call has none. -/
def voidArgumentTree : Tree :=
  let name (text : String) : Ident := { name := text }
  let call (info : Info) (callee : String) (arg : Expr) : Stmt := .call info (name callee) [arg]
  { items :=
      [.function { ident := name "idle", params := [], ret := .void, body := { stmts := [] } },
        .function
          { ident := name "take", params := [{ ident := name "unit", declared := .void }],
            ret := .void, body := { stmts := [] } },
        .function
          { ident := name "main", params := [], ret := .void,
            body :=
              { stmts :=
                  [.declare {} { ident := name "unit", declared := .void },
                    call {} "take" (.var {} (name "unit")),
                    call {} "take" (.call { pos := { line := 4, column := 8 } } (name "idle") [])]
              } }] }

/-- The tree above has no problems, and fails at the inner call. -/
theorem Tree.lower_outcome_of_clean_voidArgument :
    voidArgumentTree.plain Ty.errorFree = true ∧ (voidArgumentTree.check 0).diagnostics = [] ∧
      (voidArgumentTree.check 0).tree.lower =
        .error (.missingValue { line := 4, column := 8 }) := by
  have hplain : voidArgumentTree.plain Ty.errorFree = true := by decide +kernel
  have hclean : (voidArgumentTree.check 0).diagnostics = [] := by decide +kernel
  exact ⟨hplain, hclean, (Tree.lower_outcome_of_clean hplain hclean).2 _ (by decide +kernel)⟩

/-- So not every tree without problems can be lowered. -/
theorem Tree.not_forall_lower_of_clean :
    ¬ ∀ tree : Tree, tree.plain Ty.errorFree = true → (tree.check 0).diagnostics = [] →
      ∃ program, (tree.check 0).tree.lower = .ok program := by
  intro h
  obtain ⟨program, hlower⟩ := h voidArgumentTree (by decide +kernel) (by decide +kernel)
  have hfails : (voidArgumentTree.check 0).tree.lower.toOption = none := by decide +kernel
  rw [hlower] at hfails
  cases hfails

end WordLang
