import WordLang.Proofs.Lowering.Chains
import WordLang.Proofs.Resolution.Scoping

/-!
# The registers of locals

Lowering gives a register to every name that a function declares, and to no other name: after a
construct the builder has the ids that the construct declares, in the same order. No two of them
share a register. In a tree whose names are in scope no two of the ids are the same either, so a
function's variables and their registers correspond one to one.

These are two separate facts. Which ids are different is a matter of scope, and is seen in the
resolved tree alone (`Distinct`). Which registers are different is a matter of lowering, and holds
for any tree that can be lowered (`Separated`): a local always takes the next register, which no
earlier local has.
-/

namespace WordLang

/-! ## Ids

By recursion on the tree. A declaration that is in scope has an id that is not among the known ones,
and it is put in front of them. -/

/-- Ids that are all different, and none of them global. -/
structure Distinct (floor : Nat) (ids : List SymbolId) : Prop where
  nodup : ids.Nodup
  floor_le : ∀ id ∈ ids, floor ≤ id.index

/-- No ids. -/
theorem Distinct.nil {floor : Nat} : Distinct floor [] :=
  ⟨List.nodup_nil, fun _ h => absurd h List.not_mem_nil⟩

section

variable {ok : Ty → Bool} {floor : Nat}

/-- A declaration has an id that differs from the known ones. -/
theorem Ident.Declares.distinct {ident : Ident} {known : List SymbolId}
    (h : ident.Declares floor known) (hknown : Distinct floor known) :
    Distinct floor (ident.id?.toList ++ known) := by
  obtain ⟨symbol, hsymbol, -, hfloor, hnew⟩ := h
  have hid : ident.id?.toList = [symbol.id] := by rw [Ident.id?, hsymbol]; rfl
  rw [hid, List.singleton_append]
  exact ⟨List.nodup_cons.mpr ⟨hnew, hknown.nodup⟩,
    List.forall_mem_cons.mpr ⟨hfloor, hknown.floor_le⟩⟩

mutual

/-- What a statement declares differs from what was known, and among itself. -/
theorem Stmt.distinct_declares : ∀ (stmt : Stmt) {known : List SymbolId},
    stmt.Scoped ok floor known → Distinct floor known → Distinct floor (stmt.declares ++ known)
  | .declare _ decl, _, h, hknown => by
    rw [Stmt.declares]
    exact Ident.Declares.distinct h hknown
  | .assign _ _, _, _, hknown => hknown
  | .call _ _ _, _, _, hknown => hknown
  | .ifElse _ _ onTrue onFalse, _, h, hknown => by
    obtain ⟨-, htrue, hfalse⟩ := h
    rw [Stmt.declares, List.append_assoc]
    exact Stmt.distinct_declaresAll onFalse.stmts hfalse
      (Stmt.distinct_declaresAll onTrue.stmts htrue hknown)
  | .loop _ _ _ _ body, _, h, hknown => by
    obtain ⟨-, -, -, hbody⟩ := h
    rw [Stmt.declares]
    exact Stmt.distinct_declaresAll body.stmts hbody hknown
  | .leave _, _, _, hknown => hknown
  | .ret _ _, _, _, hknown => hknown

/-- So does what a block declares. -/
theorem Stmt.distinct_declaresAll : ∀ (stmts : List Stmt) {known : List SymbolId},
    Stmt.ScopedAll ok floor known stmts → Distinct floor known →
    Distinct floor (Stmt.declaresAll stmts ++ known)
  | [], _, _, hknown => hknown
  | stmt :: rest, _, h, hknown => by
    rw [Stmt.declaresAll, List.append_assoc]
    exact Stmt.distinct_declaresAll rest h.2 (Stmt.distinct_declares stmt h.1 hknown)

end

/-- So do parameters. -/
theorem Param.distinct_declaresAll : ∀ (params : List Param) {known : List SymbolId},
    Param.ScopedAll floor known params → Distinct floor known →
    Distinct floor (Param.declaresAll params ++ known)
  | [], _, _, hknown => hknown
  | param :: rest, _, h, hknown => by
    rw [Param.declaresAll, List.append_assoc]
    exact Param.distinct_declaresAll rest h.2 (h.1.distinct hknown)

end

/-! ## Registers

By recursion on the tree. Evaluating an expression takes registers and declares nothing. -/

namespace Builder

/-- The ids that were given a register, the newest first. -/
def ids (b : Builder) : List SymbolId :=
  b.locals.map (·.1)

/-- Every local has a register of its own. -/
structure Separated (b : Builder) : Prop where
  settled : b.Settled
  nodup : (b.locals.map (·.2)).Nodup

variable {b b' : Builder}

/-- Locals stay apart while only registers are taken. -/
theorem Separated.of_locals_eq (h : b.Separated) (heq : b'.locals = b.locals)
    (hle : b.routine.temps ≤ b'.routine.temps) : b'.Separated :=
  ⟨h.settled.of_locals_eq heq hle, heq ▸ h.nodup⟩

/-- A new register is not that of another local. -/
theorem Separated.bindNext (h : b.Separated) (symbol : Symbol) : (b.bindNext symbol).Separated := by
  refine ⟨h.settled.grows ((Grows.refl b).bindNext symbol), List.nodup_cons.mpr ⟨?_, h.nodup⟩⟩
  intro hmem
  obtain ⟨entry, hentry, heq⟩ := List.mem_map.mp hmem
  have hlt := h.settled entry hentry
  rw [heq] at hlt
  exact Nat.lt_irrefl _ hlt

/-- Between `b` and `b'` the given ids were declared. -/
structure Declares (b b' : Builder) (ids : List SymbolId) : Prop where
  ids_eq : b'.ids = ids ++ b.ids
  separated : b'.Separated

/-- Where the locals do not change, nothing was declared. -/
theorem Declares.of_locals_eq (h : b.Separated) (heq : b'.locals = b.locals)
    (hle : b.routine.temps ≤ b'.routine.temps) : b.Declares b' [] :=
  ⟨by rw [Builder.ids, Builder.ids, heq, List.nil_append], h.of_locals_eq heq hle⟩

/-- What was declared in both parts. -/
theorem Declares.trans {b₁ : Builder} {ids ids' : List SymbolId} (h₁ : b.Declares b₁ ids)
    (h₂ : b₁.Declares b' ids') : b.Declares b' (ids' ++ ids) :=
  ⟨by rw [h₂.ids_eq, h₁.ids_eq, List.append_assoc], h₂.separated⟩

/-- The arena, and registers that no local has, do not matter. -/
theorem Declares.congr {b₀ b₁ : Builder} {ids : List SymbolId} (h : b₀.Declares b₁ ids)
    (heq : b₀.locals = b.locals) (heq' : b'.locals = b₁.locals)
    (hle : b₁.routine.temps ≤ b'.routine.temps) : b.Declares b' ids := by
  refine ⟨?_, h.separated.of_locals_eq heq' hle⟩
  rw [Builder.ids, heq', ← Builder.ids, h.ids_eq, Builder.ids, heq, ← Builder.ids]

end Builder

/-- A name that has a symbol has its id. -/
theorem Ident.id?_of_resolved {ident : Ident} {symbol : Symbol} (h : ident.resolved = .ok symbol) :
    ident.id? = some symbol.id := by
  rw [Ident.id?, (Ident.resolved_eq_ok.mp h).1, Option.map_some]

mutual

/-- A statement gives registers to what it declares. -/
theorem Stmt.declares_of_lower : ∀ (stmt : Stmt) {out : Option InstId} {b b' : Builder}
    {chain : Chain}, b.Separated → stmt.lower out b = .ok (chain, b') → b.Declares b' stmt.declares
  | .declare _ decl, _, b, _, _, hb, h => by
    obtain ⟨symbol, hsymbol, rfl, rfl⟩ := Stmt.lower_declare_eq_ok.mp h
    refine ⟨?_, (hb.bindNext symbol).of_locals_eq rfl (Nat.le_refl _)⟩
    rw [Stmt.declares, Ident.id?_of_resolved hsymbol]
    rfl
  | .assign _ assignment, _, b, _, _, hb, h => by
    rw [Stmt.lower_assign] at h
    obtain ⟨hspans, hlocals⟩ := Assignment.spans_of_lower hb.settled h
    exact .of_locals_eq hb hlocals hspans.grows.temps_le
  | .call info callee args, _, b, _, _, hb, h => by
    rw [Stmt.lower_call] at h
    have hcall := Expr.evaluates_of_lower _ hb.settled h
    exact .of_locals_eq hb hcall.locals_eq hcall.grows.temps_le
  | .ifElse _ cond onTrue onFalse, _, b, _, _, hb, h => by
    obtain ⟨c, b₁, hc, value, hvalue, trueExit, b₂, htrue, falseExit, b₃, hfalse, rfl, rfl⟩ :=
      Stmt.lower_ifElse_eq_ok.mp h
    have hcond := cond.evaluates_of_lower hb.settled hc
    have hb₁ := hb.of_locals_eq hcond.locals_eq hcond.grows.temps_le
    have htrue := Stmt.declaresAll_of_lowerAll onTrue.stmts
      (hb₁.of_locals_eq (by simp) (by simp)) htrue
    have hfalse := Stmt.declaresAll_of_lowerAll onFalse.stmts
      (htrue.separated.of_locals_eq (by simp) (by simp)) hfalse
    -- nothing around the branches binds a local
    have htrue : b.Declares b₂ (Stmt.declaresAll onTrue.stmts) :=
      htrue.congr (by simp [hcond.locals_eq]) rfl (Nat.le_refl _)
    have hfalse : b₂.Declares b₃ (Stmt.declaresAll onFalse.stmts) :=
      hfalse.congr (by simp) rfl (Nat.le_refl _)
    exact (htrue.trans hfalse).congr rfl (by simp) (by simp)
  | .loop _ init cond increment body, _, b, _, _, hb, h => by
    obtain ⟨i, b₁, hi, c, b₂, hc, value, hvalue, bodyExit, b₃, hbody, step, b₄, hstep, rfl, rfl⟩ :=
      Stmt.lower_loop_eq_ok.mp h
    obtain ⟨hinit, hlocals₁⟩ := Assignment.spans_of_lower hb.settled hi
    have hb₁ := hb.of_locals_eq hlocals₁ hinit.grows.temps_le
    have hcond := cond.evaluates_of_lower hb₁.settled hc
    have hb₂ := hb₁.of_locals_eq hcond.locals_eq hcond.grows.temps_le
    have hbody := Stmt.declaresAll_of_lowerAll body.stmts
      (hb₂.of_locals_eq (by simp) (by simp)) hbody
    obtain ⟨hstep, hlocals₄⟩ := Assignment.spans_of_lower hbody.separated.settled hstep
    exact hbody.congr (by simp [hcond.locals_eq, hlocals₁]) (by simp [hlocals₄])
      (by simpa using hstep.grows.temps_le)
  | .leave _, _, b, _, _, hb, h => by
    obtain ⟨target, rfl, rfl, rfl⟩ := Stmt.lower_leave_eq_ok.mp h
    exact .of_locals_eq hb (by simp) (by simp)
  | .ret _ none, _, b, _, _, hb, h => by
    obtain ⟨rfl, rfl⟩ := Stmt.lower_ret_none_eq_ok.mp h
    exact .of_locals_eq hb (by simp) (by simp)
  | .ret _ (some value), _, b, _, _, hb, h => by
    obtain ⟨v, b₁, hv, rfl, rfl⟩ := Stmt.lower_ret_some_eq_ok.mp h
    have hvalue := value.evaluates_of_lower hb.settled hv
    exact .of_locals_eq hb (by simp [hvalue.locals_eq]) (by simpa using hvalue.grows.temps_le)

/-- A block gives registers to what it declares. -/
theorem Stmt.declaresAll_of_lowerAll : ∀ (stmts : List Stmt) {out : Option InstId} {b b' : Builder}
    {exit last : InstId}, b.Separated → Stmt.lowerAll out exit stmts b = .ok (last, b') →
    b.Declares b' (Stmt.declaresAll stmts)
  | [], _, b, _, _, _, hb, h => by
    obtain ⟨rfl, rfl⟩ := Stmt.lowerAll_nil_eq_ok.mp h
    exact .of_locals_eq hb rfl (Nat.le_refl _)
  | stmt :: rest, _, b, _, _, _, hb, h => by
    obtain ⟨first, b₁, hfirst, hrest⟩ := Stmt.lowerAll_cons_eq_ok.mp h
    have hstmt := Stmt.declares_of_lower stmt hb hfirst
    have hrest := Stmt.declaresAll_of_lowerAll rest
      (hstmt.separated.of_locals_eq (by simp) (by simp)) hrest
    exact hstmt.trans (hrest.congr (by simp) rfl (Nat.le_refl _))

end

/-- So do parameters. -/
theorem Param.declaresAll_of_lowerAll : ∀ (params : List Param) {b b' : Builder}
    {temps : List Temp}, b.Separated → Param.lowerAll params b = .ok (temps, b') →
    b.Declares b' (Param.declaresAll params)
  | [], b, _, _, hb, h => by
    obtain ⟨rfl, rfl⟩ := Param.lowerAll_nil_eq_ok.mp h
    exact .of_locals_eq hb rfl (Nat.le_refl _)
  | param :: rest, b, _, _, hb, h => by
    obtain ⟨symbol, hsymbol, others, hrest, rfl⟩ := Param.lowerAll_cons_eq_ok.mp h
    have hparam : b.Declares (b.bindNext symbol) param.ident.id?.toList := by
      refine ⟨?_, hb.bindNext symbol⟩
      rw [Ident.id?_of_resolved hsymbol]
      rfl
    exact hparam.trans (Param.declaresAll_of_lowerAll rest hparam.separated hrest)

/-- Parameters add no instructions, and change none. -/
theorem Param.grows_of_lowerAll : ∀ (params : List Param) {b b' : Builder} {temps : List Temp},
    Param.lowerAll params b = .ok (temps, b') → b.Grows b'
  | [], _, _, _, h => by
    obtain ⟨rfl, rfl⟩ := Param.lowerAll_nil_eq_ok.mp h
    exact .refl _
  | param :: rest, b, _, _, h => by
    obtain ⟨symbol, -, others, hrest, rfl⟩ := Param.lowerAll_cons_eq_ok.mp h
    exact ((Builder.Grows.refl b).bindNext symbol).trans (Param.grows_of_lowerAll rest hrest)

end WordLang
