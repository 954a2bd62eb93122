import Mathlib.Data.List.Forall2
import WordLang.Proofs.Lowering.Ways
import WordLang.Proofs.Preservation
import WordLang.Proofs.Typing.Exactness

/-!
# Functions that return on every path

Checking decides from the tree whether a function returns on every path. The graph says it too: a
routine runs off its end if an instruction can be reached that neither leads on nor returns. Both
say the same of every function that can be lowered, whether or not its types fit.

In the graph of a function only the very end leads nowhere without a return, so all depends on
whether the end can be reached. If nothing is reported about a program, then every reachable
instruction of a function with a value to return leads on or returns one.

The words "every path" mean less than they seem to. A condition counts as able to go either way,
whatever it is, and a loop as able to be passed by. That is so for the checker and for the graph,
and it is why they can agree: neither looks at values.
-/

namespace WordLang

/-- An instruction can be reached that neither leads on nor returns. Falling off a routine is how a
function ends that returns nothing, so this is not an error by itself. -/
def Routine.RunsOff (routine : Routine) : Prop :=
  ∃ id ∈ routine.reachable, ∃ inst ∈ routine.insts[id]?,
    inst.successors = [] ∧ inst.kind.isReturn = false

instance (routine : Routine) : Decidable routine.RunsOff :=
  inferInstanceAs (Decidable (∃ id ∈ routine.reachable, ∃ inst ∈ routine.insts[id]?,
    inst.successors = [] ∧ inst.kind.isReturn = false))

/-- A builder is part of itself. -/
theorem Builder.Within.refl (b : Builder) : b.Within b :=
  ⟨fun _ _ h => h, fun _ _ _ h => h, List.prefix_refl _, [], rfl, nofun⟩

/-! ## Functions

A body starts at a `nop` and has an open exit at its end. Whether there is a way from the one to the
other is what `WordLang.Proofs.Lowering.Ways` is about. -/

/-- In what a body was lowered to, only the end leads nowhere without a return. With `bare` this
needs no types. -/
theorem FunDef.LowersBody.tied {definition : FunDef} {b b' : Builder} {last : InstId}
    (h : definition.LowersBody b last b') {ret : Ty} (hret : ret ≠ .void) {bare : Prop}
    (hfits : bare ∨ Stmt.AllWellTyped ret false definition.body.stmts) :
    b.emptied.Tied bare [last] b' := by
  have hnop : b.emptied.Tied bare [b.routine.start] (b.emptied.push .nop) := .nop h.start_eq
  rw [Builder.push_emptied h.insts_eq] at hnop
  exact Stmt.tied_of_lowerAll hret _ hfits h.separated.settled hnop h.lowers

section

variable {definition : FunDef} {constants pool : List Constant} {routine : Routine}

/-- Checking and the graph agree on whether a function returns on every path. If it does, the end is
sealed off from the start, and nothing else runs off; if it does not, the end is reached. -/
theorem FunDef.anyReturns_iff_of_lower (h : definition.lower constants = .ok (routine, pool)) :
    Stmt.anyReturns definition.body.stmts = true ↔ ¬ routine.RunsOff := by
  obtain ⟨b, last, b', hbody, rfl⟩ := FunDef.exists_lowersBody h
  have hb := hbody.separated.settled
  constructor
  · rintro hreturns ⟨id, hid, inst, hinst, hleaf, hstays⟩
    -- only the end leads nowhere, and it is outside of a set that the walk does not leave
    have hint : Ty.int ≠ .void := nofun
    have htied : b.emptied.Tied True [last] b' := hbody.tied hint (.inl trivial)
    obtain ⟨s, -, hmem, hlast, hclosed⟩ :=
      Stmt.seals_of_lowerAll _ hreturns hb hbody.spans_start hbody.lowers
    rcases (htied id inst (Nat.zero_le _) hinst).goes hleaf with hreturn | hend
    · rw [hstays] at hreturn
      cases hreturn
    · rw [List.mem_singleton.mp hend] at hid
      exact hlast
        (hclosed.mem_of_reaches (hbody.start_kept ▸ hmem) (Routine.mem_reachable_iff.mp hid).1)
  · intro hruns
    by_contra hreturns
    -- the end can be reached, and is open
    have hreaches := Stmt.reaches_of_lowerAll _ (Bool.eq_false_iff.mpr hreturns) hb
      hbody.spans_start hbody.lowers (.refl b')
    obtain ⟨kind, hinst, -, hstays⟩ := hbody.spans.exit_open
    have hreachable : last ∈ b'.routine.reachable :=
      Routine.mem_reachable_iff.mpr ⟨hbody.start_kept ▸ hreaches, hbody.spans.exit_lt⟩
    exact hruns ⟨last, hreachable, _, hinst, rfl, hstays⟩

/-- Where a function is left that returns something and whose types fit, it returns a value. It
cannot be left at its end, and a return without a value does not fit. -/
theorem FunDef.returnsValue_of_lower (h : definition.lower constants = .ok (routine, pool))
    (hfits : definition.WellTyped) (hret : definition.ret ≠ .void) :
    ∀ id ∈ routine.reachable, ∀ inst ∈ routine.insts[id]?, inst.successors = [] →
      ∃ temp, inst.kind = .ret (some temp) := by
  intro id hid inst hinst hleaf
  have hreturns := Stmt.anyReturns_iff.mpr (hfits.returns hret)
  have hreturn : inst.kind.isReturn = true := by
    by_contra hstays
    exact (FunDef.anyReturns_iff_of_lower h).mp hreturns
      ⟨id, hid, inst, hinst, hleaf, Bool.eq_false_iff.mpr hstays⟩
  obtain ⟨b, last, b', hbody, rfl⟩ := FunDef.exists_lowersBody h
  have htied : b.emptied.Tied False [last] b' := hbody.tied hret (.inr hfits.body)
  have hvalued := (htied id inst (Nat.zero_le _) hinst).valued
  cases hkind : inst.kind with
  | ret value =>
    cases value with
    | none => exact absurd hkind hvalued
    | some temp => exact ⟨temp, rfl⟩
  | _ =>
    rw [hkind] at hreturn
    cases hreturn

/-- A function whose body is checked is reported for its paths exactly if its graph runs off its
end. -/
theorem FunDef.diagnose_of_lower (h : definition.lower constants = .ok (routine, pool))
    (hvisited : definition.signatureFault? = none) :
    definition.diagnose = definition.diagnoseParams ++
      Stmt.diagnoseAll definition.ret false definition.body.stmts ++
        if definition.ret ≠ .void ∧ routine.RunsOff then
          [.illTyped definition.pos
            ("function " ++ definition.ident.name ++ " does not return on all paths")]
        else [] := by
  have hagree := FunDef.anyReturns_iff_of_lower h
  rw [FunDef.diagnose, hvisited, FunDef.diagnosePaths]
  by_cases hret : definition.ret = .void
  · simp [hret, Ty.isVoid]
  · by_cases hruns : routine.RunsOff
    · have hreturns : Stmt.anyReturns definition.body.stmts = false :=
        Bool.eq_false_iff.mpr fun hreturns => hagree.mp hreturns hruns
      simp [hret, hruns, hreturns, Ty.isVoid_eq_false_iff.mpr hret]
    · simp [hruns, hagree.mpr hruns]

end

/-! ## Programs -/

/-- Checking and the graph agree on which functions return on every path, so a function that has a
value to return and whose body is checked is reported for its paths exactly if its graph runs off
its end. And in a program without problems a function with a value to return ends only by returning
one.

The first two parts are about any tree that can be lowered, also one with errors in its types.
Functions and routines correspond in order. -/
theorem Tree.anyReturns_iff_not_runsOff {tree : Tree} {nextId : Nat} {program : Program}
    (h : (tree.resolve nextId).1.lower = .ok program) :
    List.Forall₂ (fun definition routine =>
        (Stmt.anyReturns definition.body.stmts = true ↔ ¬ routine.RunsOff) ∧
        (definition.signatureFault? = none →
          definition.diagnose = definition.diagnoseParams ++
            Stmt.diagnoseAll definition.ret false definition.body.stmts ++
              if definition.ret ≠ .void ∧ routine.RunsOff then
                [.illTyped definition.pos
                  ("function " ++ definition.ident.name ++ " does not return on all paths")]
              else []) ∧
        ((tree.check nextId).diagnostics = [] → (∀ ty ∈ tree.declaredTypes, ty.errorFree = true) →
          definition.ret ≠ .void →
            ∀ id ∈ routine.reachable, ∀ inst ∈ routine.insts[id]?, inst.successors = [] →
              ∃ temp, inst.kind = .ret (some temp)))
      (tree.resolve nextId).1.functions program.routines := by
  refine (Tree.forall₂_functions h).imp ?_
  rintro definition routine ⟨hdefinition, constants, pool, hlower, -⟩
  refine ⟨FunDef.anyReturns_iff_of_lower hlower, FunDef.diagnose_of_lower hlower, ?_⟩
  intro hclean hfree hret
  obtain ⟨hquiet, hdiagnose⟩ := List.append_eq_nil_iff.mp hclean
  have hfits := (Tree.diagnose_eq_nil_iff (Tree.named_of_resolve hquiet hfree)).mp hdiagnose
  exact FunDef.returnsValue_of_lower hlower (hfits definition hdefinition) hret

/-- A function with dead code after a return, and one with a loop that is left by a return and by a
break. If it is `closed`, it returns after the loop too. The loop's condition is `true`, which
neither the checker nor the graph takes into account. -/
def seekTree (closed : Bool) : Tree :=
  let name (text : String) : Ident := { name := text }
  let var (text : String) : Expr := .var {} (name text)
  let param : Param := { ident := name "n", declared := .int }
  { items :=
      [.function
          { ident := name "sign", params := [param], ret := .int
            body := { stmts :=
              [.ifElse {} (.binary {} (.compare .lt) (var "n") (.int {} 0))
                { stmts :=
                  [.ret {} (some (.int {} (-1))),
                    .assign {} { location := var "n", value := .int {} 1 }] }
                { stmts :=
                  [.ifElse {} (.binary {} (.compare .eq) (var "n") (.int {} 0))
                    { stmts := [.ret {} (some (.int {} 0))] }
                    { stmts := [.ret {} (some (.int {} 1))] }] }] } },
        .function
          { ident := name "seek", params := [param], ret := .int
            body := { stmts :=
              [.declare {} { ident := name "i", declared := .int },
                .loop {} { location := var "i", value := .int {} 0 } (.bool {} true)
                  { location := var "i", value := .binary {} (.arith .add) (var "i") (.int {} 1) }
                  { stmts :=
                    [.ifElse {} (.binary {} (.compare .eq) (var "i") (var "n"))
                      { stmts := [.ret {} (some (.call {} (name "sign") [var "i"]))] }
                      { stmts := [.leave {}] }] }] ++
                if closed then [.ret {} (some (.int {} 0))] else [] } }] }

/-- Unless it is closed, the second function runs off its end. If it is, nothing is reported, and
both functions end by returning a value. -/
theorem Tree.anyReturns_iff_not_runsOff_seek :
    (∃ program, ((seekTree false).resolve 0).1.lower = .ok program ∧
      program.routines.map (fun routine => decide routine.RunsOff) = [false, true]) ∧
    ∃ program, ((seekTree true).resolve 0).1.lower = .ok program ∧
      ∀ routine ∈ program.routines, ∀ id ∈ routine.reachable, ∀ inst ∈ routine.insts[id]?,
        inst.successors = [] → ∃ temp, inst.kind = .ret (some temp) := by
  constructor
  · have hok : ((seekTree false).resolve 0).1.lower.isOk = true := by decide +kernel
    have hreturns : ((seekTree false).resolve 0).1.functions.map
        (fun definition => ! Stmt.anyReturns definition.body.stmts) = [false, true] := by
      decide +kernel
    rcases h : ((seekTree false).resolve 0).1.lower with error | program
    · rw [h] at hok
      cases hok
    · refine ⟨program, rfl, ?_⟩
      rw [← hreturns, ← List.forall₂_eq_eq_eq, List.forall₂_map_left_iff,
        List.forall₂_map_right_iff]
      -- both lists are related pointwise, each verdict to its function
      refine (Tree.anyReturns_iff_not_runsOff h).flip.imp fun routine definition hagree => ?_
      rw [Bool.eq_iff_iff, decide_eq_true_iff, Bool.not_eq_true', ← Bool.not_eq_true, hagree.1,
        not_not]
  · have hok : ((seekTree true).resolve 0).1.lower.isOk = true := by decide +kernel
    have hclean : ((seekTree true).check 0).diagnostics = [] := by decide +kernel
    have hfree : ∀ ty ∈ (seekTree true).declaredTypes, ty.errorFree = true := by decide +kernel
    have hret : ∀ definition ∈ ((seekTree true).resolve 0).1.functions, definition.ret ≠ .void := by
      decide +kernel
    rcases h : ((seekTree true).resolve 0).1.lower with error | program
    · rw [h] at hok
      cases hok
    · refine ⟨program, rfl, fun routine hroutine => ?_⟩
      obtain ⟨i, hi, rfl⟩ := List.getElem_of_mem hroutine
      have hall := List.forall₂_iff_get.mp (Tree.anyReturns_iff_not_runsOff h)
      have hi' := hall.1 ▸ hi
      exact (hall.2 i hi' hi).2.2 hclean hfree (hret _ (List.getElem_mem hi'))

end WordLang
