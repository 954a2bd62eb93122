import Mathlib.Data.List.Forall2
import WordLang.Proofs.Semantics.Run

/-!
# One machine that does what another does

Two machines keep a record of what they do, the newest event first. The second one *mirrors* the
first when it does the same, event by event, and comes to the same end, if there is one.

To see that it does, one step of the first machine is enough: it corresponds to any number of steps
of the second one, as long as it is not none forever (`Simulation`). The number that goes with two
states has to become smaller where the second machine does not move. A step of the first machine is
at most one event, and the record of the second machine only ever grows; so while the second machine
catches up, its record is what the first one's was before the step, or after it.

Mirroring says the same of both machines, but a simulation is asked for in one direction only. The
way back is free because a machine has one run: the end of the second machine, if it has one, is the
one that the simulation finds for the end of the first; and if the first one has no end, the second
has none either (`lasts`). States that the second machine passes through on its way have a
counterpart by the remark on records, not by the relation.
-/

namespace WordLang

variable {σ ρ τ υ α β : Type}

/-- A machine, together with its record in each state. The record is what can be seen of it from
outside; whatever else is in a state is its own affair. -/
structure Machine (σ ρ α : Type) where
  step : σ → Progress σ ρ
  record : σ → List α

/-- The second machine does, from its state, what the first does from its own. Events are compared
by `shows` and ends by `ends`, so the machines may differ in what an event or a result is. -/
structure Mirrors (shows : α → β → Prop) (ends : ρ → υ → Prop) (first : Machine σ ρ α)
    (second : Machine τ υ β) (s : σ) (t : τ) : Prop where
  /-- whatever the first machine does, the second does -/
  forth : ∀ s', Leads first.step s (.next s') →
    ∃ t', Leads second.step t (.next t') ∧ List.Forall₂ shows (first.record s') (second.record t')
  /-- whatever the second machine does, the first does -/
  back : ∀ t', Leads second.step t (.next t') →
    ∃ s', Leads first.step s (.next s') ∧ List.Forall₂ shows (first.record s') (second.record t')
  done_forth : ∀ r, Leads first.step s (.done r) → ∃ r', Leads second.step t (.done r') ∧ ends r r'
  done_back : ∀ r', Leads second.step t (.done r') → ∃ r, Leads first.step s (.done r) ∧ ends r r'
  fault : Leads first.step s .fault ↔ Leads second.step t .fault
  not_stuck : ¬ Leads first.step s .stuck ∧ ¬ Leads second.step t .stuck

/-- A relation between the states of two machines that one step of the first keeps. Steps on which
the second machine does not move have to lower the number of the states; ends are to be reached
without a further event. -/
structure Simulation (shows : α → β → Prop) (ends : ρ → υ → Prop) (first : Machine σ ρ α)
    (second : Machine τ υ β) (rel : Nat → σ → τ → Prop) : Prop where
  record : ∀ {n s t}, rel n s t → List.Forall₂ shows (first.record s) (second.record t)
  next : ∀ {n s t s'}, rel n s t → first.step s = .next s' → ∃ n' t' steps,
    rel n' s' t' ∧ run second.step steps t = .next t' ∧ (0 < steps ∨ n' < n)
  done : ∀ {n s t r}, rel n s t → first.step s = .done r → ∃ t' r',
    Leads second.step t (.next t') ∧ second.record t' = second.record t ∧
      second.step t' = .done r' ∧ ends r r'
  fault : ∀ {n s t}, rel n s t → first.step s = .fault → ∃ t',
    Leads second.step t (.next t') ∧ second.record t' = second.record t ∧ second.step t' = .fault
  not_stuck : ∀ {n s t}, rel n s t → first.step s ≠ .stuck
  /-- a step of the first machine is at most one event -/
  slow : ∀ {s s'}, first.step s = .next s' →
    (first.record s').length ≤ (first.record s).length + 1
  /-- the second machine forgets nothing -/
  grows : ∀ {t t'}, second.step t = .next t' → second.record t <:+ second.record t'

namespace Simulation

variable {shows : α → β → Prop} {ends : ρ → υ → Prop} {first : Machine σ ρ α}
  {second : Machine τ υ β} {rel : Nat → σ → τ → Prop} {n : Nat} {s : σ} {t : τ}

/-! ## Forth

The first machine is followed step by step. This is an induction on the length of its run and needs
nothing of the number. -/

/-- Where the first machine gets, the second gets to a related state. -/
theorem leads (h : Simulation shows ends first second rel) (hrel : rel n s t) {s' : σ}
    (hleads : Leads first.step s (.next s')) :
    ∃ n' t', rel n' s' t' ∧ Leads second.step t (.next t') := by
  obtain ⟨count, hrun⟩ := hleads
  induction count generalizing n s t with
  | zero =>
    cases hrun
    exact ⟨n, t, hrel, Leads.refl t⟩
  | succ count ih =>
    rcases hstep : first.step s with mid | r | _ | _
    · rw [run_succ_of_next hstep] at hrun
      obtain ⟨n₁, t₁, steps, hrel₁, hsteps, -⟩ := h.next hrel hstep
      obtain ⟨n', t', hrel', hleads⟩ := ih hrel₁ hrun
      exact ⟨n', t', hrel', Leads.trans ⟨steps, hsteps⟩ hleads⟩
    all_goals
      rw [run, hstep] at hrun
      cases hrun

/-- What the last step of the first machine comes to, after any number of others. -/
theorem exists_rel_of_final (h : Simulation shows ends first second rel) (hrel : rel n s t)
    {progress : Progress σ ρ} (hleads : Leads first.step s progress)
    (hfinal : progress.isFinal = true) :
    ∃ n' s' t', rel n' s' t' ∧ Leads second.step t (.next t') ∧ first.step s' = progress := by
  obtain ⟨s', hbefore, hstep⟩ := hleads.exists_last hfinal
  obtain ⟨n', t', hrel', hleads'⟩ := h.leads hrel hbefore
  exact ⟨n', s', t', hrel', hleads', hstep⟩

/-- The end of the first machine is an end of the second. -/
theorem leads_done (h : Simulation shows ends first second rel) (hrel : rel n s t) {r : ρ}
    (hleads : Leads first.step s (.done r)) :
    ∃ r', Leads second.step t (.done r') ∧ ends r r' := by
  obtain ⟨n', s', t', hrel', hbefore, hstep⟩ := h.exists_rel_of_final hrel hleads rfl
  obtain ⟨last, r', hlast, -, hdone, hends⟩ := h.done hrel' hstep
  exact ⟨r', hbefore.trans (hlast.trans (Leads.single hdone)), hends⟩

/-- So is a trap. -/
theorem leads_fault (h : Simulation shows ends first second rel) (hrel : rel n s t)
    (hleads : Leads first.step s .fault) : Leads second.step t .fault := by
  obtain ⟨n', s', t', hrel', hbefore, hstep⟩ := h.exists_rel_of_final hrel hleads rfl
  obtain ⟨last, hlast, -, hfault⟩ := h.fault hrel' hstep
  exact hbefore.trans (hlast.trans (Leads.single hfault))

/-- The first machine is never without a rule. -/
theorem not_leads_stuck (h : Simulation shows ends first second rel) (hrel : rel n s t) :
    ¬ Leads first.step s .stuck := by
  intro hleads
  obtain ⟨n', s', t', hrel', -, hstep⟩ := h.exists_rel_of_final hrel hleads rfl
  exact h.not_stuck hrel' hstep

/-! ## Going on

Here the number is needed. Without it the second machine could rest forever in a state that is
related to all states of a run that goes on. -/

/-- If the first machine goes on forever, so does the second. The induction is on the steps that the
second machine has to make, and inside of it on the number, for the steps of the first one on which
it makes none. -/
theorem lasts (h : Simulation shows ends first second rel) (hrel : rel n s t)
    (hforever : ∀ count, Lasts first.step count s) (count : Nat) : Lasts second.step count t := by
  induction count generalizing n s t with
  | zero => exact Lasts.zero t
  | succ count ih =>
    -- the second machine does not move for at most `n` steps of the first
    induction n using Nat.strongRecOn generalizing s t with
    | ind n ihn =>
      obtain ⟨s', hstep, hforever'⟩ := Lasts.exists_next hforever
      obtain ⟨n', t', steps, hrel', hsteps, hpos | hlt⟩ := h.next hrel hstep
      · obtain ⟨last, hlast⟩ := ih hrel' hforever'
        have hlasts : Lasts second.step (steps + count) t := ⟨last, (run_add hsteps).trans hlast⟩
        exact hlasts.mono (by omega)
      · exact Lasts.of_leads ⟨steps, hsteps⟩ (ihn n' hlt hrel' hforever')

/-- The first machine comes to an end if the second does, since otherwise both would go on forever.
What kind of end it is will be seen from the way forth. -/
theorem exists_final (h : Simulation shows ends first second rel) (hrel : rel n s t)
    {progress : Progress τ υ} (hleads : Leads second.step t progress)
    (hfinal : progress.isFinal = true) :
    ∃ progress', Leads first.step s progress' ∧ progress'.isFinal = true := by
  by_contra hnone
  obtain ⟨count, hnot⟩ := hleads.exists_not_lasts hfinal
  refine hnot (h.lasts hrel (fun count => ?_) count)
  by_contra hends
  exact hnone (exists_final_of_not_lasts hends)

/-- What the ends of the two machines have to do with each other. A machine has only one end, so
that of the second is the one which belongs to that of the first. -/
theorem final_cases (h : Simulation shows ends first second rel) (hrel : rel n s t)
    {progress : Progress τ υ} (hleads : Leads second.step t progress)
    (hfinal : progress.isFinal = true) :
    (∃ r r', Leads first.step s (.done r) ∧ progress = .done r' ∧ ends r r') ∨
      (Leads first.step s .fault ∧ progress = .fault) := by
  obtain ⟨progress', hleads', hfinal'⟩ := h.exists_final hrel hleads hfinal
  rcases progress' with s' | r | _ | _
  · cases hfinal'
  · obtain ⟨r', hdone, hends⟩ := h.leads_done hrel hleads'
    exact .inl ⟨r, r', hleads', hleads.unique hdone hfinal rfl, hends⟩
  · exact .inr ⟨hleads', hleads.unique (h.leads_fault hrel hleads') hfinal rfl⟩
  · exact absurd hleads' (h.not_leads_stuck hrel)

/-! ## Back

A state of the second machine lies between two that are related to states of the first, or on the
way to its end. -/

/-- The record grows along a run. -/
theorem grows_of_run (h : Simulation shows ends first second rel) {count : Nat} {t t' : τ}
    (hrun : run second.step count t = .next t') : second.record t <:+ second.record t' := by
  induction count generalizing t with
  | zero =>
    cases hrun
    exact List.suffix_refl _
  | succ count ih =>
    rcases hstep : second.step t with mid | r | _ | _
    · rw [run_succ_of_next hstep] at hrun
      exact (h.grows hstep).trans (ih hrun)
    all_goals
      rw [run, hstep] at hrun
      cases hrun

/-- On the way from one state to another, the record is between theirs: it has the one as its older
part, and is the older part of the other. -/
theorem record_between (h : Simulation shows ends first second rel) {before after : Nat}
    {t mid t' : τ} (hbefore : run second.step before t = .next mid)
    (hafter : run second.step (before + after) t = .next t') :
    second.record t <:+ second.record mid ∧ second.record mid <:+ second.record t' := by
  rw [run_add hbefore] at hafter
  exact ⟨h.grows_of_run hbefore, h.grows_of_run hafter⟩

/-- While the second machine catches up with a step of the first, its record is an old one or the
new one. There is no record in between, since the two differ by one event at most. -/
theorem record_of_between (h : Simulation shows ends first second rel) {n' : Nat} {s' : σ}
    {t' mid : τ} (hrel : rel n s t) (hrel' : rel n' s' t') (hstep : first.step s = .next s')
    (hbefore : second.record t <:+ second.record mid)
    (hafter : second.record mid <:+ second.record t') :
    second.record mid = second.record t ∨ second.record mid = second.record t' := by
  have hle := h.slow hstep
  have hlen := (h.record hrel).length_eq
  have hlen' := (h.record hrel').length_eq
  have hge := hbefore.length_le
  have hge' := hafter.length_le
  rcases Nat.lt_or_ge (second.record t).length (second.record mid).length with hlt | hsame
  · exact .inr (hafter.eq_of_length_le (by omega))
  · exact .inl (hbefore.eq_of_length_le hsame).symm

/-- On the way to an end without an event, the record stays what it is. -/
theorem record_of_final (h : Simulation shows ends first second rel) {count : Nat} {t t' mid : τ}
    (hrun : run second.step count t = .next mid) (hmove : Leads second.step t (.next t'))
    (hsame : second.record t' = second.record t) (hfinal : (second.step t').isFinal = true) :
    second.record mid = second.record t := by
  obtain ⟨steps, hsteps⟩ := hmove
  have hle : count ≤ steps := by
    by_contra hgt
    have hend : run second.step (steps + 1) t = second.step t' := by
      rw [run_add hsteps]
      exact run_succ_of_final hfinal
    rw [run_of_le hend hfinal (by omega)] at hrun
    rw [hrun] at hfinal
    cases hfinal
  obtain ⟨after, rfl⟩ := Nat.exists_eq_add_of_le hle
  obtain ⟨hbefore, hafter⟩ := h.record_between hrun hsteps
  rw [hsame] at hafter
  exact hafter.eq_of_length_le hbefore.length_le

/-- Everything the second machine does, the first does. The first machine stops at the step that the
second one is just catching up with, before it or after it, whichever has the right record. -/
theorem leads_back (h : Simulation shows ends first second rel) (hrel : rel n s t) {count : Nat}
    {mid : τ} (hrun : run second.step count t = .next mid) :
    ∃ s', Leads first.step s (.next s') ∧
      List.Forall₂ shows (first.record s') (second.record mid) := by
  -- on the steps of the second machine, and where it takes none, on the number of the states
  induction count using Nat.strongRecOn generalizing n s t with
  | ind count ih =>
    induction n using Nat.strongRecOn generalizing s t with
    | ind n ihn =>
      rcases hstep : first.step s with s₁ | r | _ | _
      · obtain ⟨n₁, t₁, steps, hrel₁, hsteps, hprogress⟩ := h.next hrel hstep
        rcases Nat.lt_or_ge count steps with hlt | hge
        · obtain ⟨after, rfl⟩ := Nat.exists_eq_add_of_le (Nat.le_of_lt hlt)
          obtain ⟨hbefore, hafter⟩ := h.record_between hrun hsteps
          rcases h.record_of_between hrel hrel₁ hstep hbefore hafter with heq | heq
          · exact ⟨s, Leads.refl s, heq ▸ h.record hrel⟩
          · exact ⟨s₁, Leads.single hstep, heq ▸ h.record hrel₁⟩
        · obtain ⟨rest, rfl⟩ := Nat.exists_eq_add_of_le hge
          rw [run_add hsteps] at hrun
          have hrest : ∃ s', Leads first.step s₁ (.next s') ∧
              List.Forall₂ shows (first.record s') (second.record mid) := by
            rcases Nat.eq_zero_or_pos steps with rfl | hpos
            · have hlt : n₁ < n := hprogress.resolve_left (Nat.lt_irrefl 0)
              refine ihn n₁ hlt hrel₁ ?_
              rwa [Nat.zero_add]
            · exact ih rest (by omega) hrel₁ hrun
          obtain ⟨s', hleads, hrecord⟩ := hrest
          exact ⟨s', Leads.head hstep hleads, hrecord⟩
      · obtain ⟨t', r', hmove, hsame, hdone, -⟩ := h.done hrel hstep
        have heq := h.record_of_final hrun hmove hsame (by rw [hdone]; rfl)
        exact ⟨s, Leads.refl s, heq ▸ h.record hrel⟩
      · obtain ⟨t', hmove, hsame, hfault⟩ := h.fault hrel hstep
        have heq := h.record_of_final hrun hmove hsame (by rw [hfault]; rfl)
        exact ⟨s, Leads.refl s, heq ▸ h.record hrel⟩
      · exact absurd hstep (h.not_stuck hrel)

/-- The second machine may take some steps first, as long as they are no events. This is for
routines, whose assembly opens a frame before the graph makes its first step. -/
theorem delayed (h : Simulation shows ends first second rel) :
    Simulation shows ends first second fun n s t =>
      ∃ t', Leads second.step t (.next t') ∧ second.record t' = second.record t ∧ rel n s t' where
  record := by
    rintro n s t ⟨t', -, hsame, hrel⟩
    rw [← hsame]
    exact h.record hrel
  next := by
    rintro n s t s' ⟨t', ⟨steps, hsteps⟩, hsame, hrel⟩ hstep
    obtain ⟨n', t'', more, hrel', hmore, hprogress⟩ := h.next hrel hstep
    refine ⟨n', t'', steps + more, ⟨t'', Leads.refl t'', rfl, hrel'⟩,
      (run_add hsteps).trans hmore, ?_⟩
    exact hprogress.imp_left (Nat.add_pos_right steps)
  done := by
    rintro n s t r ⟨t', hleads, hsame, hrel⟩ hstep
    obtain ⟨last, r', hlast, hsame', hdone, hends⟩ := h.done hrel hstep
    exact ⟨last, r', hleads.trans hlast, hsame'.trans hsame, hdone, hends⟩
  fault := by
    rintro n s t ⟨t', hleads, hsame, hrel⟩ hstep
    obtain ⟨last, hlast, hsame', hfault⟩ := h.fault hrel hstep
    exact ⟨last, hleads.trans hlast, hsame'.trans hsame, hfault⟩
  not_stuck := by
    rintro n s t ⟨t', -, -, hrel⟩
    exact h.not_stuck hrel
  slow := h.slow
  grows := h.grows

/-- Related states lead to the same runs: the same events, in the same order, and the same end or
none. -/
theorem mirrors (h : Simulation shows ends first second rel) (hrel : rel n s t) :
    Mirrors shows ends first second s t where
  forth := by
    intro s' hleads
    obtain ⟨n', t', hrel', hleads'⟩ := h.leads hrel hleads
    exact ⟨t', hleads', h.record hrel'⟩
  back := by
    intro t' hleads
    obtain ⟨count, hrun⟩ := hleads
    exact h.leads_back hrel hrun
  done_forth := fun r hleads => h.leads_done hrel hleads
  done_back := by
    intro r' hleads
    rcases h.final_cases hrel hleads rfl with ⟨r, r'', hdone, heq, hends⟩ | ⟨-, heq⟩
    · cases heq
      exact ⟨r, hdone, hends⟩
    · cases heq
  fault := by
    refine ⟨h.leads_fault hrel, fun hleads => ?_⟩
    rcases h.final_cases hrel hleads rfl with ⟨r, r', -, heq, -⟩ | ⟨hfault, -⟩
    · cases heq
    · exact hfault
  not_stuck := by
    refine ⟨h.not_leads_stuck hrel, fun hleads => ?_⟩
    rcases h.final_cases hrel hleads rfl with ⟨r, r', -, heq, -⟩ | ⟨-, heq⟩ <;> cases heq

end Simulation

end WordLang
