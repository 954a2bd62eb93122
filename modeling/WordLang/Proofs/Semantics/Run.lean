/-!
# Runs

A machine is a function that says what one step comes to. A run of so many steps is then a function
too, so runs are unique without further ado, and what a run does is put together from what its parts
do:

* `Leads` goes some number of steps, and composes;
* `Lasts n` says that the machine is still going after `n` steps. A machine that lasts for every `n`
  ends in no way at all.

The same two notions serve for graphs and for assembly, which are both machines in this sense. A
statement about a part of a program says where the machine gets from its beginning, and parts are
put together with `Leads.trans`.

A machine can end in three ways: it has finished, it has trapped, or no rule applies. None of them
is left again, so it does not matter whether a run is given more steps than it needs.
-/

namespace WordLang

/-- What a step, or a run of several steps, comes to. -/
inductive Progress (σ ρ : Type) where
  /-- the machine goes on -/
  | next (state : σ)
  /-- the machine has finished -/
  | done (result : ρ)
  /-- the machine has trapped, as on a division by zero -/
  | fault
  /-- no rule says what to do -/
  | stuck

/-- A run of at most so many steps. -/
def run {σ ρ : Type} (step : σ → Progress σ ρ) : Nat → σ → Progress σ ρ
  | 0, state => .next state
  | count + 1, state =>
    match step state with
    | .next state' => run step count state'
    | .done result => .done result
    | .fault => .fault
    | .stuck => .stuck

/-- Whether a machine has come to its end. -/
def Progress.isFinal {σ ρ : Type} : Progress σ ρ → Bool
  | .next _ => false
  | _ => true

section

variable {σ ρ : Type} {step : σ → Progress σ ρ} {state state' : σ}
    {progress progress' : Progress σ ρ}
  {count : Nat}

/-- A step that leads on uses up one of the steps. -/
theorem run_succ_of_next (h : step state = .next state') :
    run step (count + 1) state = run step count state' := by
  rw [run, h]

/-- After the last step nothing more happens. -/
theorem run_succ_of_final (h : (step state).isFinal = true) :
    run step (count + 1) state = step state := by
  rw [run]
  rcases hstep : step state with state' | result | _ | _
  · rw [hstep] at h
    cases h
  all_goals rfl

/-- A run can be made in two parts. -/
theorem run_add {first : Nat} (h : run step first state = .next state') :
    run step (first + count) state = run step count state' := by
  induction first generalizing state with
  | zero =>
    cases h
    rw [Nat.zero_add]
  | succ first ih =>
    rcases hstep : step state with mid | result | _ | _
    · rw [run_succ_of_next hstep] at h
      rw [Nat.succ_add, run_succ_of_next hstep, ih h]
    all_goals
      rw [run, hstep] at h
      cases h

/-- Once a machine has come to its end, more steps make no difference. -/
theorem run_of_le {first : Nat} (h : run step first state = progress)
    (hfinal : progress.isFinal = true) (hle : first ≤ count) : run step count state = progress := by
  induction first generalizing state count with
  | zero =>
    rw [run] at h
    rw [← h] at hfinal
    cases hfinal
  | succ first ih =>
    obtain ⟨count, rfl⟩ : ∃ rest, count = rest + 1 := ⟨count - 1, by omega⟩
    rcases hstep : step state with mid | result | _ | _
    · rw [run_succ_of_next hstep] at h ⊢
      exact ih h (by omega)
    all_goals
      rw [run, hstep] at h ⊢
      exact h

/-! ## Leading somewhere

How runs are put together, and what can be said of one that comes to its end. -/

/-- From a state the machine gets to something, in some number of steps. -/
def Leads (step : σ → Progress σ ρ) (state : σ) (progress : Progress σ ρ) : Prop :=
  ∃ count, run step count state = progress

/-- A state is reached from itself. -/
theorem Leads.refl (state : σ) : Leads step state (.next state) :=
  ⟨0, rfl⟩

/-- What one step comes to is reached. -/
theorem Leads.single (h : step state = progress) : Leads step state progress := by
  refine ⟨1, ?_⟩
  rw [run, h]
  rcases progress with state' | result | _ | _ <;> rfl

/-- What is reached from something that is reached is reached. -/
theorem Leads.trans (h₁ : Leads step state (.next state')) (h₂ : Leads step state' progress) :
    Leads step state progress := by
  obtain ⟨first, h₁⟩ := h₁
  obtain ⟨second, h₂⟩ := h₂
  exact ⟨first + second, (run_add h₁).trans h₂⟩

/-- A step may be put in front. -/
theorem Leads.head (h₁ : step state = .next state') (h₂ : Leads step state' progress) :
    Leads step state progress :=
  (Leads.single h₁).trans h₂

/-- What is reached is here, or reached from the next state. -/
theorem Leads.cases_next {last : σ} (h : Leads step state (.next last))
    (hstep : step state = .next state') : last = state ∨ Leads step state' (.next last) := by
  obtain ⟨count, h⟩ := h
  cases count with
  | zero =>
    cases h
    exact .inl rfl
  | succ count =>
    rw [run_succ_of_next hstep] at h
    exact .inr ⟨count, h⟩

/-- Nothing is reached from the last state. -/
theorem Leads.eq_of_final {last : σ} (h : Leads step state (.next last))
    (hfinal : (step state).isFinal = true) : last = state := by
  obtain ⟨count, h⟩ := h
  cases count with
  | zero =>
    cases h
    rfl
  | succ count =>
    rw [run_succ_of_final hfinal] at h
    rw [h] at hfinal
    cases hfinal

/-- A machine has only one end. -/
theorem Leads.unique (h₁ : Leads step state progress) (h₂ : Leads step state progress')
    (hfinal₁ : progress.isFinal = true) (hfinal₂ : progress'.isFinal = true) :
    progress = progress' := by
  obtain ⟨first, h₁⟩ := h₁
  obtain ⟨second, h₂⟩ := h₂
  rw [← run_of_le h₁ hfinal₁ (Nat.le_max_left first second),
    ← run_of_le h₂ hfinal₂ (Nat.le_max_right first second)]

/-- What comes to its end does so with a last step. -/
theorem Leads.exists_last (h : Leads step state progress) (hfinal : progress.isFinal = true) :
    ∃ last, Leads step state (.next last) ∧ step last = progress := by
  obtain ⟨count, h⟩ := h
  induction count generalizing state with
  | zero =>
    rw [← h] at hfinal
    cases hfinal
  | succ count ih =>
    rcases hstep : step state with mid | result | _ | _
    · rw [run_succ_of_next hstep] at h
      obtain ⟨last, hleads, hlast⟩ := ih h
      exact ⟨last, Leads.head hstep hleads, hlast⟩
    all_goals
      rw [run, hstep] at h
      exact ⟨state, Leads.refl state, hstep.trans h⟩

/-! ## Going on

A run that does not end is known by its beginnings, which are all runs of the same machine. -/

/-- The machine has not come to its end after so many steps. -/
def Lasts (step : σ → Progress σ ρ) (count : Nat) (state : σ) : Prop :=
  ∃ state', run step count state = .next state'

/-- No step was asked for. -/
theorem Lasts.zero (state : σ) : Lasts step 0 state :=
  ⟨state, rfl⟩

/-- A step may be put in front. -/
theorem Lasts.succ (h₁ : step state = .next state') (h₂ : Lasts step count state') :
    Lasts step (count + 1) state := by
  obtain ⟨last, h₂⟩ := h₂
  exact ⟨last, (run_succ_of_next h₁).trans h₂⟩

/-- What lasts for some steps lasts for fewer. -/
theorem Lasts.mono {fewer : Nat} (h : Lasts step count state) (hle : fewer ≤ count) :
    Lasts step fewer state := by
  obtain ⟨last, h⟩ := h
  rcases hrun : run step fewer state with mid | result | _ | _
  · exact ⟨mid, hrun⟩
  all_goals
    rw [run_of_le hrun rfl hle] at h
    cases h

/-- What lasts from a later state lasts from an earlier one. -/
theorem Lasts.of_leads (h₁ : Leads step state (.next state')) (h₂ : Lasts step count state') :
    Lasts step count state := by
  obtain ⟨first, h₁⟩ := h₁
  obtain ⟨last, h₂⟩ := h₂
  have hlasts : Lasts step (first + count) state := ⟨last, (run_add h₁).trans h₂⟩
  exact hlasts.mono (Nat.le_add_left _ _)

/-- A machine that comes to its end does not go on forever. -/
theorem Leads.exists_not_lasts (h : Leads step state progress) (hfinal : progress.isFinal = true) :
    ∃ count, ¬ Lasts step count state := by
  obtain ⟨count, h⟩ := h
  refine ⟨count, fun hlasts => ?_⟩
  obtain ⟨last, hlast⟩ := hlasts
  rw [h] at hlast
  rw [hlast] at hfinal
  cases hfinal

/-- A machine that goes on forever takes a step, and then goes on forever. -/
theorem Lasts.exists_next (h : ∀ count, Lasts step count state) :
    ∃ state', step state = .next state' ∧ ∀ count, Lasts step count state' := by
  rcases hstep : step state with mid | result | _ | _
  · refine ⟨mid, rfl, fun count => ?_⟩
    obtain ⟨last, hlast⟩ := h (count + 1)
    exact ⟨last, (run_succ_of_next hstep).symm.trans hlast⟩
  all_goals
    obtain ⟨last, hlast⟩ := h 1
    rw [run, hstep] at hlast
    cases hlast

/-- A machine that does not go on comes to its end. -/
theorem exists_final_of_not_lasts (h : ¬ Lasts step count state) :
    ∃ progress, Leads step state progress ∧ progress.isFinal = true := by
  rcases hrun : run step count state with last | result | _ | _
  · exact absurd ⟨last, hrun⟩ h
  all_goals exact ⟨_, ⟨count, hrun⟩, rfl⟩

end

end WordLang
