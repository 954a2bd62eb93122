/-!
# Computations with a state that may fail

Lowering, and later the execution of statements, are written in one monad: a state that is handed
on, and an error that ends everything. A computation of it is opened from the outside in. These are
the rules: a sequence succeeds exactly when its first part does and the rest does from there.

The equivalences are for taking apart a computation that is known to succeed, and are simp lemmas.
They give the intermediate result and the state after it a name, which is how the lemmas on single
constructs of the lowering are stated. The rules under *Step by step* are for running a computation
whose parts are known, also when it fails.
-/

namespace WordLang.Stateful

variable {σ ε α β : Type}

/-- Without a state, a sequence succeeds exactly when both of its parts do. -/
theorem andThen_eq_ok {x : Except ε α} {f : α → Except ε β} {b : β} :
    (x >>= f) = .ok b ↔ ∃ a, x = .ok a ∧ f a = .ok b := by
  rcases x with e | a
  · constructor
    · intro h
      cases h
    · rintro ⟨_, h, _⟩
      cases h
  · constructor
    · intro h
      exact ⟨a, rfl, h⟩
    · rintro ⟨_, h, h'⟩
      cases h
      exact h'

/-- A sequence succeeds exactly when both of its parts do, one after the other. -/
@[simp]
theorem bind_eq_ok {x : StateT σ (Except ε) α} {f : α → StateT σ (Except ε) β} {s : σ}
    {r : β × σ} :
    (x >>= f) s = .ok r ↔ ∃ a s', x s = .ok (a, s') ∧ f a s' = .ok r := by
  change (x s >>= fun p => f p.1 p.2) = _ ↔ _
  rw [andThen_eq_ok]
  constructor
  · rintro ⟨⟨a, s'⟩, hx, hf⟩
    exact ⟨a, s', hx, hf⟩
  · rintro ⟨a, s', hx, hf⟩
    exact ⟨(a, s'), hx, hf⟩

/-- A value by itself leaves the state alone. -/
@[simp]
theorem pure_eq_ok {a : α} {s : σ} {r : α × σ} :
    (pure a : StateT σ (Except ε) α) s = .ok r ↔ r = (a, s) := by
  change Except.ok (a, s) = _ ↔ _
  rw [Except.ok.injEq, eq_comm]

/-- A function of the result changes the result only. -/
@[simp]
theorem map_eq_ok {f : α → β} {x : StateT σ (Except ε) α} {s s' : σ} {b : β} :
    (f <$> x) s = .ok (b, s') ↔ ∃ a, x s = .ok (a, s') ∧ b = f a := by
  rw [map_eq_pure_bind, bind_eq_ok]
  constructor
  · rintro ⟨a, _, hx, hf⟩
    cases pure_eq_ok.mp hf
    exact ⟨a, hx, rfl⟩
  · rintro ⟨a, hx, rfl⟩
    exact ⟨a, s', hx, rfl⟩

/-- A part that does not use the state leaves it alone. -/
@[simp]
theorem lift_eq_ok {x : Except ε α} {s : σ} {a : α} {s' : σ} :
    (liftM x : StateT σ (Except ε) α) s = .ok (a, s') ↔ x = .ok a ∧ s' = s := by
  change (x >>= fun a => pure (a, s)) = _ ↔ _
  rw [andThen_eq_ok]
  constructor
  · rintro ⟨v, hx, hv⟩
    cases hv
    exact ⟨hx, rfl⟩
  · rintro ⟨hx, rfl⟩
    exact ⟨a, hx, rfl⟩

/-- An error is no success. -/
@[simp]
theorem throw_eq_ok {e : ε} {s : σ} {r : α × σ} :
    (throw e : StateT σ (Except ε) α) s = .ok r ↔ False := by
  constructor
  · intro h
    cases h
  · exact False.elim

/-! ## Step by step -/

/-- A sequence goes on from where its first part ends. -/
theorem bind_of_ok {x : StateT σ (Except ε) α} {f : α → StateT σ (Except ε) β} {s s' : σ} {a : α}
    (h : x s = .ok (a, s')) : (x >>= f) s = f a s' := by
  change (x s >>= fun p => f p.1 p.2) = _
  rw [h]
  rfl

/-- A sequence fails with its first part. -/
theorem bind_of_error {x : StateT σ (Except ε) α} {f : α → StateT σ (Except ε) β} {s : σ} {e : ε}
    (h : x s = .error e) : (x >>= f) s = .error e := by
  change (x s >>= fun p => f p.1 p.2) = _
  rw [h]
  rfl

/-- A part without a state that has a result. -/
theorem lift_of_ok {x : Except ε α} {a : α} (h : x = .ok a) (s : σ) :
    (liftM x : StateT σ (Except ε) α) s = .ok (a, s) :=
  lift_eq_ok.mpr ⟨h, rfl⟩

/-- A part without a state that fails. -/
theorem lift_of_error {x : Except ε α} {e : ε} (h : x = .error e) (s : σ) :
    (liftM x : StateT σ (Except ε) α) s = .error e := by
  rw [h]
  rfl

end WordLang.Stateful
