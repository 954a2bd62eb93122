import WordLang.Proofs.Semantics.Run
import WordLang.Proofs.Semantics.Source

/-!
# Machines that follow a computation

`Follows` ties a machine to a computation that may end in several ways. Where the computation has a
result, the machine gets to a state that matches it; where it faults, so does the machine; where it
ran out of fuel, the machine goes on for as long; and it is never stuck. The rules below go along
the structure of the computation, so a proof that a machine follows it reads like the computation
itself.

The fuel of the computation and the steps of the machine are not the same thing. They are only
compared where the fuel has run out, and there it is enough that the machine has made as many steps
as there was fuel. So a rule may give the machine more steps than it needs (`after`), and one step
of the machine pays for one unit of fuel (`next`).

In the end the fuel goes away again (`ends_iff`): a computation that is followed at every fuel ends
exactly as the machine does.
-/

namespace WordLang

variable {σ ρ τ α β : Type} {step : σ → Progress σ ρ} {fuel : Nat} {state state' : σ}

/-- From a state the machine does what the computation with this outcome does. A computation that
makes no sense is not followed by anything, so following one shows that it does make sense. -/
def Follows (step : σ → Progress σ ρ) (fuel : Nat) (state : σ) (outcome : Except Stop α)
    (post : α → σ → Prop) : Prop :=
  match outcome with
  | .ok result => ∃ state', Leads step state (.next state') ∧ post result state'
  | .error .fault => Leads step state .fault
  | .error .timeout => Lasts step fuel state
  | .error .stuck => False

namespace Follows

variable {outcome : Except Stop α} {post : α → σ → Prop}

/-- A computation with a result that already matches. -/
theorem here {result : α} (h : post result state) : Follows step fuel state (.ok result) post :=
  ⟨state, .refl state, h⟩

/-- The machine first gets to a state from which it follows the computation. -/
theorem after (h₁ : Leads step state (.next state')) (h₂ : Follows step fuel state' outcome post) :
    Follows step fuel state outcome post := by
  match outcome, h₂ with
  | .ok result, ⟨last, hlast, hpost⟩ => exact ⟨last, h₁.trans hlast, hpost⟩
  | .error .fault, hfault => exact h₁.trans hfault
  | .error .timeout, hlasts => exact .of_leads h₁ hlasts

/-- One step of the machine, from which it follows the computation with that much less fuel. Loops
use it once a round. -/
theorem next (h₁ : step state = .next state') (h₂ : Follows step fuel state' outcome post) :
    Follows step (fuel + 1) state outcome post := by
  match outcome, h₂ with
  | .ok result, ⟨last, hlast, hpost⟩ => exact ⟨last, hlast.head h₁, hpost⟩
  | .error .fault, hfault => exact hfault.head h₁
  | .error .timeout, hlasts => exact hlasts.succ h₁

/-- A computation that is followed with some fuel is followed with less. -/
theorem fewer {fuel' : Nat} (h : Follows step fuel state outcome post) (hle : fuel' ≤ fuel) :
    Follows step fuel' state outcome post := by
  match outcome, h with
  | .ok result, h => exact h
  | .error .fault, h => exact h
  | .error .timeout, hlasts => exact hlasts.mono hle

/-- When the computation is over, the machine goes on. If the computation was not over, there is
nothing to show. -/
theorem further {post' : α → σ → Prop} (h : Follows step fuel state outcome post)
    (hpost' : ∀ result last, post result last →
      ∃ state', Leads step last (.next state') ∧ post' result state') :
    Follows step fuel state outcome post' := by
  match outcome, h with
  | .ok result, ⟨last, hlast, hpost⟩ =>
    obtain ⟨state', hleads, hpost⟩ := hpost' result last hpost
    exact ⟨state', hlast.trans hleads, hpost⟩
  | .error .fault, h => exact h
  | .error .timeout, h => exact h

/-- A sequence is followed when its first part is and the rest is from there. If the first part has
no result, then neither has the sequence, and for the same reason. -/
theorem andThen {f : α → Except Stop β} {post' : β → σ → Prop}
    (h : Follows step fuel state outcome post)
    (hf : ∀ result last, post result last → Follows step fuel last (f result) post') :
    Follows step fuel state (outcome >>= f) post' := by
  match outcome, h with
  | .ok result, ⟨last, hlast, hpost⟩ => exact (hf result last hpost).after hlast
  | .error .fault, h => exact h
  | .error .timeout, h => exact h

/-- The same for a computation with a state. -/
theorem bind {x : StateT τ (Except Stop) α} {f : α → StateT τ (Except Stop) β} {store : τ}
    {post : α × τ → σ → Prop} {post' : β × τ → σ → Prop}
    (h : Follows step fuel state (x store) post)
    (hf : ∀ a store' last, post (a, store') last → Follows step fuel last (f a store') post') :
    Follows step fuel state ((x >>= f) store) post' :=
  h.andThen fun result last => hf result.1 result.2 last

/-- A part that does not use the state, and has a result. The machine has nothing to do for it. -/
theorem lift {x : Except Stop α} {a : α} {f : α → StateT τ (Except Stop) β} {store : τ}
    {post' : β × τ → σ → Prop} (hx : x = .ok a)
    (hf : Follows step fuel state (f a store) post') :
    Follows step fuel state ((liftM x >>= f : StateT τ (Except Stop) β) store) post' := by
  subst hx
  exact hf

/-- A machine that follows a computation at every fuel, and is done where the computation has a
result, ends exactly as the computation does. For the way back, take more fuel than the machine
makes steps: then the computation cannot have run out of it, and since the machine has one end only,
the outcome is the right one. -/
theorem ends_iff {outcome : Nat → Except Stop ρ}
    (h : ∀ fuel, Follows step fuel state (outcome fuel) fun result last =>
      step last = .done result) :
    (∀ result, (∃ fuel, outcome fuel = .ok result) ↔ Leads step state (.done result)) ∧
      ((∃ fuel, outcome fuel = .error .fault) ↔ Leads step state .fault) := by
  have hok : ∀ fuel result, outcome fuel = .ok result → Leads step state (.done result) := by
    intro fuel result hresult
    have hfollows := h fuel
    rw [hresult] at hfollows
    obtain ⟨last, hlast, hdone⟩ := hfollows
    exact hlast.trans (.single hdone)
  have hfault : ∀ fuel, outcome fuel = .error .fault → Leads step state .fault := by
    intro fuel hresult
    have hfollows := h fuel
    rw [hresult] at hfollows
    exact hfollows
  -- with enough fuel the computation does not run out of it
  have hends : ∀ progress : Progress σ ρ, Leads step state progress → progress.isFinal = true →
      ∃ fuel, (∃ result, outcome fuel = .ok result) ∨ outcome fuel = .error .fault := by
    intro progress hleads hfinal
    obtain ⟨fuel, hlasts⟩ := hleads.exists_not_lasts hfinal
    refine ⟨fuel, ?_⟩
    have hfollows := h fuel
    match hout : outcome fuel with
    | .ok result => exact .inl ⟨result, rfl⟩
    | .error .fault => exact .inr rfl
    | .error .timeout =>
      rw [hout] at hfollows
      exact absurd hfollows hlasts
    | .error .stuck =>
      rw [hout] at hfollows
      exact hfollows.elim
  refine ⟨fun result => ⟨fun ⟨fuel, hresult⟩ => hok fuel result hresult, fun hleads => ?_⟩,
    fun ⟨fuel, hresult⟩ => hfault fuel hresult, fun hleads => ?_⟩
  · obtain ⟨fuel, ⟨result', hresult⟩ | hresult⟩ := hends _ hleads rfl
    · cases hleads.unique (hok fuel result' hresult) rfl rfl
      exact ⟨fuel, hresult⟩
    · cases hleads.unique (hfault fuel hresult) rfl rfl
  · obtain ⟨fuel, ⟨result', hresult⟩ | hresult⟩ := hends _ hleads rfl
    · cases hleads.unique (hok fuel result' hresult) rfl rfl
    · exact ⟨fuel, hresult⟩

end Follows

end WordLang
