import Mathlib.Data.List.Chain
import WordLang.Proofs.Program.Reach

/-!
# Registers that are written before they are read

Along a path through a routine every instruction finds the registers that were written before it
came. `routine.Ready steps written id` says that this is enough: whoever goes on from `id` for so
many steps, with `written` behind them, reads nothing that was not written. The number of steps
makes it a recursion although paths may go round for ever; what holds for every number of steps
holds for every path (`Routine.Ready.written_before`).

Being ready is about what comes after a place, and does not ask how one got there. So it can be
shown backwards, from where a path may end, and the graph need not be known beyond the places that a
path leads to.
-/

namespace WordLang

/-- The registers that an instruction reads. -/
def InstKind.reads (kind : InstKind) : List Register :=
  kind.operands.filterMap Operand.register?

/-- The registers that were written, when there may have been one more. -/
def adding (written : Set Register) (result : Option Register) : Set Register :=
  { r | r ∈ written ∨ result = some r }

section

variable {written written' : Set Register} {result : Option Register} {r : Register}

/-- What was written stays written. -/
theorem subset_adding : written ⊆ adding written result :=
  fun _ h => .inl h

/-- What was just written is written. -/
theorem mem_adding_self : r ∈ adding written (some r) :=
  .inr rfl

/-- A bound for what was written before, and for what is written now. -/
theorem adding_subset (h : written ⊆ written') (hresult : ∀ r, result = some r → r ∈ written') :
    adding written result ⊆ written' := by
  rintro r (hr | hr)
  · exact h hr
  · exact hresult r hr

/-- The more was written before, the more is written after. -/
theorem adding_mono (h : written ⊆ written') : adding written result ⊆ adding written' result :=
  adding_subset (h.trans subset_adding) fun _ hr => .inr hr

end

namespace Routine

/-- Handles one after the other along the edges, from the start on. -/
structure Path (routine : Routine) (path : List InstId) : Prop where
  head?_eq : path.head? = some routine.start
  chain : path.IsChain routine.Links

instance (routine : Routine) : DecidableRel routine.Links := fun id target =>
  inferInstanceAs (Decidable (∃ inst ∈ routine.insts[id]?, target ∈ inst.successors))

instance (routine : Routine) (path : List InstId) : Decidable (routine.Path path) :=
  decidable_of_iff (path.head? = some routine.start ∧ path.IsChain routine.Links)
    ⟨fun h => ⟨h.1, h.2⟩, fun h => ⟨h.head?_eq, h.chain⟩⟩

/-- For so many steps from a handle on nothing is read that was not written, if the given registers
were written before. -/
def Ready (routine : Routine) : Nat → Set Register → InstId → Prop
  | 0, _, _ => True
  | steps + 1, written, id =>
    ∀ inst, routine.insts[id]? = some inst →
      (∀ r ∈ inst.kind.reads, r ∈ written) ∧
        ∀ target ∈ inst.successors, routine.Ready steps (adding written inst.kind.dst) target

namespace Ready

variable {routine : Routine} {steps steps' : Nat} {written written' : Set Register} {id : InstId}

/-- It does no harm if more has been written. -/
theorem mono (h : routine.Ready steps written id) (hsub : written ⊆ written') :
    routine.Ready steps written' id := by
  induction steps generalizing written written' id with
  | zero => trivial
  | succ steps ih =>
    intro inst hinst
    obtain ⟨hreads, hnext⟩ := h inst hinst
    exact ⟨fun r hr => hsub (hreads r hr),
      fun target htarget => ih (hnext target htarget) (adding_mono hsub)⟩

/-- What holds for some steps holds for fewer. -/
theorem fewer (h : routine.Ready steps written id) (hle : steps' ≤ steps) :
    routine.Ready steps' written id := by
  induction steps' generalizing steps written id with
  | zero => trivial
  | succ steps' ih =>
    obtain ⟨steps, rfl⟩ : ∃ n, steps = n + 1 := ⟨steps - 1, by omega⟩
    intro inst hinst
    obtain ⟨hreads, hnext⟩ := h inst hinst
    exact ⟨hreads, fun target htarget => ih (hnext target htarget) (by omega)⟩

/-- Along a path, what the last instruction reads was written at the start or on the way. -/
theorem written_before {before : List InstId} {first last : InstId} {inst : Inst} {r : Register}
    (h : routine.Ready (before.length + 1) written first)
    (hfirst : (before ++ [last]).head? = some first)
    (hchain : (before ++ [last]).IsChain routine.Links)
    (hinst : routine.insts[last]? = some inst) (hr : r ∈ inst.kind.reads) :
    r ∈ written ∨ ∃ id ∈ before, ∃ earlier, routine.insts[id]? = some earlier ∧
      earlier.kind.dst = some r := by
  induction before generalizing written first with
  | nil =>
    obtain rfl := Option.some.inj hfirst
    exact .inl ((h inst hinst).1 r hr)
  | cons id rest ih =>
    obtain rfl := Option.some.inj hfirst
    obtain ⟨next, hnext⟩ : ∃ next, (rest ++ [last]).head? = some next := by
      cases rest <;> exact ⟨_, rfl⟩
    rw [List.cons_append, List.isChain_cons] at hchain
    obtain ⟨earlier, hearlier, hsuccessor⟩ := hchain.1 next hnext
    -- one step on, the register may be the one that was just written
    rcases ih ((h earlier hearlier).2 next hsuccessor) hnext hchain.2 with hwritten | hlater
    · rcases hwritten with hold | hnew
      · exact .inl hold
      · exact .inr ⟨id, List.mem_cons_self, earlier, hearlier, hnew⟩
    · obtain ⟨other, hmem, hother⟩ := hlater
      exact .inr ⟨other, List.mem_cons_of_mem _ hmem, hother⟩

end Ready

end Routine

end WordLang
