import Mathlib.Data.Set.Basic
import Mathlib.Logic.Relation
import WordLang.Proofs.Program.Walks

/-!
# Ways through a routine

The edges of a routine as a relation between handles, and the ways along them. The breadth-first
walk visits exactly the instructions that some way from the start leads to
(`Routine.mem_reachable_iff`). That no way leads somewhere is shown with a set of handles that no
edge leaves (`Routine.Closed`).
-/

namespace WordLang

namespace Routine

/-- One of the edges of the instruction at `id` leads to `target`. -/
def Links (routine : Routine) (id target : InstId) : Prop :=
  ∃ inst, routine.insts[id]? = some inst ∧ target ∈ inst.successors

/-- Some way along the edges leads from one handle to the other. -/
def Reaches (routine : Routine) : InstId → InstId → Prop :=
  Relation.ReflTransGen routine.Links

/-- No edge leaves the set. -/
def Closed (routine : Routine) (s : Set InstId) : Prop :=
  ∀ id ∈ s, ∀ target, routine.Links id target → target ∈ s

variable {routine : Routine} {s s' : Set InstId} {id id' target : InstId}

theorem Links.lt_size (h : routine.Links id target) : id < routine.insts.size := by
  obtain ⟨inst, hinst, -⟩ := h
  exact (Array.getElem?_eq_some_iff.mp hinst).1

namespace Closed

theorem union (h : routine.Closed s) (h' : routine.Closed s') : routine.Closed (s ∪ s') := by
  rintro id (hid | hid) target hlinks
  · exact .inl (h id hid target hlinks)
  · exact .inr (h' id hid target hlinks)

/-- A way that starts in the set stays there. -/
theorem mem_of_reaches (h : routine.Closed s) (hid : id ∈ s) (hreaches : routine.Reaches id id') :
    id' ∈ s := by
  induction hreaches with
  | refl => exact hid
  | tail _ hlinks ih => exact h _ ih _ hlinks

end Closed

/-! ## The breadth-first walk -/

/-- What is visited can be reached, if what is in the queue can. -/
theorem reaches_of_mem_breadthFirst {met queue : List InstId}
    (hqueue : ∀ first ∈ queue, routine.Reaches id first) :
    ∀ target ∈ routine.breadthFirst met queue,
      routine.Reaches id target ∧ target < routine.insts.size := by
  fun_induction breadthFirst routine met queue with
  | case1 met => exact fun _ hmem => absurd hmem List.not_mem_nil
  | case2 met first queue hnone ih =>
    exact ih fun first hmem => hqueue first (List.mem_cons_of_mem _ hmem)
  | case3 met first queue inst hinst fresh ih =>
    rw [List.forall_mem_cons] at hqueue ⊢
    refine ⟨⟨hqueue.1, (Array.getElem?_eq_some_iff.mp hinst).1⟩, ih fun target hmem => ?_⟩
    rcases List.mem_append.mp hmem with hold | hfresh
    · exact hqueue.2 target hold
    · have hsuccessor := (List.mem_filter.mp (mem_firstUses.mp hfresh)).1
      exact hqueue.1.tail ⟨inst, hinst, hsuccessor⟩

/-- The walk visits exactly what can be reached, as far as it is in the arena. -/
theorem mem_reachable_iff :
    id ∈ routine.reachable ↔ routine.Reaches routine.start id ∧ id < routine.insts.size := by
  constructor
  · exact reaches_of_mem_breadthFirst (List.forall_mem_singleton.mpr .refl) id
  · rintro ⟨hreaches, hlt⟩
    induction hreaches with
    | refl => exact start_mem_reachable hlt
    | tail _ hlinks ih =>
      obtain ⟨inst, hinst, hsuccessor⟩ := hlinks
      exact mem_reachable_of_successor (ih (Array.getElem?_eq_some_iff.mp hinst).1) hinst hsuccessor
        hlt

end Routine

end WordLang
