import Mathlib.Data.List.Nodup
import WordLang.Proofs.Program.Reach

/-!
# What the schedule visits, and in which order

The schedule of any routine, valid or not, begins with the start and has every handle once that the
edges lead to, counting the true side of jumps only (`Routine.mem_schedule_iff`). That the walk
ends, whatever the edges are, is part of its definition.

In a valid routine only jumps have a true side and no edge leaves the arena. There the depth-first
and the breadth-first walk visit the same instructions, which are those that some way leads to.

The order is such that control falls through where it can: the preferred way on from an instruction
comes right after it, unless it was visited before.
-/

namespace WordLang

namespace Routine

/-- Control may go from `id` to `target`: along the edge `next`, or along the true side of a jump.
-/
def Continues (routine : Routine) (id target : InstId) : Prop :=
  ∃ inst, routine.insts[id]? = some inst ∧
    (inst.next = some target ∨ inst.kind.isJump = true ∧ inst.onTrue = some target)

/-- The way on that needs no branch: the true side of a jump, and the edge `next` of anything else.
-/
def preferred? (routine : Routine) (id : InstId) : Option InstId :=
  routine.insts[id]?.bind fun inst => if inst.kind.isJump then inst.onTrue else inst.next

variable {routine : Routine} {id target : InstId}

theorem mem_onward_iff : target ∈ routine.onward id ↔ routine.Continues id target := by
  rw [onward, Continues]
  rcases hinst : routine.insts[id]? with _ | inst
  · simp
  · rcases hjump : inst.kind.isJump with _ | _ <;> simp [hjump, or_comm]

/-- The preferred way on is the first that the walk takes. -/
theorem onward_of_preferred? (h : routine.preferred? id = some target) :
    ∃ others, routine.onward id = target :: others := by
  obtain ⟨inst, hinst, hpreferred⟩ := Option.bind_eq_some_iff.mp h
  rw [onward, hinst]
  split at hpreferred
  · next hjump => exact ⟨inst.next.toList, by simp [hjump, hpreferred]⟩
  · next hjump => exact ⟨[], by simp [hjump, hpreferred]⟩

theorem Continues.links (h : routine.Continues id target) : routine.Links id target := by
  obtain ⟨inst, hinst, hnext | ⟨-, htrue⟩⟩ := h
  · exact ⟨inst, hinst, by simp [Inst.successors, hnext]⟩
  · exact ⟨inst, hinst, by simp [Inst.successors, htrue]⟩

/-! ## What is visited -/

/-- The schedule has what can be got to from the start, and nothing else. -/
theorem mem_schedule_iff :
    id ∈ routine.schedule ↔ Relation.ReflTransGen routine.Continues routine.start id := by
  constructor
  · refine forall_mem_schedule .refl (fun id hid target htarget => ?_) id
    exact hid.tail (mem_onward_iff.mp htarget)
  · intro h
    induction h with
    | refl => exact List.mem_of_mem_head? routine.head?_schedule
    | tail _ hcontinues ih => exact mem_schedule_of_onward ih (mem_onward_iff.mpr hcontinues)

/-- The breadth-first walk visits nothing twice. What it visits was in the queue or is new; all that
is in the queue has been met. -/
theorem nodup_breadthFirst {met queue : List InstId} (hnodup : queue.Nodup) (hmet : queue ⊆ met) :
    (routine.breadthFirst met queue).Nodup ∧
      ∀ id ∈ routine.breadthFirst met queue, id ∈ queue ∨ id ∉ met := by
  fun_induction breadthFirst routine met queue with
  | case1 met => exact ⟨List.nodup_nil, fun _ hid => absurd hid List.not_mem_nil⟩
  | case2 met first queue hnone ih =>
    obtain ⟨hvisited, hnew⟩ := ih hnodup.of_cons (List.subset_of_cons_subset hmet)
    exact ⟨hvisited, fun id hid => (hnew id hid).imp_left (List.mem_cons_of_mem _)⟩
  | case3 met first queue inst hinst fresh ih =>
    have hfresh : ∀ id ∈ fresh, id ∉ met := fun id hid => (mem_freshTargets hid).2
    obtain ⟨hfirst, hqueue⟩ := List.cons_subset.mp hmet
    obtain ⟨hfirst', hnodup⟩ := List.nodup_cons.mp hnodup
    -- what is queued has been met, and fresh targets have not
    have hnodup' : (queue ++ fresh).Nodup :=
      hnodup.append (routine.nodup_freshTargets met inst) fun id hold hid =>
        hfresh id hid (hqueue hold)
    obtain ⟨hvisited, hnew⟩ := ih hnodup' <| List.append_subset.mpr
      ⟨List.Subset.trans hqueue (List.subset_append_right _ _), List.subset_append_left _ _⟩
    have hcases : ∀ id ∈ routine.breadthFirst (fresh ++ met) (queue ++ fresh),
        id ∈ queue ∨ id ∉ met := by
      intro id hid
      rcases hnew id hid with hmem | hmem
      · exact (List.mem_append.mp hmem).imp_right (hfresh id)
      · exact .inr fun hid => hmem (List.mem_append_right _ hid)
    refine ⟨List.nodup_cons.mpr ⟨fun hagain => ?_, hvisited⟩, fun id hid => ?_⟩
    · rcases hcases first hagain with hmem | hmem
      · exact hfirst' hmem
      · exact hmem hfirst
    · rcases List.mem_cons.mp hid with rfl | hmem
      · exact .inl List.mem_cons_self
      · exact (hcases id hmem).imp_left (List.mem_cons_of_mem _)

theorem nodup_reachable (routine : Routine) : routine.reachable.Nodup :=
  (nodup_breadthFirst (List.nodup_singleton _) (List.Subset.refl _)).1

/-- In a valid routine every way is one that the schedule takes. -/
theorem Valid.mem_schedule_iff_reaches {constants : List Constant} (h : routine.Valid constants) :
    id ∈ routine.schedule ↔ routine.Reaches routine.start id := by
  constructor
  · intro hid
    exact Relation.ReflTransGen.mono (fun _ _ hcontinues => hcontinues.links) _ _
      (mem_schedule_iff.mp hid)
  · intro hreaches
    induction hreaches with
    | refl => exact List.mem_of_mem_head? routine.head?_schedule
    | tail _ hlinks ih =>
      obtain ⟨inst, hinst, hsuccessor⟩ := hlinks
      obtain ⟨inst', hinst', hsound⟩ := h.scheduled _ ih
      obtain rfl := Option.some.inj (hinst'.symm.trans hinst)
      refine mem_schedule_of_onward ih (mem_onward_iff.mpr ⟨inst', hinst, ?_⟩)
      rcases List.mem_append.mp hsuccessor with hnext | htrue
      · exact .inl (Option.mem_toList.mp hnext)
      · have htrue := Option.mem_toList.mp htrue
        exact .inr ⟨hsound.branch (Option.isSome_of_mem htrue), htrue⟩

/-- In a valid routine no way leaves the arena, so the other walk visits the same instructions. -/
theorem Valid.mem_reachable_iff_reaches {constants : List Constant} (h : routine.Valid constants) :
    id ∈ routine.reachable ↔ routine.Reaches routine.start id := by
  rw [mem_reachable_iff, and_iff_left_iff_imp]
  intro hreaches
  obtain ⟨inst, hinst, -⟩ := h.scheduled id (h.mem_schedule_iff_reaches.mpr hreaches)
  exact (Array.getElem?_eq_some_iff.mp hinst).1

theorem Valid.perm_reachable {constants : List Constant} (h : routine.Valid constants) :
    routine.schedule.Perm routine.reachable := by
  rw [List.perm_ext_iff_of_nodup routine.nodup_schedule routine.nodup_reachable]
  intro id
  rw [h.mem_schedule_iff_reaches, h.mem_reachable_iff_reaches]

/-! ## The order -/

/-- The preferred way on is put on top of the stack, so it is visited next if it is new. -/
theorem getElem?_succ_depthFirst {met stack : List InstId} {place : Nat}
    (hid : (routine.depthFirst met stack)[place]? = some id)
    (hpreferred : routine.preferred? id = some target) (hmet : target ∉ met)
    (hnew : target ∉ (routine.depthFirst met stack).take (place + 1)) :
    (routine.depthFirst met stack)[place + 1]? = some target := by
  fun_induction depthFirst routine met stack generalizing place with
  | case1 met => cases hid
  | case2 met first stack hfirst ih => exact ih hid hmet hnew
  | case3 met first stack hfirst ih =>
    rw [List.take_succ_cons, List.mem_cons, not_or] at hnew
    have hmet' : target ∉ first :: met := List.not_mem_cons_of_ne_of_not_mem hnew.1 hmet
    rw [List.getElem?_cons_succ]
    cases place with
    | zero =>
      obtain rfl := Option.some.inj hid
      obtain ⟨others, honward⟩ := onward_of_preferred? hpreferred
      rw [honward, List.cons_append, depthFirst, if_neg hmet', List.getElem?_cons_zero]
    | succ place => exact ih hid hmet' hnew.2

/-- The schedule of a routine begins with the start and has each handle once that control may get
to. If the routine is valid these are the instructions that some way leads to, and those of the
breadth-first walk. The preferred way on from an instruction comes right after it, unless it comes
before it or is the instruction itself. -/
theorem schedule_visits (routine : Routine) :
    routine.schedule.head? = some routine.start ∧ routine.schedule.Nodup ∧
    (∀ id, id ∈ routine.schedule ↔
      Relation.ReflTransGen routine.Continues routine.start id) ∧
    (∀ constants, routine.violation? constants = none →
      routine.schedule.Perm routine.reachable ∧
      ∀ id, (id ∈ routine.schedule ↔ routine.Reaches routine.start id) ∧
        (id ∈ routine.reachable ↔ routine.Reaches routine.start id)) ∧
    ∀ place id target, routine.schedule[place]? = some id → routine.preferred? id = some target →
      target ∉ routine.schedule.take (place + 1) → routine.schedule[place + 1]? = some target := by
  refine ⟨routine.head?_schedule, routine.nodup_schedule, fun _ => mem_schedule_iff,
    fun constants hvalid => ?_, fun place id target hid hpreferred hnew => ?_⟩
  · have hvalid := valid_of_violation? hvalid
    exact ⟨hvalid.perm_reachable,
      fun id => ⟨hvalid.mem_schedule_iff_reaches, hvalid.mem_reachable_iff_reaches⟩⟩
  · exact getElem?_succ_depthFirst hid hpreferred List.not_mem_nil hnew

/-- A loop with a condition in it: the branches meet again, the last one leads back, and nothing
leads to the instruction at 2, which leads out of the arena. -/
def knotted : Routine where
  name := "knotted"
  ty := .func [.bool] .void
  args := [⟨0⟩]
  temps := 1
  insts := #[
    { kind := .jump ⟨0⟩, next := some 1, onTrue := some 5 },
    { kind := .ret none },
    { kind := .nop, next := some 9 },
    { kind := .nop, next := some 4 },
    { kind := .nop, next := some 0 },
    { kind := .jump ⟨0⟩, next := some 4, onTrue := some 3 }]

theorem schedule_visits_knotted :
    knotted.violation? [] = none ∧ knotted.schedule = [0, 5, 3, 4, 1] ∧
      knotted.reachable = [0, 1, 5, 4, 3] ∧ knotted.schedule.Perm knotted.reachable ∧
        knotted.schedule[2]? = some 3 := by
  have hvalid : knotted.violation? [] = none := by decide +kernel
  obtain ⟨-, -, -, hvisits, horder⟩ := schedule_visits knotted
  exact ⟨hvalid, by decide +kernel, by decide +kernel, (hvisits [] hvalid).1,
    horder 1 5 3 (by decide +kernel) (by decide +kernel) (by decide +kernel)⟩

end Routine

end WordLang
