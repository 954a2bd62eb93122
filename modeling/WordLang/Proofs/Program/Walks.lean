import WordLang.Proofs.Lowering.Soundness

/-!
# What the walks of a routine visit

Both walks visit what can be reached, so the assembly of a routine is made of instructions that were
validated. A set of handles that is closed under going onward holds everything the depth-first walk
visits; what the breadth-first walk visits is such a set, as long as nothing in it leads outside the
arena; and validation has looked at every member of it.

Main statement: in a routine without a violation every scheduled handle is that of a sound
instruction (`Routine.Valid`).

The walks are recursions with a list of handles that were met and a list of those that are still to
be looked at. The breadth-first walk stays inside of the arena by itself; the depth-first one does
not, and a handle from outside is visited like any other. So what is said of it is said with sets of
handles, in the arena or not.

Induction is on the recursion of the walk, whose measure is the number of handles that have not been
met. Each lemma says something about what is visited from here on, given what was met before.
-/

namespace WordLang

namespace Routine

variable {routine : Routine}

/-! ## Breadth first

The walk of validation. It leaves out successors that are not in the arena, which validation finds
before it goes on. -/

/-- What is in the queue is visited. -/
theorem mem_breadthFirst_of_mem_queue {met queue : List InstId} {id : InstId} (hid : id ∈ queue)
    (hlt : id < routine.insts.size) : id ∈ routine.breadthFirst met queue := by
  fun_induction breadthFirst routine met queue with
  | case1 met => cases hid
  | case2 met first queue hnone ih =>
    rcases List.mem_cons.mp hid with rfl | hmem
    · rw [Array.getElem?_eq_getElem hlt] at hnone
      cases hnone
    · exact ih hmem
  | case3 met first queue inst hinst fresh ih =>
    rcases List.mem_cons.mp hid with rfl | hmem
    · exact List.mem_cons_self
    · exact List.mem_cons_of_mem _ (ih (List.mem_append_left _ hmem))

/-- From what is visited, a successor was met before or is visited too. With nothing met before,
what is visited is closed under going onward inside the arena. -/
theorem mem_breadthFirst_of_successor {met queue : List InstId} {id target : InstId} {inst : Inst}
    (hid : id ∈ routine.breadthFirst met queue) (hinst : routine.insts[id]? = some inst)
    (htarget : target ∈ inst.successors) (hlt : target < routine.insts.size) :
    target ∈ met ∨ target ∈ routine.breadthFirst met queue := by
  fun_induction breadthFirst routine met queue with
  | case1 met => cases hid
  | case2 met first queue hnone ih => exact ih hid
  | case3 met first queue inst' hinst' fresh ih =>
    have hfresh : target ∈ fresh → target ∈ breadthFirst routine (fresh ++ met) (queue ++ fresh) :=
      fun hmem => mem_breadthFirst_of_mem_queue (List.mem_append_right _ hmem) hlt
    rcases List.mem_cons.mp hid with rfl | hmem
    · by_cases hmet : target ∈ met
      · exact .inl hmet
      · obtain rfl := Option.some.inj (hinst'.symm.trans hinst)
        refine .inr (List.mem_cons_of_mem _ (hfresh ?_))
        simp [fresh, freshTargets, htarget, hmet, holds, hlt]
    · rcases ih hmem with hmet | hvisited
      · rcases List.mem_append.mp hmet with hmem | hmem
        · exact .inr (List.mem_cons_of_mem _ (hfresh hmem))
        · exact .inl hmem
      · exact .inr (List.mem_cons_of_mem _ hvisited)

/-- The start is reached. -/
theorem start_mem_reachable (h : routine.start < routine.insts.size) :
    routine.start ∈ routine.reachable :=
  mem_breadthFirst_of_mem_queue List.mem_cons_self h

/-- From what is reached every successor in the arena is reached. -/
theorem mem_reachable_of_successor {id target : InstId} {inst : Inst}
    (hid : id ∈ routine.reachable) (hinst : routine.insts[id]? = some inst)
    (htarget : target ∈ inst.successors) (hlt : target < routine.insts.size) :
    target ∈ routine.reachable := by
  rcases mem_breadthFirst_of_successor hid hinst htarget hlt with hmet | hvisited
  · obtain rfl := List.mem_singleton.mp hmet
    exact mem_breadthFirst_of_mem_queue List.mem_cons_self hlt
  · exact hvisited

/-! ## Depth first

The walk that assembly is laid out by. It visits both sides of a jump, the true one first. -/

/-- The walk stays in a set that is closed under going onward. This is how anything is said of the
schedule here: the set is chosen, and its closure is shown without a walk. -/
theorem forall_mem_depthFirst {p : InstId → Prop} {met stack : List InstId}
    (hclosed : ∀ id, p id → ∀ target ∈ routine.onward id, p target)
    (hstack : ∀ id ∈ stack, p id) : ∀ id ∈ routine.depthFirst met stack, p id := by
  fun_induction depthFirst routine met stack with
  | case1 met => exact fun id hid => absurd hid List.not_mem_nil
  | case2 met first stack hmet ih =>
    exact ih fun id hid => hstack id (List.mem_cons_of_mem _ hid)
  | case3 met first stack hmet ih =>
    rw [List.forall_mem_cons] at hstack ⊢
    refine ⟨hstack.1, ih fun id hid => ?_⟩
    rcases List.mem_append.mp hid with hmem | hmem
    · exact hclosed first hstack.1 id hmem
    · exact hstack.2 id hmem

/-- What holds of the start, and is kept by going onward, holds of everything that is scheduled. -/
theorem forall_mem_schedule {p : InstId → Prop} (hstart : p routine.start)
    (hclosed : ∀ id, p id → ∀ target ∈ routine.onward id, p target) :
    ∀ id ∈ routine.schedule, p id :=
  forall_mem_depthFirst hclosed (List.forall_mem_singleton.mpr hstart)

/-- What is on the stack is visited, unless it was before. -/
theorem mem_depthFirst_of_mem_stack {met stack : List InstId} {id : InstId} (hid : id ∈ stack) :
    id ∈ met ∨ id ∈ routine.depthFirst met stack := by
  fun_induction depthFirst routine met stack with
  | case1 met => cases hid
  | case2 met first stack hmet ih =>
    rcases List.mem_cons.mp hid with rfl | hmem
    · exact .inl hmet
    · exact ih hmem
  | case3 met first stack hmet ih =>
    rcases List.mem_cons.mp hid with rfl | hmem
    · exact .inr List.mem_cons_self
    · rcases ih (List.mem_append_right _ hmem) with hmet' | hvisited
      · rcases List.mem_cons.mp hmet' with rfl | hmem'
        · exact .inr List.mem_cons_self
        · exact .inl hmem'
      · exact .inr (List.mem_cons_of_mem _ hvisited)

/-- The way onward from what is visited is visited too, unless it was before. A handle that is met
again is passed over, so the walk need not visit it at this point. -/
theorem mem_depthFirst_of_onward {met stack : List InstId} {id target : InstId}
    (hid : id ∈ routine.depthFirst met stack) (htarget : target ∈ routine.onward id) :
    target ∈ met ∨ target ∈ routine.depthFirst met stack := by
  fun_induction depthFirst routine met stack with
  | case1 met => cases hid
  | case2 met first stack hmet ih => exact ih hid
  | case3 met first stack hmet ih =>
    have hrest : target ∈ first :: met ∨
        target ∈ depthFirst routine (first :: met) (routine.onward first ++ stack) := by
      rcases List.mem_cons.mp hid with rfl | hmem
      · exact mem_depthFirst_of_mem_stack (List.mem_append_left _ htarget)
      · exact ih hmem
    rcases hrest with hmet' | hvisited
    · rcases List.mem_cons.mp hmet' with rfl | hmem'
      · exact .inr List.mem_cons_self
      · exact .inl hmem'
    · exact .inr (List.mem_cons_of_mem _ hvisited)

/-- Nothing is visited twice. -/
theorem nodup_depthFirst (met stack : List InstId) :
    (routine.depthFirst met stack).Nodup ∧ ∀ id ∈ routine.depthFirst met stack, id ∉ met := by
  fun_induction depthFirst routine met stack with
  | case1 met => exact ⟨List.nodup_nil, fun id hid => absurd hid List.not_mem_nil⟩
  | case2 met first stack hmet ih => exact ih
  | case3 met first stack hmet ih =>
    obtain ⟨hnodup, hnew⟩ := ih
    rw [List.nodup_cons, List.forall_mem_cons]
    refine ⟨⟨fun hmem => hnew first hmem List.mem_cons_self, hnodup⟩, hmet, fun id hid hmem => ?_⟩
    exact hnew id hid (List.mem_cons_of_mem _ hmem)

/-- Nothing is scheduled twice. -/
theorem nodup_schedule (routine : Routine) : routine.schedule.Nodup :=
  (nodup_depthFirst [] [routine.start]).1

/-- The start is scheduled first. -/
theorem head?_schedule (routine : Routine) : routine.schedule.head? = some routine.start := by
  rw [schedule, depthFirst, if_neg List.not_mem_nil, List.head?_cons]

/-- The way onward from what is scheduled is scheduled. -/
theorem mem_schedule_of_onward {id target : InstId} (hid : id ∈ routine.schedule)
    (htarget : target ∈ routine.onward id) : target ∈ routine.schedule := by
  rcases mem_depthFirst_of_onward hid htarget with hmet | hvisited
  · cases hmet
  · exact hvisited

end Routine

/-! ## Validation

What validation has looked at, and what it establishes. -/

/-- Only a copy reads a constant. -/
theorem InstKind.exists_copy_of_const_mem {kind : InstKind} {id : ConstId}
    (h : Operand.const id ∈ kind.operands) : ∃ dst, kind = .copy dst (.const id) := by
  cases kind with
  | copy dst src =>
    obtain rfl := List.mem_singleton.mp h
    exact ⟨dst, rfl⟩
  | _ => simp [InstKind.operands] at h

/-- An instruction in which validation finds nothing wrong is sound. Of the parts of the check, one
is not used: the number of arguments is about a call and its callee, and says nothing about the
routine. -/
theorem Inst.sound_of_violation? {constants : List Constant} {routine : Routine} {site : Site}
    {inst : Inst} (h : inst.violation? constants routine site = none) :
    inst.Sound constants routine := by
  simp only [Inst.violation?, Option.orElse_eq_orElse, Option.orElse_eq_or, Option.or_eq_none_iff]
    at h
  -- the check answers with its first complaint, so silence is the silence of every part
  obtain ⟨htargets, hshape, hregisters, hconstant, -⟩ := h
  have hall : inst.successors.all routine.holds = true := by
    unfold Inst.targetViolation? at htargets
    split at htargets
    · assumption
    · cases htargets
  have hall' : inst.kind.registers.all routine.owns = true := by
    unfold Inst.registerViolation? at hregisters
    split at hregisters
    · assumption
    · cases hregisters
  refine ⟨fun id hid => ?_, fun hjump => ?_, fun htrue => ?_, fun hret => ?_,
    List.all_eq_true.mp hall', fun id hid => ?_⟩
  · exact of_decide_eq_true (List.all_eq_true.mp hall id hid)
  · obtain ⟨kind, next, onTrue⟩ := inst
    cases kind with
    | jump cond => cases next <;> cases onTrue <;> first | exact ⟨rfl, rfl⟩ | cases hshape
    | _ => cases hjump
  · obtain ⟨kind, next, onTrue⟩ := inst
    cases onTrue with
    | none => cases htrue
    | some target => cases kind <;> first | rfl | (cases next <;> cases hshape)
  · obtain ⟨kind, next, onTrue⟩ := inst
    cases kind with
    | ret value => cases next <;> cases onTrue <;> first | rfl | cases hshape
    | _ => cases hret
  · obtain ⟨dst, hkind⟩ := InstKind.exists_copy_of_const_mem hid
    rw [Inst.constantViolation?, hkind] at hconstant
    split at hconstant
    · next hcopy =>
      cases hcopy
      split at hconstant
      · assumption
      · cases hconstant
    · next hother => exact absurd rfl (hother dst id)

/-- What validation establishes about the part of a routine that assembly is made from. Instructions
that cannot be reached are not looked at, so nothing is said of them. -/
structure Routine.Valid (constants : List Constant) (routine : Routine) : Prop where
  args : ∀ arg ∈ routine.args, routine.owns (.temp arg) = true
  scheduled : ∀ id ∈ routine.schedule, ∃ inst, routine.insts[id]? = some inst ∧
    inst.Sound constants routine

/-- A routine without a violation is valid. What validation has visited holds the start and is
closed under going onward, so the schedule, which is made by another walk, stays inside of it. -/
theorem Routine.valid_of_violation? {constants : List Constant} {routine : Routine}
    (h : routine.violation? constants = none) : routine.Valid constants := by
  unfold Routine.violation? at h
  split at h
  · cases h
  · next hstart =>
    split at h
    · cases h
    · next hargs =>
      simp only [Bool.not_eq_true', Bool.not_eq_false, List.all_eq_true] at hstart hargs
      have hlt : routine.start < routine.insts.size := of_decide_eq_true hstart
      have hsound : ∀ id ∈ routine.reachable, ∀ inst, routine.insts[id]? = some inst →
          inst.Sound constants routine := by
        intro id hid inst hinst
        have hnone := List.findSome?_eq_none_iff.mp h id hid
        rw [Routine.instViolation?, hinst] at hnone
        exact Inst.sound_of_violation? hnone
      refine ⟨hargs, fun id hid => ?_⟩
      -- everything scheduled was visited by validation, and is in the arena
      have hvisited :
        ∀ id ∈ routine.schedule, id ∈ routine.reachable ∧ id < routine.insts.size := by
        refine Routine.forall_mem_schedule ⟨Routine.start_mem_reachable hlt, hlt⟩ ?_
        rintro id ⟨hreachable, hid⟩ target htarget
        have hinst := Array.getElem?_eq_getElem hid
        have hmem : target ∈ (routine.insts[id]).successors := by
          rw [Routine.onward, hinst] at htarget
          simp only at htarget
          split at htarget
          · exact (List.perm_append_comm.mem_iff).mp htarget
          · exact List.mem_append_left _ htarget
        have htarget' := (hsound id hreachable _ hinst).targets target hmem
        exact ⟨Routine.mem_reachable_of_successor hreachable hinst hmem htarget', htarget'⟩
      obtain ⟨hreachable, hlt'⟩ := hvisited id hid
      have hinst := Array.getElem?_eq_getElem hlt'
      exact ⟨_, hinst, hsound id hreachable _ hinst⟩

end WordLang
