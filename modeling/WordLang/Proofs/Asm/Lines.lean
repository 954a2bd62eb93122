import Mathlib.Data.List.Basic
import WordLang.Proofs.Asm.Completeness

/-!
# Where the lines of a step are

The assembly of a valid routine is its entry and then the lines of its steps, one step after the
other. Only the first line of a step can be a label, and it is the step's own. So looking for a
label from the beginning leads to the lines of the step that has it, and of everything after it
(`dropWhile_label`).

That is how the machine finds where to go on after a branch. What it finds are lines, and not places
of an arena; the two correspond because no two steps have the same label, and because every step
that is branched to has one.
-/

namespace WordLang

/-! ## Steps in a row

A list of steps is split at one of them, into the steps before it and those after it. The step after
it in the list is the one that it takes for the next. -/

namespace Routine

variable {routine : Routine} {constants : List Constant}

/-- The steps are those of the schedule, in its order. -/
theorem Valid.map_id_steps (h : routine.Valid constants) :
    routine.steps.map (·.id) = routine.schedule := by
  rw [← map_fst_withFollowing routine.schedule, ← h.steps_complete.1, List.map_map]
  rfl

/-- The step at which the list is split is one of them. -/
theorem mem_steps_of_split {front rest : List Step} {step : Step}
    (h : routine.steps = front ++ step :: rest) : step ∈ routine.steps := by
  rw [h]
  exact List.mem_append_right _ List.mem_cons_self

/-- What follows it is the first of those after it. -/
theorem following_of_append {front rest : List Step} {step : Step}
    (h : ((front ++ step :: rest).map fun step => (step.id, step.following)) =
      withFollowing ((front ++ step :: rest).map (·.id))) :
    step.following = rest.head?.map (·.id) := by
  induction front with
  | nil =>
    rw [List.nil_append, List.map_cons, List.map_cons, withFollowing, List.cons.injEq,
      Prod.mk.injEq] at h
    rw [h.1.2, List.head?_map]
  | cons first front ih =>
    rw [List.cons_append, List.map_cons, List.map_cons, withFollowing, List.cons.injEq] at h
    exact ih h.2

/-- What follows a step is the next step. -/
theorem Valid.following_eq (h : routine.Valid constants) {front rest : List Step} {step : Step}
    (hsplit : routine.steps = front ++ step :: rest) :
    step.following = rest.head?.map (·.id) := by
  have hsteps := h.steps_complete.1
  rw [← h.map_id_steps, hsplit] at hsteps
  exact following_of_append hsteps

/-- Every handle of the schedule is that of a step somewhere. -/
theorem Valid.exists_split (h : routine.Valid constants) {id : InstId}
    (hid : id ∈ routine.schedule) :
    ∃ front step rest, routine.steps = front ++ step :: rest ∧ step.id = id := by
  rw [← h.map_id_steps] at hid
  obtain ⟨step, hstep, hid⟩ := List.mem_map.mp hid
  obtain ⟨front, rest, hsplit⟩ := List.append_of_mem hstep
  exact ⟨front, step, rest, hsplit, hid⟩

/-- No other step before has the same handle. -/
theorem Valid.id_ne_of_mem_front (h : routine.Valid constants) {front rest : List Step}
    {step other : Step} (hsplit : routine.steps = front ++ step :: rest) (hother : other ∈ front) :
    other.id ≠ step.id := by
  have hnodup := routine.nodup_schedule
  rw [← h.map_id_steps, hsplit, List.map_append, List.map_cons, List.nodup_append] at hnodup
  exact hnodup.2.2 _ (List.mem_map_of_mem hother) _ List.mem_cons_self

end Routine

namespace Asm

/-- Different numbers are written differently. -/
theorem toString_nat_injective : Function.Injective (toString : Nat → String) := by
  intro first second h
  rw [Nat.toString_eq_ofList_toDigits, Nat.toString_eq_ofList_toDigits, String.ofList_inj] at h
  have hvalue := congrArg (Nat.ofDigitChars 10 · 0) h
  simpa only [Nat.ofDigitChars_ten_toDigits] using hvalue

/-! ## Labels

Nothing in the middle of a step is a label, so the lines before a step hold only labels of other
steps. -/

variable {constants : List Constant} {base : Nat} {routine : Routine} {step : Routine.Step}

/-- A fragment without labels. -/
def Fragment.Plain (fragment : Fragment) : Prop :=
  ∃ code : List Instr, fragment.lines = code.map .instr

/-- Two fragments without labels. -/
theorem Fragment.Plain.append {first second : Fragment} (h₁ : first.Plain) (h₂ : second.Plain) :
    (first ++ second).Plain := by
  rcases hfirst : first.halt with _ | halt
  · obtain ⟨code₁, h₁⟩ := h₁
    obtain ⟨code₂, h₂⟩ := h₂
    refine ⟨code₁ ++ code₂, ?_⟩
    rw [Fragment.lines_append second hfirst, h₁, h₂, List.map_append]
  · rw [Fragment.append_eq_of_halt hfirst]
    exact h₁

/-- Instructions are no labels. -/
theorem Fragment.plain_instrs (code : List Instr) : (Fragment.instrs code).Plain :=
  ⟨code, rfl⟩

/-- The code of an instruction has none. -/
theorem plain_instCode (ctx : Context) (kind : InstKind) : (instCode ctx kind).Plain := by
  cases kind with
  | copy dst src =>
    refine Fragment.Plain.append ?_ (Fragment.plain_instrs _)
    cases src with
    | const id =>
      rw [loadOperand]
      split
      · exact Fragment.plain_instrs _
      · exact ⟨[], rfl⟩
    | _ => exact Fragment.plain_instrs _
  | nop => exact ⟨[], rfl⟩
  | jump cond => exact ⟨[], rfl⟩
  | _ => exact Fragment.plain_instrs _

/-- Nor has a branch. -/
theorem plain_branchTo (ctx : Context) (branch : Nat → Instr) (id : InstId) :
    (branchTo ctx branch id).Plain := by
  rw [branchTo]
  split
  · exact Fragment.plain_instrs _
  · exact ⟨[], rfl⟩

/-- Nor has going on. -/
theorem plain_continueTo (ctx : Context) (following : Option InstId) (id : InstId) :
    (continueTo ctx following id).Plain := by
  rw [continueTo]
  split
  · exact ⟨[], rfl⟩
  · exact plain_branchTo ctx .jmp id

/-- Nor has any way on. -/
theorem plain_exitCode (ctx : Context) (step : Routine.Step) : (exitCode ctx step).Plain := by
  unfold exitCode
  split
  · split
    · exact (Fragment.plain_instrs _).append
        ((plain_branchTo ctx .je _).append (plain_continueTo ctx _ _))
    · exact ⟨[], rfl⟩
  · split
    · exact plain_continueTo ctx _ _
    · exact Fragment.plain_instrs _

/-- Different instructions have different labels. -/
theorem Context.label?_inj {ctx : Context} {id other : InstId} {label : Nat}
    (h₁ : ctx.label? id = some label) (h₂ : ctx.label? other = some label) : id = other := by
  unfold Context.label? at h₁ h₂
  split at h₁
  · next hmem =>
    split at h₂
    · cases h₁
      exact ((List.idxOf_inj hmem).mp (Nat.add_left_cancel (Option.some.inj h₂).symm))
    · cases h₂
  · cases h₁

/-! ## Lines

The lines of a valid routine, as a list: nothing ends early, so all of them are there. -/

/-- The lines of a step. -/
def stepLines (ctx : Context) (step : Routine.Step) : List Line :=
  (ctx.label? step.id).toList.map .label ++
    ((instCode ctx step.inst.kind).lines ++ (exitCode ctx step).lines)

/-- A label in the lines of a step is the step's own. -/
theorem mem_label_stepLines {ctx : Context} {label : Nat}
    (h : Line.label label ∈ stepLines ctx step) : ctx.label? step.id = some label := by
  obtain ⟨code, hcode⟩ := plain_instCode ctx step.inst.kind
  obtain ⟨exit, hexit⟩ := plain_exitCode ctx step
  rw [stepLines, hcode, hexit] at h
  simpa using h

/-- A sound step is written to its end. -/
theorem lines_stepCode (hsound : step.inst.Sound constants routine) :
    (stepCode (Context.of constants base routine) step).lines =
      stepLines (Context.of constants base routine) step := by
  rw [stepCode, Fragment.lines_append _ rfl, Fragment.lines_append _ (halt_instCode hsound)]
  rfl

/-- Fragments that do not end early have their lines in a row. -/
theorem Fragment.lines_join {fragments : List Fragment} (h : ∀ f ∈ fragments, f.halt = none) :
    (Fragment.join fragments).lines = fragments.flatMap (·.lines) := by
  induction fragments with
  | nil => rfl
  | cons first rest ih =>
    rw [List.forall_mem_cons] at h
    rw [Fragment.join, Fragment.lines_append _ h.1, ih h.2, List.flatMap_cons]

/-- The assembly of a valid routine: its entry, and then the lines of its steps. -/
theorem lines_routineCode (h : routine.Valid constants) (base : Nat) :
    (routineCode constants base routine).lines =
      prologue (Context.of constants base routine) routine ++
        routine.steps.flatMap (stepLines (Context.of constants base routine)) := by
  have hhalt : ∀ fragment ∈ routine.steps.map (stepCode (Context.of constants base routine)),
      fragment.halt = none := by
    intro fragment hfragment
    obtain ⟨step, hstep, rfl⟩ := List.mem_map.mp hfragment
    have hsound := h.sound_of_mem_steps hstep
    exact Fragment.halt_append_eq_none rfl
      (Fragment.halt_append_eq_none (halt_instCode hsound) (halt_exitCode hstep hsound))
  rw [routineCode, h.steps_complete.2]
  refine (Fragment.lines_append _ rfl).trans ?_
  rw [Fragment.lines_join hhalt, List.flatMap_map]
  congr 1
  refine List.flatMap_congr fun step hstep => ?_
  exact lines_stepCode (h.sound_of_mem_steps hstep)

/-- Looking for a label leads to the step that has it. -/
theorem dropWhile_label (h : routine.Valid constants) {front rest : List Routine.Step}
    (hsplit : routine.steps = front ++ step :: rest) {label : Nat}
    (hlabel : (Context.of constants base routine).label? step.id = some label) :
    (routineCode constants base routine).lines.dropWhile (· ≠ .label label) =
      (step :: rest).flatMap (stepLines (Context.of constants base routine)) := by
  rw [lines_routineCode h base, hsplit, List.flatMap_append, ← List.append_assoc]
  rw [List.dropWhile_append_of_pos]
  · rw [List.flatMap_cons, stepLines, hlabel]
    exact List.dropWhile_cons_of_neg (by simp)
  · intro line hline
    rw [decide_eq_true_eq]
    rintro rfl
    rcases List.mem_append.mp hline with hmem | hmem
    · simp [prologue] at hmem
    · obtain ⟨other, hother, hmem⟩ := List.mem_flatMap.mp hmem
      have hsame := Context.label?_inj (mem_label_stepLines hmem) hlabel
      exact h.id_ne_of_mem_front hsplit hother hsame

end Asm

end WordLang
