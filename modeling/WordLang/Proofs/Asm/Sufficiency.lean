import Mathlib.Data.List.Nodup
import Mathlib.Data.UInt
import WordLang.Proofs.Asm.Completeness

/-!
# Validation is enough

Whether control falls through to an instruction can be read off in two ways: from what is written
right after a step, or from the place that the target has in the whole schedule. Branches are
written by the first reading. Since nothing is scheduled twice, the second one asks for the same
labels in the same order (`Routine.labelled_eq_labelledByPlace`), and it has one for every branch.
That does not depend on validation: no program whatever comes to a branch without a label.

The other ways to end early are excluded by validation. What can still happen to a valid program is
that the sink refuses a line, or that a global is too large (`emit_of_valid`).

Reasons to end early are sorted by whose fault they are. Some are for the program to answer for: an
edge that leads out of the arena, a constant that is not in the pool, a global that is too large.
The others are not: a label that should have been made, and a sink that is full. The first part of
this module is about a fragment ending for a reason of the first kind only (`OwnHalt`), and follows
how fragments are put together; the second is about sinks, which have room or have not.
-/

namespace WordLang

/-! ## Falling through

Places in the schedule. A step knows what comes after it; a place knows it too, by adding one. -/

/-- What follows an item is the item at the next place. -/
theorem withFollowing_getElem? {α : Type} {items : List α} {place : Nat} {item : α}
    {following : Option α} (h : (withFollowing items)[place]? = some (item, following)) :
    following = items[place + 1]? := by
  induction items generalizing place with
  | nil => cases h
  | cons first rest ih =>
    cases place with
    | zero =>
      obtain ⟨-, rfl⟩ := Prod.mk.inj (Option.some.inj h)
      rw [List.getElem?_cons_succ, List.head?_eq_getElem?]
    | succ place =>
      rw [List.getElem?_cons_succ]
      exact ih h

namespace Routine

variable {routine : Routine}

/-- The steps are made from the places of the schedule in order. -/
theorem stepsOf_getElem? {pairs : List (InstId × Option InstId)} {place : Nat} {step : Step}
    (h : (routine.stepsOf pairs).1[place]? = some step) :
    pairs[place]? = some (step.id, step.following) := by
  induction pairs generalizing place with
  | nil => cases h
  | cons pair rest ih =>
    obtain ⟨id, following⟩ := pair
    rw [stepsOf] at h
    split at h
    · cases h
    · cases place with
      | zero =>
        obtain rfl := Option.some.inj h
        rfl
      | succ place => exact ih h

/-- The place of a step says what comes after it. -/
theorem following_eq_getElem? {place : Nat} {step : Step} (h : routine.steps[place]? = some step) :
    step.following = routine.schedule[place + 1]? :=
  withFollowing_getElem? (stepsOf_getElem? h)

/-- Whether a handle has the place right after the given one. -/
def comesAfter (routine : Routine) (place : Nat) (id : InstId) : Bool :=
  routine.schedule.idxOf? id = some (place + 1)

/-- Both readings of falling through agree: a handle is scheduled only once. -/
theorem comesAfter_iff {place : Nat} {step : Step} {id : InstId}
    (h : routine.steps[place]? = some step) :
    routine.comesAfter place id = true ↔ step.following = some id := by
  rw [comesAfter, decide_eq_true_iff, following_eq_getElem? h]
  constructor
  · intro hplace
    obtain ⟨hlt, hbeq, -⟩ := List.idxOf?_eq_some_iff.mp hplace
    rw [List.getElem?_eq_getElem hlt, hbeq]
  · intro hfollowing
    obtain ⟨hlt, hid⟩ := List.getElem?_eq_some_iff.mp hfollowing
    refine List.idxOf?_eq_some_iff.mpr ⟨hlt, hid, fun other hother heq => ?_⟩
    have hplaces : other = place + 1 :=
      (List.Nodup.getElem_inj_iff routine.nodup_schedule).mp (heq.trans hid.symm)
    exact Nat.ne_of_lt hother hplaces

/-- The successors that need a label by their places: every false side of a jump, and every
successor that does not have the place right after the step. -/
def labelTargets (routine : Routine) (place : Nat) (inst : Inst) : List InstId :=
  (inst.next.toList.filter fun id => inst.kind.isJump || !routine.comesAfter place id) ++
    inst.onTrue.toList.filter fun id => !routine.comesAfter place id

/-- The instructions that need a label by their places, in the order of their numbers. -/
def labelledByPlace (routine : Routine) : List InstId :=
  firstUses (routine.steps.zipIdx.flatMap fun (step, place) => routine.labelTargets place step.inst)

/-- The targets that need labels are the same by both readings. -/
theorem labelTargets_eq {place : Nat} {step : Step} (h : routine.steps[place]? = some step) :
    routine.labelTargets place step.inst = step.inst.branchTargets step.following := by
  have hcomes : ∀ id, (!routine.comesAfter place id) = decide (step.following ≠ some id) := by
    intro id
    rw [Bool.eq_iff_iff, Bool.not_eq_true', Bool.eq_false_iff, Ne, comesAfter_iff h,
      decide_eq_true_iff]
  simp only [labelTargets, Inst.branchTargets, hcomes]

/-- The labels that branches ask for are those that places ask for. -/
theorem labelled_eq_labelledByPlace (routine : Routine) :
    routine.labelled = routine.labelledByPlace := by
  have hsteps : routine.steps.zipIdx.map Prod.fst = routine.steps := by simp
  rw [labelled, labelledByPlace]
  nth_rewrite 1 [← hsteps]
  rw [List.flatMap_map]
  congr 1
  refine List.flatMap_congr fun ⟨step, place⟩ hmem => ?_
  exact (labelTargets_eq (List.mk_mem_zipIdx_iff_getElem?.mp hmem)).symm

end Routine

namespace Asm

/-! ## No branch lacks a label

By cases on the code of an instruction, and then by putting fragments together. Fragments that do
not end early are no concern here. -/

/-- Whether it is for the program to say: neither a label nor room in the sink is missing. -/
def Halt.isOwn : Halt → Bool
  | .error (.write _) => false
  | .error (.missingLabel _ _) => false
  | _ => true

/-- A fragment that ends early, if it does, for a reason of its own. -/
def Fragment.OwnHalt (fragment : Fragment) : Prop :=
  ∀ halt, fragment.halt = some halt → halt.isOwn = true

namespace Fragment

/-- A fragment that does not end early has nothing to answer for. -/
theorem ownHalt_of_complete {fragment : Fragment} (h : fragment.halt = none) :
    fragment.OwnHalt := by
  intro halt hhalt
  rw [h] at hhalt
  cases hhalt

/-- A fragment that only stops has to stop for a reason of its own. -/
theorem ownHalt_stop {halt : Halt} (h : halt.isOwn = true) : (stop halt).OwnHalt := by
  intro other hother
  obtain rfl := Option.some.inj hother
  exact h

/-- Two fragments together end where the first one does, or else where the second one does. -/
theorem OwnHalt.append {first second : Fragment} (h₁ : first.OwnHalt) (h₂ : second.OwnHalt) :
    (first ++ second).OwnHalt := by
  rcases hfirst : first.halt with _ | halt
  · intro halt
    rw [halt_append second hfirst]
    exact h₂ halt
  · rw [append_eq_of_halt hfirst]
    exact h₁

/-- So do many. -/
theorem ownHalt_join {fragments : List Fragment} (h : ∀ fragment ∈ fragments, fragment.OwnHalt) :
    (join fragments).OwnHalt := by
  intro halt hhalt
  rw [halt_join] at hhalt
  obtain ⟨fragment, hmem, hfragment⟩ := List.exists_of_findSome?_eq_some hhalt
  exact h fragment hmem halt hfragment

end Fragment

/-- The code of an instruction ends early only for a constant that is not there. -/
theorem ownHalt_instCode (ctx : Context) (kind : InstKind) : (instCode ctx kind).OwnHalt := by
  cases kind with
  | copy dst src =>
    refine Fragment.OwnHalt.append ?_ (Fragment.ownHalt_of_complete rfl)
    cases src with
    | const id =>
      rw [loadOperand]
      split
      · exact Fragment.ownHalt_of_complete rfl
      · exact Fragment.ownHalt_stop rfl
    | _ => exact Fragment.ownHalt_of_complete rfl
  | _ => exact Fragment.ownHalt_of_complete rfl

section

variable {constants : List Constant} {base : Nat} {routine : Routine} {step : Routine.Step}

/-- The way on from a step may be missing, but never a label on it. -/
theorem ownHalt_exitCode (hstep : step ∈ routine.steps) :
    (exitCode (Context.of constants base routine) step).OwnHalt := by
  rcases hjump : step.inst.kind.isJump with _ | _
  · refine Fragment.ownHalt_of_complete ?_
    rcases hnext : step.inst.next with _ | next
    · rw [exitCode_end hjump hnext]
      rfl
    · rw [exitCode_next hjump hnext]
      refine halt_continueTo hstep fun hne => ?_
      simp [Inst.branchTargets, hnext, hne]
  · obtain ⟨cond, hkind⟩ := InstKind.exists_jump hjump
    rcases hnext : step.inst.next with _ | onFalse
    · rw [exitCode, hkind, hnext]
      exact Fragment.ownHalt_stop rfl
    rcases htrue : step.inst.onTrue with _ | onTrue
    · rw [exitCode, hkind, hnext, htrue]
      exact Fragment.ownHalt_stop rfl
    rw [exitCode_jump hkind hnext htrue]
    refine Fragment.ownHalt_of_complete
      (Fragment.halt_append_eq_none rfl (Fragment.halt_append_eq_none ?_ ?_))
    · exact halt_branchTo hstep (by simp [Inst.branchTargets, hnext, hjump]) .je
    · refine halt_continueTo hstep fun hne => ?_
      simp [Inst.branchTargets, htrue, hne]

/-- So a routine ends early only for reasons of its own, valid or not. -/
theorem ownHalt_routineCode (constants : List Constant) (base : Nat) (routine : Routine) :
    (routineCode constants base routine).OwnHalt := by
  rw [routineCode]
  split
  · exact Fragment.ownHalt_stop rfl
  · refine Fragment.OwnHalt.append (Fragment.ownHalt_of_complete rfl)
      (Fragment.ownHalt_join fun fragment hfragment => ?_)
    obtain ⟨step, hstep, rfl⟩ := List.mem_map.mp hfragment
    exact (Fragment.ownHalt_of_complete rfl).append
      ((ownHalt_instCode _ _).append (ownHalt_exitCode hstep))

end

/-- So does the line for a global. -/
theorem ownHalt_globalCode (global : GlobalDecl) : (globalCode global).OwnHalt := by
  rw [globalCode]
  split
  · exact Fragment.ownHalt_of_complete rfl
  · exact Fragment.ownHalt_stop rfl

/-- So do the sections of all routines. -/
theorem ownHalt_routineSections (constants : List Constant) (nextLabel : Nat)
    (routines : List Routine) :
    ∀ part ∈ routineSections constants nextLabel routines, part.fragment.OwnHalt := by
  induction routines generalizing nextLabel with
  | nil => exact fun part hpart => nomatch hpart
  | cons routine rest ih =>
    rw [routineSections, List.forall_mem_cons]
    exact ⟨ownHalt_routineCode constants nextLabel routine, ih _⟩

/-- So do all sections of a program. -/
theorem ownHalt_sections (program : Program) (nextLabel : Nat) :
    ∀ part ∈ sections program nextLabel, part.fragment.OwnHalt := by
  rw [sections, List.forall_mem_cons]
  refine ⟨Fragment.ownHalt_join fun fragment hfragment => ?_,
    ownHalt_routineSections program.constants nextLabel program.routines⟩
  obtain ⟨global, -, rfl⟩ := List.mem_map.mp hfragment
  exact ownHalt_globalCode global

/-- A fragment that does not end for want of a label. -/
def Fragment.Branches (fragment : Fragment) : Prop :=
  ∀ name id, fragment.halt ≠ some (.error (.missingLabel name id))

/-- In particular no section ends for want of a label. -/
theorem branches_sections (program : Program) (nextLabel : Nat) :
    ∀ part ∈ sections program nextLabel, part.fragment.Branches := by
  intro part hpart name id hhalt
  cases ownHalt_sections program nextLabel part hpart _ hhalt

/-- What is written to a sink without a limit ends early, if it does, for a reason of its own. -/
theorem isOwn_of_emit_unlimited {program : Program} {nextLabel : Nat} {halt : Halt}
    (h : (emit program nextLabel .unlimited).halt = some halt) : halt.isOwn = true := by
  rw [emit, halt_writeSections] at h
  obtain ⟨part, hmem, hpart⟩ := List.exists_of_findSome?_eq_some h
  exact ownHalt_sections program nextLabel part hmem halt hpart

/-! ## Any sink

A sink is asked line by line. Writing ends where it refuses one, or where a section ends by itself,
whichever comes first. -/

/-- Whatever the sink, writing ends early where the sink refuses a line or where a section does. -/
theorem halt_writeSections_cases {room : Room} {nextLabel : Nat} {parts : List Section}
    {halt : Halt} (h : (writeSections room nextLabel parts).halt = some halt) :
    (∃ reason, halt = .error (.write reason)) ∨
      parts.findSome? (·.fragment.halt) = some halt := by
  induction parts generalizing room nextLabel with
  | nil => cases h
  | cons first rest ih =>
    rw [writeSections] at h
    rw [List.findSome?_cons]
    split at h
    · exact .inl ⟨_, (Option.some.inj h).symm⟩
    · split at h
      · next hhalt =>
        obtain rfl := Option.some.inj h
        rw [hhalt]
        exact .inr rfl
      · next hhalt =>
        rw [hhalt]
        exact ih h

/-- The first global whose size in bytes is no machine word. -/
def oversized? (program : Program) : Option GlobalDecl :=
  program.globals.find? fun global => 2 ^ 64 ≤ global.elements.toNat * 8

/-- The first global whose line cannot be written is the first one that is too large. -/
theorem findSome?_globalCode (globals : List GlobalDecl) :
    (globals.findSome? fun global => (globalCode global).halt) =
      (globals.find? fun global => 2 ^ 64 ≤ global.elements.toNat * 8).map
        fun global => .oversized global.symbol.name := by
  induction globals with
  | nil => rfl
  | cons global rest ih =>
    rw [List.findSome?_cons, List.find?_cons]
    by_cases hsize : 2 ^ 64 ≤ global.elements.toNat * 8
    · have hhalt := (halt_globalCode global).trans (if_neg (Nat.not_lt.mpr hsize))
      rw [decide_eq_true hsize, hhalt]
      rfl
    · have hhalt := (halt_globalCode global).trans (if_pos (Nat.not_le.mp hsize))
      rw [decide_eq_false hsize, hhalt]
      exact ih

/-- A valid program ends early at a line that the sink refuses or at the first global that is too
large; a sink without a limit refuses nothing, so there the assembly is complete unless there is
such a global. No program at all, valid or not, comes to a branch without a label, and the labels
are those that the places of the instructions ask for. -/
theorem emit_of_valid (program : Program) (nextLabel : Nat) :
    (program.violation? = none →
      (emit program nextLabel .unlimited).halt =
          (oversized? program).map (fun global => .oversized global.symbol.name) ∧
      ∀ room halt, (emit program nextLabel room).halt = some halt →
        (∃ reason, halt = .error (.write reason)) ∨
        ∃ global, oversized? program = some global ∧ halt = .oversized global.symbol.name) ∧
    (∀ room name id, (emit program nextLabel room).halt ≠ some (.error (.missingLabel name id))) ∧
    ∀ routine ∈ program.routines, routine.labelled = routine.labelledByPlace := by
  refine ⟨fun hvalid => ?_, fun room name id hhalt => ?_,
    fun routine _ => routine.labelled_eq_labelledByPlace⟩
  · have hunlimited := halt_emit hvalid nextLabel
    rw [findSome?_globalCode] at hunlimited
    refine ⟨hunlimited, fun room halt hhalt => ?_⟩
    rcases halt_writeSections_cases hhalt with hwrite | hsection
    · exact .inl hwrite
    · rw [emit, halt_writeSections, hsection] at hunlimited
      obtain ⟨global, hglobal, rfl⟩ := Option.map_eq_some_iff.mp hunlimited.symm
      exact .inr ⟨global, hglobal, rfl⟩
  · rcases halt_writeSections_cases hhalt with ⟨reason, hwrite⟩ | hsection
    · cases hwrite
    · obtain ⟨part, hmem, hpart⟩ := List.exists_of_findSome?_eq_some hsection
      exact branches_sections program nextLabel part hmem name id hpart

/-- A routine that goes round two jumps, both sides of one leading to the same place, next to an
array. Nothing leads to the last instruction, which leads out of the arena. -/
def rounds (elements : UInt64) : Program where
  globals := [{ symbol := .declared 0 "row" (.array .int elements), elements }]
  routines :=
    [{ name := "rounds", ty := .func [] .void, temps := 1
       insts := #[
        { kind := .copy ⟨0⟩ (.const 0), next := some 1 },
        { kind := .jump ⟨0⟩, next := some 0, onTrue := some 2 },
        { kind := .jump ⟨0⟩, next := some 3, onTrue := some 3 },
        { kind := .jump ⟨0⟩, next := some 4, onTrue := some 1 },
        { kind := .ret none },
        { kind := .nop, next := some 9 }] }]
  constants := [.bool true]

/-- Both cases: an array that fits, and one that is too large by its number of elements. -/
theorem emit_of_valid_rounds :
    ((rounds 4).violation? = none ∧ (emit (rounds 4) 7 .unlimited).halt = none) ∧
      ((rounds (2 ^ 61)).violation? = none ∧
        (emit (rounds (2 ^ 61)) 7 .unlimited).halt = some (.oversized "row")) := by
  have hsmall : (rounds 4).violation? = none := by decide +kernel
  have hlarge : (rounds (2 ^ 61)).violation? = none := by decide +kernel
  exact ⟨⟨hsmall, ((emit_of_valid (rounds 4) 7).1 hsmall).1.trans (by decide +kernel)⟩,
    hlarge, ((emit_of_valid (rounds (2 ^ 61)) 7).1 hlarge).1.trans (by decide +kernel)⟩

end Asm

end WordLang
