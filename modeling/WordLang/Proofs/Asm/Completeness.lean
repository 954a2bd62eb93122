import WordLang.Asm.Emission
import WordLang.Proofs.Program.Walks

/-!
# Assembly of a valid program

Making assembly may end early for four reasons that have to do with routines: a handle from outside
the arena, a constant that is not in the pool, a jump without one of its sides, a branch to an
instruction without a label. Validation excludes the first three, and the fourth cannot happen: an
instruction has a label exactly because some step branches to it.

What remains is a global whose size is no machine word. That is found before any routine is written
(`halt_emit`).

Validation looks at what can be reached, and assembly is made from what is scheduled. These are the
same instructions, so every step of a valid routine is sound; and the schedule is complete, because
no edge of a sound instruction leads out of the arena. After that the proof goes through the code of
a step and looks at each point where it may stop.
-/

namespace WordLang

/-! ## Steps

From the schedule to its steps. A schedule with a handle from outside of the arena has a step for
each handle before it, and then ends; in a valid routine there is no such handle. -/

namespace Routine

variable {routine : Routine}

/-- A step comes from a place of the schedule, and has the instruction there. -/
theorem mem_stepsOf {pairs : List (InstId × Option InstId)} {step : Step}
    (h : step ∈ (routine.stepsOf pairs).1) :
    (step.id, step.following) ∈ pairs ∧ routine.insts[step.id]? = some step.inst := by
  induction pairs with
  | nil => cases h
  | cons pair rest ih =>
    obtain ⟨id, following⟩ := pair
    rw [stepsOf] at h
    split at h
    · cases h
    · next inst hinst =>
      rcases List.mem_cons.mp h with rfl | hmem
      · exact ⟨List.mem_cons_self, hinst⟩
      · obtain ⟨hpair, hstep⟩ := ih hmem
        exact ⟨List.mem_cons_of_mem _ hpair, hstep⟩

/-- If every handle is in the arena, each has its step, and none of them is astray. -/
theorem stepsOf_complete {pairs : List (InstId × Option InstId)}
    (h : ∀ pair ∈ pairs, ∃ inst, routine.insts[pair.1]? = some inst) :
    ((routine.stepsOf pairs).1.map fun step => (step.id, step.following)) = pairs ∧
      (routine.stepsOf pairs).2 = none := by
  induction pairs with
  | nil => exact ⟨rfl, rfl⟩
  | cons pair rest ih =>
    rw [List.forall_mem_cons] at h
    obtain ⟨inst, hinst⟩ := h.1
    obtain ⟨hsteps, hstray⟩ := ih h.2
    rw [stepsOf, hinst]
    exact ⟨congrArg (pair :: ·) hsteps, hstray⟩

/-- A step is an instruction of the schedule. -/
theorem mem_schedule_of_mem_steps {step : Step} (h : step ∈ routine.steps) :
    step.id ∈ routine.schedule ∧ routine.insts[step.id]? = some step.inst := by
  obtain ⟨hpair, hinst⟩ := mem_stepsOf h
  refine ⟨?_, hinst⟩
  rw [← map_fst_withFollowing routine.schedule]
  exact List.mem_map_of_mem hpair

/-- Every handle of a valid schedule has its step. -/
theorem Valid.steps_complete {constants : List Constant} (h : routine.Valid constants) :
    (routine.steps.map fun step => (step.id, step.following)) = withFollowing routine.schedule ∧
      routine.stray? = none := by
  refine stepsOf_complete fun pair hpair => ?_
  have hmem : pair.1 ∈ routine.schedule := by
    rw [← map_fst_withFollowing routine.schedule]
    exact List.mem_map_of_mem hpair
  obtain ⟨inst, hinst, -⟩ := h.scheduled pair.1 hmem
  exact ⟨inst, hinst⟩

/-- Every step of a valid routine is sound. -/
theorem Valid.sound_of_mem_steps {constants : List Constant} (h : routine.Valid constants)
    {step : Step} (hstep : step ∈ routine.steps) : step.inst.Sound constants routine := by
  obtain ⟨hmem, hinst⟩ := mem_schedule_of_mem_steps hstep
  obtain ⟨inst, hinst', hsound⟩ := h.scheduled step.id hmem
  obtain rfl := Option.some.inj (hinst.symm.trans hinst')
  exact hsound

end Routine

namespace Asm

/-! ## Fragments

Putting fragments together ends early if one of them does. -/

/-- Two fragments that do not end early make one that does not. -/
theorem Fragment.halt_append_eq_none {first second : Fragment} (h₁ : first.halt = none)
    (h₂ : second.halt = none) : (first ++ second).halt = none :=
  (Fragment.halt_append second h₁).trans h₂

/-- Fragments in a row end where the first of them that ends early does. -/
theorem Fragment.halt_join (fragments : List Fragment) :
    (Fragment.join fragments).halt = fragments.findSome? (·.halt) := by
  induction fragments with
  | nil => rfl
  | cons first rest ih =>
    rw [Fragment.join, List.findSome?_cons]
    rcases hfirst : first.halt with _ | halt
    · rw [Fragment.halt_append _ hfirst, ih]
    · rw [Fragment.append_eq_of_halt hfirst, hfirst]

/-! ## Routines

The code of a step piece by piece. The way on has three forms: a jump has a branch and then goes on,
most other instructions go on, and the rest leave the routine. -/

section

variable {constants : List Constant} {base : Nat} {routine : Routine} {step : Routine.Step}

/-- The way on of a jump with both sides. -/
theorem exitCode_jump {ctx : Context} {cond : Temp} {onFalse onTrue : InstId}
    (hkind : step.inst.kind = .jump cond) (hnext : step.inst.next = some onFalse)
    (htrue : step.inst.onTrue = some onTrue) :
    exitCode ctx step =
      .instrs [.mov (ctx.temp cond) (.reg .r10), .alu .cmp (.imm 0) .r10] ++
        (branchTo ctx .je onFalse ++ continueTo ctx step.following onTrue) := by
  rw [exitCode, hkind, hnext, htrue]

/-- The way on of anything else. -/
theorem exitCode_of_isJump_eq_false {ctx : Context} (hjump : step.inst.kind.isJump = false) :
    exitCode ctx step = match step.inst.next with
      | some next => continueTo ctx step.following next
      | none => .instrs [.leave, .ret] := by
  rw [exitCode]
  cases hkind : step.inst.kind with
  | jump cond =>
    rw [hkind] at hjump
    cases hjump
  | _ => rfl

/-- It goes on if there is a next instruction. -/
theorem exitCode_next {ctx : Context} {next : InstId} (hjump : step.inst.kind.isJump = false)
    (hnext : step.inst.next = some next) :
    exitCode ctx step = continueTo ctx step.following next := by
  rw [exitCode_of_isJump_eq_false hjump, hnext]

/-- If there is none, the routine is left. -/
theorem exitCode_end {ctx : Context} (hjump : step.inst.kind.isJump = false)
    (hnext : step.inst.next = none) : exitCode ctx step = .instrs [.leave, .ret] := by
  rw [exitCode_of_isJump_eq_false hjump, hnext]

/-- What a step branches to has a label. -/
theorem Context.exists_label (hstep : step ∈ routine.steps) {id : InstId}
    (hid : id ∈ step.inst.branchTargets step.following) :
    ∃ label, (Context.of constants base routine).label? id = some label := by
  refine ⟨_, if_pos ?_⟩
  exact mem_firstUses.mpr (List.mem_flatMap.mpr ⟨step, hstep, hid⟩)

/-- A branch to one of the targets of a step has its label. -/
theorem halt_branchTo (hstep : step ∈ routine.steps) {id : InstId}
    (hid : id ∈ step.inst.branchTargets step.following) (branch : Nat → Instr) :
    (branchTo (Context.of constants base routine) branch id).halt = none := by
  have hlabelled : ∃ label, (Context.of constants base routine).label? id = some label :=
    Context.exists_label hstep hid
  obtain ⟨label, hlabel⟩ := hlabelled
  rw [branchTo, hlabel]
  rfl

/-- So has going on, where a branch is needed for that. -/
theorem halt_continueTo (hstep : step ∈ routine.steps) {id : InstId}
    (hid : step.following ≠ some id → id ∈ step.inst.branchTargets step.following) :
    (continueTo (Context.of constants base routine) step.following id).halt = none := by
  rw [continueTo]
  split
  · rfl
  · next hne => exact halt_branchTo hstep (hid hne) .jmp

/-- The code of a sound instruction does not end early: its constant is in the pool. -/
theorem halt_instCode (hsound : step.inst.Sound constants routine) :
    (instCode (Context.of constants base routine) step.inst.kind).halt = none := by
  have hpooled := hsound.pooled
  cases hkind : step.inst.kind with
  | copy dst src =>
    refine Fragment.halt_append_eq_none ?_ rfl
    cases src with
    | const id =>
      rw [hkind] at hpooled
      have hlt := hpooled id (List.mem_singleton.mpr rfl)
      rw [loadOperand, show (Context.of constants base routine).constants[id]? = some constants[id]
        from List.getElem?_eq_getElem hlt]
      rfl
    | _ => rfl
  | _ => rfl

/-- Nor does its way on. -/
theorem halt_exitCode (hstep : step ∈ routine.steps) (hsound : step.inst.Sound constants routine) :
    (exitCode (Context.of constants base routine) step).halt = none := by
  cases hsound.leadsOn with
  | stop hjump hnext =>
    rw [exitCode_end hjump hnext]
    rfl
  | next hjump hnext =>
    rw [exitCode_next hjump hnext]
    refine halt_continueTo hstep fun hne => ?_
    simp [Inst.branchTargets, hnext, hne]
  | jump hkind hnext htrue =>
    rw [exitCode_jump hkind hnext htrue]
    refine Fragment.halt_append_eq_none rfl (Fragment.halt_append_eq_none ?_ ?_)
    · exact halt_branchTo hstep (by simp [Inst.branchTargets, InstKind.isJump, hkind, hnext]) .je
    · refine halt_continueTo hstep fun hne => ?_
      simp [Inst.branchTargets, htrue, hne]

/-- The assembly of a valid routine is complete. -/
theorem halt_routineCode (h : routine.Valid constants) (base : Nat) :
    (routineCode constants base routine).halt = none := by
  rw [routineCode, h.steps_complete.2]
  refine Fragment.halt_append_eq_none rfl ?_
  rw [Fragment.halt_join, List.findSome?_eq_none_iff]
  intro fragment hfragment
  obtain ⟨step, hstep, rfl⟩ := List.mem_map.mp hfragment
  have hsound := h.sound_of_mem_steps hstep
  exact Fragment.halt_append_eq_none rfl
    (Fragment.halt_append_eq_none (halt_instCode hsound) (halt_exitCode hstep hsound))

end

/-! ## Programs

The sections of a program in order: first all globals, then the routines one by one. -/

/-- A sink without a limit ends only where a section does. -/
theorem halt_writeSections (nextLabel : Nat) (sections : List Section) :
    (writeSections .unlimited nextLabel sections).halt =
      sections.findSome? (·.fragment.halt) := by
  induction sections generalizing nextLabel with
  | nil => rfl
  | cons first rest ih =>
    rw [writeSections, Room.deliver_unlimited, List.findSome?_cons]
    rcases hfirst : first.fragment.halt with _ | halt
    · exact ih first.nextLabel
    · rfl

/-- No section of a valid routine ends early. -/
theorem halt_routineSections {constants : List Constant} (nextLabel : Nat) {routines : List Routine}
    (h : ∀ routine ∈ routines, routine.Valid constants) :
    (routineSections constants nextLabel routines).findSome? (·.fragment.halt) = none := by
  induction routines generalizing nextLabel with
  | nil => rfl
  | cons routine rest ih =>
    rw [List.forall_mem_cons] at h
    rw [routineSections, List.findSome?_cons]
    simp only [halt_routineCode h.1]
    exact ih _ h.2

/-- The assembly of a valid program, written to a sink without a limit, ends early only at a global
that is too large. -/
theorem halt_emit {program : Program} (h : program.violation? = none) (nextLabel : Nat) :
    (emit program nextLabel .unlimited).halt =
      program.globals.findSome? fun global => (globalCode global).halt := by
  have hvalid : ∀ routine ∈ program.routines, routine.Valid program.constants :=
    fun routine hroutine =>
      Routine.valid_of_violation? (List.findSome?_eq_none_iff.mp h routine hroutine)
  rw [emit, halt_writeSections, sections, List.findSome?_cons, Fragment.halt_join,
    List.findSome?_map]
  rcases hglobals : program.globals.findSome? fun global => (globalCode global).halt with _ | halt
  · simp only [Function.comp_def, hglobals]
    exact halt_routineSections nextLabel hvalid
  · simp only [Function.comp_def, hglobals]

/-- A global is too large when its size in bytes is no machine word. -/
theorem halt_globalCode (global : GlobalDecl) :
    (globalCode global).halt =
      if global.elements.toNat * wordSize < UInt64.size then none
      else some (.oversized global.symbol.name) := by
  rw [globalCode]
  split <;> rfl

end Asm

end WordLang
