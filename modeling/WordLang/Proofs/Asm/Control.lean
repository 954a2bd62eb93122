import WordLang.Proofs.Asm.Calls
import WordLang.Proofs.Asm.Lines
import WordLang.Proofs.Semantics.Refinement

/-!
# The machine follows the graph

While a routine runs, the machine is at the lines of a step whenever the graph is at its
instruction. One step of the graph is then the label of the step, the lines of its instruction, and
the way on. There may be nothing to do for the machine: no label, no lines, and the next step right
below. That ends at the last step, since there is always one step less below.

Where the machine has to be is said by the lines that are still in front of it (`Located`), which is
how the machine itself keeps its place. It comes there in two ways. If the successor was written
right after the instruction, the lines in front of the machine are already the right ones. Otherwise
there is a branch to a label, and a label that was given out is written before its step and nowhere
else, so searching for it finds the right place.
-/

namespace WordLang.Asm

section

variable {host : Host} {world : World} {constants : List Constant} {ctx : Context}
  {act : Activation} {state state' : Graph.State} {core : Core}

/-! ## Instructions

What an instruction does, without where it leads. In `WordLang.Proofs.Asm.Blocks` and
`WordLang.Proofs.Asm.Calls` there is a lemma for the lines of each form; here they are put together.
-/

/-- Where the graph goes on does not matter to what lines do. -/
theorem Reaches.goto {code : List Instr} (h : Reaches host act code core state)
    (pc : Option InstId) : Reaches host act code core (state.goto pc) := by
  obtain ⟨core', hexec, hholds⟩ := h
  exact ⟨core', hexec, hholds.goto pc⟩

/-- The lines of an instruction do what it does. Jumps and `nop` have none; what a jump does is all
in its way on. A return does not lead to another state of the graph, so it is dealt with where runs
end. -/
theorem exists_reaches {inst : Inst} (hctx : Fitting ctx act constants)
    (hplace : host.place = world.place) (h : act.Holds state core)
    (huses : ∀ register ∈ inst.kind.uses, register ∈ act.registers)
    (hroom : act.slots + 2 + inst.kind.pushed < act.reach)
    (hstep : inst.step world constants state = .next state')
    (hhonours : act.Honours world host state'.outside.trace) :
    ∃ code, (instCode ctx inst.kind).lines = code.map .instr ∧
      Reaches host act code core state' := by
  -- one case for each kind: what the step does to the state is what its block does to the core
  rw [Inst.step] at hstep
  cases hkind : inst.kind with
  | addressAt dst base offset =>
    rw [hkind] at hstep huses
    cases hstep
    exact ⟨_, rfl, (reaches_address hctx h hplace huses).goto _⟩
  | arith op dst left right =>
    rw [hkind] at hstep huses
    simp only at hstep
    split at hstep
    · next value hvalue =>
      cases hstep
      exact ⟨_, rfl, (reaches_arith hctx h hvalue huses).goto _⟩
    · cases hstep
  | compare op dst left right =>
    rw [hkind] at hstep huses
    cases hstep
    exact ⟨_, rfl, (reaches_compare hctx h huses).goto _⟩
  | copy dst src =>
    rw [hkind] at hstep huses
    simp only at hstep
    split at hstep
    · next value hvalue =>
      cases hstep
      obtain ⟨code, hcode, hreaches⟩ := exists_copy hctx h hvalue huses
      exact ⟨code, hcode, hreaches.goto _⟩
    · cases hstep
  | load dst src =>
    rw [hkind] at hstep huses
    cases hstep
    exact ⟨_, rfl, (reaches_load hctx h hhonours huses).goto _⟩
  | store src dst =>
    rw [hkind] at hstep huses
    cases hstep
    exact ⟨_, rfl, (reaches_store hctx h hhonours huses).goto _⟩
  | call dst callee args =>
    rw [hkind] at hstep huses hroom
    cases hstep
    rw [Graph.State.outside_goto, Graph.State.outside_setResult] at hhonours
    exact ⟨_, rfl, (reaches_call hctx h huses hroom hhonours).goto _⟩
  | ret value =>
    rw [hkind] at hstep
    cases hstep
  | jump cond =>
    rw [hkind] at hstep
    cases hstep
    exact ⟨[], rfl, (Reaches.nil h).goto _⟩
  | not dst operand =>
    rw [hkind] at hstep huses
    cases hstep
    exact ⟨_, rfl, (reaches_not hctx h huses).goto _⟩
  | nop =>
    rw [hkind] at hstep
    cases hstep
    exact ⟨[], rfl, (Reaches.nil h).goto _⟩
end

/-! ## Places in the code

Places of the graph are ids, and places of the machine are the lines in front of it. -/

/-- Where the machine has to be when the graph is at an instruction, and how many steps there are
from there on. Past the last instruction there is only the end of the frame. -/
inductive Located (ctx : Context) (routine : Routine) : Option InstId → List Line → Nat → Prop
  | step {front rest : List Routine.Step} {step : Routine.Step}
      (h : routine.steps = front ++ step :: rest) :
      Located ctx routine (some step.id) ((step :: rest).flatMap (stepLines ctx)) (rest.length + 1)
  | exit (rest : List Line) : Located ctx routine none (.instr .leave :: .instr .ret :: rest) 0

section

variable {host : Host} {constants : List Constant} {base : Nat} {routine : Routine}
  {front rest : List Routine.Step} {current : Routine.Step} {id : InstId} {core : Core}

/-- A label of a scheduled instruction leads there: what is in front of the machine after a branch
are the lines of that step and all those below. -/
theorem exists_located (h : routine.Valid constants) (hid : id ∈ routine.schedule) {label : Nat}
    (hlabel : (Context.of constants base routine).label? id = some label) :
    ∃ left, Located (Context.of constants base routine) routine (some id)
      ((routineCode constants base routine).lines.dropWhile (· ≠ .label label)) left := by
  obtain ⟨front, target, rest, hsplit, rfl⟩ := h.exists_split hid
  rw [dropWhile_label h hsplit hlabel]
  exact ⟨_, .step hsplit⟩

/-- What a way on leads to: a place in the code, after so many steps of the machine, unless there
are fewer steps from there on. One of the two has to be, or the graph could go round in a ring while
the machine does nothing. -/
def Onward (host : Host) (constants : List Constant) (base : Nat) (routine : Routine)
    (pc : Option InstId) (state : State) (core : Core) (left : Nat) : Prop :=
  ∃ left' code count, Located (Context.of constants base routine) routine pc code left' ∧
    run (step host (routineCode constants base routine).lines) count state = .next ⟨core, code⟩ ∧
    (0 < count ∨ left' < left)

/-- The machine may take some steps before the way on. -/
theorem Onward.after {pc : Option InstId} {state state' : State} {left : Nat}
    (h₁ : Leads (step host (routineCode constants base routine).lines) state (.next state'))
    (h₂ : Onward host constants base routine pc state' core left) :
    Onward host constants base routine pc state core left := by
  obtain ⟨steps, hsteps⟩ := h₁
  obtain ⟨left', code, count, hlocated, hrun, hless⟩ := h₂
  refine ⟨left', code, steps + count, hlocated, (run_add hsteps).trans hrun, ?_⟩
  exact hless.imp_left (Nat.add_pos_right steps)

/-- The way on to a given successor. It is the step below, or there is a label for it, because it is
among the targets that a branch may need. -/
theorem onward_continueTo (h : routine.Valid constants)
    (hsplit : routine.steps = front ++ current :: rest) (hid : id ∈ routine.schedule)
    (htarget : current.following ≠ some id →
      id ∈ current.inst.branchTargets current.following) :
    Onward host constants base routine (some id)
      ⟨core, (continueTo (Context.of constants base routine) current.following id).lines ++
        rest.flatMap (stepLines (Context.of constants base routine))⟩ core (rest.length + 1) := by
  rw [continueTo]
  split
  · next hfollowing =>
    -- the next step is right below
    rw [h.following_eq hsplit] at hfollowing
    obtain ⟨next, hnext, rfl⟩ := Option.map_eq_some_iff.mp hfollowing
    obtain ⟨rest, rfl⟩ := List.head?_eq_some_iff.mp hnext
    rw [List.append_cons] at hsplit
    exact ⟨_, _, 0, .step hsplit, rfl, .inr (Nat.lt_succ_self _)⟩
  · next hne =>
    have hstep := Routine.mem_steps_of_split hsplit
    have hlabelled : ∃ label, (Context.of constants base routine).label? id = some label :=
      Context.exists_label hstep (htarget hne)
    obtain ⟨label, hlabel⟩ := hlabelled
    obtain ⟨left, hlocated⟩ := exists_located h hid hlabel
    rw [branchTo, hlabel]
    exact ⟨left, _, 1, hlocated, rfl, .inl Nat.one_pos⟩

/-- The successors of a step are scheduled. -/
theorem next_mem_schedule (hstep : current ∈ routine.steps) (hid : current.inst.next = some id) :
    id ∈ routine.schedule := by
  obtain ⟨hmem, hinst⟩ := Routine.mem_schedule_of_mem_steps hstep
  apply Routine.mem_schedule_of_onward hmem
  rw [Routine.onward, hinst]
  simp only [hid]
  split <;> simp

/-- The same for the other successor of a jump. -/
theorem onTrue_mem_schedule (hstep : current ∈ routine.steps)
    (hjump : current.inst.kind.isJump = true) (hid : current.inst.onTrue = some id) :
    id ∈ routine.schedule := by
  obtain ⟨hmem, hinst⟩ := Routine.mem_schedule_of_mem_steps hstep
  apply Routine.mem_schedule_of_onward hmem
  rw [Routine.onward, hinst]
  simp [hid, hjump]

/-- The way on from an instruction that is no jump: to its successor, or out of the routine if it
has none. -/
theorem onward_next (h : routine.Valid constants)
    (hsplit : routine.steps = front ++ current :: rest)
    (hjump : current.inst.kind.isJump = false) :
    Onward host constants base routine current.inst.next
      ⟨core, (exitCode (Context.of constants base routine) current).lines ++
        rest.flatMap (stepLines (Context.of constants base routine))⟩ core (rest.length + 1) := by
  have hstep := Routine.mem_steps_of_split hsplit
  rcases hnext : current.inst.next with _ | next
  · rw [exitCode_end hjump hnext]
    exact ⟨0, _, 0, .exit _, rfl, .inr (Nat.succ_pos _)⟩
  · rw [exitCode_next hjump hnext]
    apply onward_continueTo h hsplit (next_mem_schedule hstep hnext)
    intro hne
    simp [Inst.branchTargets, hnext, hne]

end

/-- The way on from a jump: it depends on whether its condition is zero. The condition is loaded and
compared, then comes a branch for zero, whose target always has a label, and what is left is the way
on to the other successor. Nothing that the state is held in has changed. -/
theorem exists_onward_jump {host : Host} {constants : List Constant} {base : Nat}
    {routine : Routine} {front rest : List Routine.Step} {current : Routine.Step} {core : Core}
    {act : Activation} {state : Graph.State} {cond : Temp} (h : routine.Valid constants)
    (hctx : Fitting (Context.of constants base routine) act constants)
    (hsplit : routine.steps = front ++ current :: rest) (hkind : current.inst.kind = .jump cond)
    (hcond : .temp cond ∈ act.registers) (hholds : act.Holds state core) :
    ∃ core', act.Holds state core' ∧ Onward host constants base routine
      (if state.temps cond = 0 then current.inst.next else current.inst.onTrue)
      ⟨core, (exitCode (Context.of constants base routine) current).lines ++
        rest.flatMap (stepLines (Context.of constants base routine))⟩ core' (rest.length + 1) := by
  have hstep := Routine.mem_steps_of_split hsplit
  have hjump : current.inst.kind.isJump = true := by rw [hkind]; rfl
  obtain ⟨onFalse, onTrue, hnext, htrue⟩ := (h.sound_of_mem_steps hstep).exists_targets hjump
  have hlabelled : ∃ label, (Context.of constants base routine).label? onFalse = some label := by
    apply Context.exists_label hstep
    simp [Inst.branchTargets, hnext, hjump]
  obtain ⟨label, hlabel⟩ := hlabelled
  have hlines : (exitCode (Context.of constants base routine) current).lines =
      [Instr.mov ((Context.of constants base routine).temp cond) (.reg .r10),
        .alu .cmp (.imm 0) .r10].map .instr ++ .instr (.je label) ::
        (continueTo (Context.of constants base routine) current.following onTrue).lines := by
    rw [exitCode_jump hkind hnext htrue, Fragment.lines_append _ rfl, branchTo, hlabel]
    rfl
  -- the condition is loaded, and compared with zero
  let core' := (core.setReg .r10 (state.temps cond)).setFlags
    (some (.ofDifference (state.temps cond) 0))
  have hexec : execAll host [.mov ((Context.of constants base routine).temp cond) (.reg .r10),
      .alu .cmp (.imm 0) .r10] core = .next core' :=
    execAll_cons (exec_load_slot hctx hholds.toKeeps hcond .r10)
  refine ⟨core', (hholds.setReg (by decide) _).setFlags _, ?_⟩
  rw [hlines, List.append_assoc]
  refine Onward.after (leads_of_execAll hexec) ?_
  have hje : ∀ lines more, step host lines ⟨core', .instr (.je label) :: more⟩ =
      .next ⟨core', if state.temps cond = 0 then lines.dropWhile (· ≠ .label label) else more⟩ := by
    intro lines more
    rw [step_je rfl, Flags.meet_ofDifference]
    simp only [Comparison.holds, beq_iff_eq]
  -- what the flags say is what the graph asks
  by_cases hzero : state.temps cond = 0
  · obtain ⟨left, hlocated⟩ := exists_located h (next_mem_schedule hstep hnext) hlabel
    simp only [if_pos hzero] at hje ⊢
    rw [hnext]
    exact ⟨left, _, 1, hlocated, run_succ_of_next (hje _ _), .inl Nat.one_pos⟩
  · simp only [if_neg hzero] at hje ⊢
    rw [htrue]
    refine Onward.after (Leads.single (hje _ _)) ?_
    apply onward_continueTo h hsplit (onTrue_mem_schedule hstep hjump htrue)
    intro hne
    simp [Inst.branchTargets, htrue, hne]

end WordLang.Asm
