import WordLang.Proofs.Asm.Control

/-!
# Runs of a routine's assembly

The graph and the machine side by side, from the first step of a routine on: what one step of the
graph is for the machine, how both return, and where both trap.

The invariant is `Along`. It ties a state of the graph to a state of the machine: the state of the
graph can be reached, the slots hold what its registers hold, and the lines that the machine is at
are those of the instruction that the graph is at. Reachability is part of it because the
assumptions on the host are made for the events of the run and for no others.

There are four things that a step of the graph can do, and one lemma for each. It goes on
(`Along.exists_next`), it is the end of the run (`Along.exists_done`), it traps
(`Along.exists_fault`), or it has no rule; and the last cannot happen to an instruction with all its
constants in the pool (`step_ne_stuck`). `WordLang.Proofs.Asm.Fidelity` makes a simulation of them.

A step of the graph may be no step at all for the machine, so going on comes with a number, the
steps of the layout that are left. It gets smaller whenever the machine stands still.
-/

namespace WordLang

/-- The machine that goes through the graph of a routine. Its record is what the graph has done
outside of its registers. -/
def Routine.machine (world : World) (constants : List Constant) (routine : Routine) :
    Machine Graph.State Graph.Result Event where
  step := routine.step world constants
  record state := state.outside.trace

/-- An instruction that is no jump leads to its successor, and is at most one event. The second part
is what keeps the two records in step: the graph cannot run ahead by more than the machine sees. -/
theorem Inst.of_step {world : World} {constants : List Constant} {inst : Inst}
    {state state' : Graph.State} (h : inst.step world constants state = .next state') :
    (inst.kind.isJump = false → state'.pc = inst.next) ∧
      state'.outside.trace.length ≤ state.outside.trace.length + 1 := by
  rw [Inst.step] at h
  cases hkind : inst.kind with
  | arith op dst left right =>
    rw [hkind] at h
    simp only at h
    split at h
    · cases h
      exact ⟨fun _ => rfl, Nat.le_succ _⟩
    · cases h
  | copy dst src =>
    rw [hkind] at h
    simp only at h
    split at h
    · cases h
      exact ⟨fun _ => rfl, Nat.le_succ _⟩
    · cases h
  | load | store =>
    rw [hkind] at h
    cases h
    exact ⟨fun _ => rfl, Nat.le_refl _⟩
  | call dst callee args =>
    rw [hkind] at h
    cases h
    rw [Graph.State.outside_goto, Graph.State.outside_setResult]
    exact ⟨fun _ => rfl, Nat.le_refl _⟩
  | jump cond =>
    rw [hkind] at h
    cases h
    -- a jump may go elsewhere, so the first half says nothing of it
    refine ⟨fun hjump => ?_, Nat.le_succ _⟩
    cases hjump
  | ret value =>
    rw [hkind] at h
    cases h
  | addressAt | compare | not | nop =>
    rw [hkind] at h
    cases h
    exact ⟨fun _ => rfl, Nat.le_succ _⟩

/-- A step of a routine is at most one event. -/
theorem Routine.length_record_le {world : World} {constants : List Constant} {routine : Routine}
    {state state' : Graph.State} (h : routine.step world constants state = .next state') :
    state'.outside.trace.length ≤ state.outside.trace.length + 1 := by
  rw [Routine.step] at h
  split at h
  · cases h
  · split at h
    · exact (Inst.of_step h).2
    · cases h

namespace Asm

/-- The machine that goes through lines of assembly. Its record is the loads, stores and calls that
it has made; what it does on its own stack is not on it. -/
def machine (host : Host) (lines : List Line) : Machine State Exit Event where
  step := step host lines
  record state := state.core.trace

/-- A routine that was entered with a core returns to where it was called from, with the result. The
stack pointer is above the return address again, and the base is the caller's.

A routine without a result may leave anything in `%rax`. -/
structure Returns (entry : Core) (result : Graph.Result) (exit : Exit) : Prop where
  value : ∀ word, result.1 = some word → exit.core.regs .rax = word
  trace : List.Forall₂ Event.Shows result.2.trace exit.core.trace
  address : exit.address = entry.top
  base : exit.core.base = entry.base
  stack : exit.core.regs .rsp = above (entry.regs .rsp) 1

/-- An activation that has what a routine needs: a slot for every register, globals where the graph
has them, and room below the slots for the arguments of any call. What it remembers of the caller is
what was there on entry. -/
structure Setting (world : World) (host : Host) (constants : List Constant) (base : Nat)
    (routine : Routine) (entry : Core) (act : Activation) : Prop where
  valid : routine.Valid constants
  fitting : Fitting (Context.of constants base routine) act constants
  place : host.place = world.place
  room : ∀ step ∈ routine.steps, act.slots + 2 + step.inst.kind.pushed < act.reach
  top : act.top = entry.regs .rsp
  link : act.link = entry.top
  caller : act.caller = entry.base

/-- The machine is where the graph is, and holds what it holds. `left` counts the steps of the
layout from here on. -/
structure Along (world : World) (constants : List Constant) (base : Nat) (routine : Routine)
    (act : Activation) (start : Graph.State) (left : Nat) (state : Graph.State) (here : State) :
    Prop where
  reached : Leads (routine.step world constants) start (.next state)
  holds : act.Holds state here.core
  located : Located (Context.of constants base routine) routine state.pc here.code left

section

variable {world : World} {host : Host} {constants : List Constant} {base : Nat} {routine : Routine}
  {entry : Core} {act : Activation} {start state state' : Graph.State} {core : Core} {left : Nat}
  {front rest : List Routine.Step} {current : Routine.Step} {more : List Line}

/-- The registers of an instruction have slots. -/
theorem Setting.uses (h : Setting world host constants base routine entry act)
    (hstep : current ∈ routine.steps) :
    ∀ register ∈ current.inst.kind.uses, register ∈ act.registers := by
  intro register hregister
  rw [← h.fitting.frame]
  apply mem_firstUses.mpr
  exact List.mem_append_right _ (List.mem_flatMap.mpr ⟨current, hstep, hregister⟩)

/-- A label is passed over. -/
theorem leads_stepLines (host : Host) (lines : List Line) (ctx : Context) (core : Core)
    (current : Routine.Step) (more : List Line) :
    Leads (step host lines) ⟨core, stepLines ctx current ++ more⟩
      (.next ⟨core, (instCode ctx current.inst.kind).lines ++
        ((exitCode ctx current).lines ++ more)⟩) := by
  rw [stepLines, List.append_assoc, List.append_assoc]
  rcases ctx.label? current.id with _ | label
  · exact Leads.refl _
  · exact Leads.single rfl

/-- What the graph does at a scheduled instruction is up to the instruction. -/
theorem step_of_pc (hstep : current ∈ routine.steps) (hpc : state.pc = some current.id) :
    routine.step world constants state = current.inst.step world constants state := by
  rw [Routine.step, hpc]
  simp only [(Routine.mem_schedule_of_mem_steps hstep).2]

/-- The way on from any step: straight on, or by the jump. Only a jump looks at a register of the
graph, and it spoils a machine register and the flags, so the core may be another one afterwards. -/
theorem Setting.onward (h : Setting world host constants base routine entry act)
    (hsplit : routine.steps = front ++ current :: rest) (hholds : act.Holds state' core)
    (hnext : current.inst.step world constants state = .next state') :
    ∃ core', act.Holds state' core' ∧ Onward host constants base routine state'.pc
      ⟨core, (exitCode (Context.of constants base routine) current).lines ++
        rest.flatMap (stepLines (Context.of constants base routine))⟩ core' (rest.length + 1) := by
  have hstep := Routine.mem_steps_of_split hsplit
  rcases hjump : current.inst.kind.isJump with _ | _
  · rw [(Inst.of_step hnext).1 hjump]
    exact ⟨core, hholds, onward_next h.valid hsplit hjump⟩
  · obtain ⟨cond, hkind⟩ := InstKind.exists_jump hjump
    have hcond := h.uses hstep (.temp cond) (by simp [hkind, InstKind.uses])
    rw [Inst.step, hkind] at hnext
    cases hnext
    exact exists_onward_jump h.valid h.fitting hsplit hkind hcond hholds

/-- One step of the graph, for the machine: over the label if there is one, through the lines of the
instruction, and along the way on. Either the machine has made a step or fewer are left. -/
theorem Along.exists_next (h : Setting world host constants base routine entry act)
    (hhonours : ∀ state, Leads (routine.step world constants) start (.next state) →
      act.Honours world host state.outside.trace)
    {here : State} (halong : Along world constants base routine act start left state here)
    (hnext : routine.step world constants state = .next state') :
    ∃ left' here' count, Along world constants base routine act start left' state' here' ∧
      run (step host (routineCode constants base routine).lines) count here = .next here' ∧
      (0 < count ∨ left' < left) := by
  obtain ⟨hreached, hholds, hlocated⟩ := halong
  obtain ⟨core, code⟩ := here
  have hreached' := hreached.trans (Leads.single hnext)
  generalize hpc : state.pc = pc at hlocated
  cases hlocated with
  -- past the last instruction the graph does not go on
  | exit rest =>
    rw [Routine.step, hpc] at hnext
    cases hnext
  | @step front rest current hsplit =>
    have hstep := Routine.mem_steps_of_split hsplit
    rw [step_of_pc hstep hpc] at hnext
    obtain ⟨code, hcode, core₁, hexec, hholds₁⟩ := exists_reaches h.fitting h.place hholds
      (h.uses hstep) (h.room current hstep) hnext (hhonours state' hreached')
    obtain ⟨core₂, hholds₂, honward⟩ := h.onward hsplit hholds₁ hnext
    have hleads := leads_stepLines host (routineCode constants base routine).lines
      (Context.of constants base routine) core current
      (rest.flatMap (stepLines (Context.of constants base routine)))
    rw [hcode] at hleads
    obtain ⟨left', code', count, hlocated', hrun, hless⟩ :=
      honward.after (hleads.trans (leads_of_execAll hexec))
    exact ⟨left', ⟨core₂, code'⟩, count, ⟨hreached', hholds₂, hlocated'⟩, hrun, hless⟩

/-- The end of a frame. `leave` puts back the stack and the base, and `ret` takes the return address
off the stack; both find what was there on entry, because nothing has written to those two words. -/
theorem returns_of_leave (h : Setting world host constants base routine entry act)
    (hholds : act.Holds state core) (value : Option Word)
    (hvalue : ∀ word, value = some word → core.regs .rax = word) (lines more : List Line) :
    ∃ core' exit, step host lines ⟨core, .instr .leave :: .instr .ret :: more⟩ =
        .next ⟨core', .instr .ret :: more⟩ ∧ core'.trace = core.trace ∧
      step host lines ⟨core', .instr .ret :: more⟩ = .done exit ∧
      Returns entry (value, state.outside) exit := by
  have hstack : above core.base 1 = act.top := by
    rw [hholds.base, above_below _ (Nat.le_refl 1), below_zero]
  refine ⟨_, _, rfl, rfl, rfl, hvalue, hholds.trace, ?_, ?_, ?_⟩
  · change core.memory.read (above core.base 1) = _
    rw [hstack, hholds.link, h.link]
  · change core.memory.read core.base = _
    rw [hholds.base, hholds.caller, h.caller]
  · change above (above core.base 1) 1 = _
    rw [hstack, h.top]

/-- Only a return ends a run at an instruction. A run also ends where there is no instruction to go
on with, which is not at one. -/
theorem of_step_done {inst : Inst} {result : Graph.Result}
    (h : inst.step world constants state = .done result) :
    ∃ value, inst.kind = .ret value ∧ result = (value.map state.temps, state.outside) := by
  rw [Inst.step] at h
  cases hkind : inst.kind with
  | ret value =>
    rw [hkind] at h
    cases h
    exact ⟨value, rfl, rfl⟩
  | arith | copy =>
    rw [hkind] at h
    simp only at h
    split at h <;> cases h
  | _ =>
    rw [hkind] at h
    cases h

/-- Only a division traps, and it does so exactly where dividing words has no result. -/
theorem of_step_fault {inst : Inst} (h : inst.step world constants state = .fault) :
    ∃ dst left right, inst.kind = .arith .div dst left right ∧
      Arith.apply .div (state.temps left) (state.temps right) = none := by
  rw [Inst.step] at h
  cases hkind : inst.kind with
  | arith op dst left right =>
    rw [hkind] at h
    simp only at h
    split at h
    · cases h
    · next hnone =>
      cases op with
      | div => exact ⟨dst, left, right, rfl, hnone⟩
      | _ => cases hnone
  | copy =>
    rw [hkind] at h
    simp only at h
    split at h <;> cases h
  | _ =>
    rw [hkind] at h
    cases h

/-- An instruction with its constant in the pool has a rule. For all the others there is nothing
that could be missing. -/
theorem step_ne_stuck {inst : Inst} (h : inst.Sound constants routine) :
    inst.step world constants state ≠ .stuck := by
  intro hstuck
  rw [Inst.step] at hstuck
  cases hkind : inst.kind with
  | arith =>
    rw [hkind] at hstuck
    simp only at hstuck
    split at hstuck <;> cases hstuck
  | copy dst src =>
    rw [hkind] at hstuck
    simp only at hstuck
    split at hstuck
    · cases hstuck
    · next hnone =>
      cases src with
      | const id =>
        have hlt := h.pooled id (by simp [hkind, InstKind.operands])
        rw [Graph.State.read?, List.getElem?_eq_getElem hlt] at hnone
        cases hnone
      | _ => cases hnone
  | _ =>
    rw [hkind] at hstuck
    cases hstuck

/-- The end of the graph's run, for the machine: the value goes into `%rax`, and then the frame is
taken down. If the graph ends by having nothing to go on with, there is no value to move, and the
machine is in front of the same two lines. -/
theorem Along.exists_done (h : Setting world host constants base routine entry act) {here : State}
    (halong : Along world constants base routine act start left state here)
    {result : Graph.Result} (hdone : routine.step world constants state = .done result) :
    ∃ here' exit, Leads (step host (routineCode constants base routine).lines) here (.next here') ∧
      here'.core.trace = here.core.trace ∧
      step host (routineCode constants base routine).lines here' = .done exit ∧
      Returns entry result exit := by
  obtain ⟨-, hholds, hlocated⟩ := halong
  obtain ⟨core, code⟩ := here
  generalize hpc : state.pc = pc at hlocated
  cases hlocated with
  | exit rest =>
    rw [Routine.step, hpc] at hdone
    cases hdone
    obtain ⟨core', exit, hleave, htrace, hret, hreturns⟩ :=
      returns_of_leave h hholds none nofun (routineCode constants base routine).lines rest
    exact ⟨_, exit, Leads.single hleave, htrace, hret, hreturns⟩
  | @step front rest current hsplit =>
    have hstep := Routine.mem_steps_of_split hsplit
    rw [step_of_pc hstep hpc] at hdone
    obtain ⟨value, hkind, rfl⟩ := of_step_done hdone
    -- a return leads nowhere, so its block ends with the code that leaves the routine
    have hend : current.inst.next = none := by
      have hfinal := (h.valid.sound_of_mem_steps hstep).final (by rw [hkind]; rfl)
      rw [Inst.successors, List.append_eq_nil_iff] at hfinal
      simpa using hfinal.1
    have huses := h.uses hstep
    rw [hkind] at huses
    obtain ⟨code, core₁, hcode, hexec, hholds₁, htrace₁, hvalue⟩ :=
      exists_return host h.fitting hholds huses
    have hleads := leads_stepLines host (routineCode constants base routine).lines
      (Context.of constants base routine) core current
      (rest.flatMap (stepLines (Context.of constants base routine)))
    rw [hkind, hcode, exitCode_end (by rw [hkind]; rfl) hend] at hleads
    obtain ⟨core', exit, hleave, htrace, hret, hreturns⟩ :=
      returns_of_leave h hholds₁ (value.map state.temps) hvalue
        (routineCode constants base routine).lines
        (rest.flatMap (stepLines (Context.of constants base routine)))
    refine ⟨_, exit, ?_, htrace.trans htrace₁, hret, hreturns⟩
    exact (hleads.trans (leads_of_execAll hexec)).trans (Leads.single hleave)

/-- A trap of the graph, for the machine: it gets as far as the division, with both operands where
it wants them, and no further. -/
theorem Along.exists_fault (h : Setting world host constants base routine entry act) {here : State}
    (halong : Along world constants base routine act start left state here)
    (hfault : routine.step world constants state = .fault) :
    ∃ here', Leads (step host (routineCode constants base routine).lines) here (.next here') ∧
      here'.core.trace = here.core.trace ∧
      step host (routineCode constants base routine).lines here' = .fault := by
  obtain ⟨-, hholds, hlocated⟩ := halong
  obtain ⟨core, code⟩ := here
  generalize hpc : state.pc = pc at hlocated
  cases hlocated with
  | exit rest =>
    rw [Routine.step, hpc] at hfault
    cases hfault
  | @step front rest current hsplit =>
    have hstep := Routine.mem_steps_of_split hsplit
    rw [step_of_pc hstep hpc] at hfault
    obtain ⟨dst, left, right, hkind, hnone⟩ := of_step_fault hfault
    have huses := h.uses hstep
    rw [hkind] at huses
    obtain ⟨core', hexec, htrace, hidiv⟩ := exists_divide_fault host h.fitting hholds
      (huses (.temp left) (by simp [InstKind.uses])) (huses (.temp right) (by simp [InstKind.uses]))
      hnone
    have hleads := leads_stepLines host (routineCode constants base routine).lines
      (Context.of constants base routine) core current
      (rest.flatMap (stepLines (Context.of constants base routine)))
    -- division is the only block that can fault, and it has loaded the dividend by then
    have hlines :
      (instCode (Context.of constants base routine) (.arith .div dst left right)).lines =
        (dividendCode (Context.of constants base routine) left right).map .instr ++
          [.instr (.idiv .r10),
            .instr (.mov (.reg .rax) ((Context.of constants base routine).temp dst))] := rfl
    rw [hkind, hlines, List.append_assoc] at hleads
    refine ⟨_, hleads.trans (leads_of_execAll hexec), htrace, ?_⟩
    simp only [List.cons_append, step, hidiv]

end

end Asm

end WordLang
