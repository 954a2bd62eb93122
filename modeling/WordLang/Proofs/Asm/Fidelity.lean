import WordLang.Proofs.Asm.Entry

/-!
# Assembly does what the graph says

Main statement: the assembly of a routine of a valid program mirrors its graph. Entered with any
core, the machine loads, stores and calls what the graph does, in the same order and with the same
words; it traps on a division exactly if the graph does, and returns exactly if the graph comes to
its end; and then the value that the graph returns is in `%rax`. It returns to where it was called
from, with the stack and the base as they were there.

The frame has to be one that can be opened. The rest is up to the host: a function that is called
leaves the routine's words on the stack alone and looks at nothing but its arguments, and no address
that is loaded from or stored to is on the routine's stack.

Both sides only go forward and neither has a choice, so a simulation in one direction gives the
other one (`Simulation.mirrors`). It does so although a step of the graph may be no step of the
machine: a graph that goes on forever keeps the machine going, since it can stand still only as
often as there are steps below.

The example at the end has a loop, a division, a call and a store, and is small enough that the
assumptions on the host can be checked state by state.
-/

namespace WordLang.Asm

section

variable {world : World} {host : Host} {constants : List Constant} {base : Nat} {routine : Routine}
  {entry : Core} {act : Activation} {origin : Graph.State}

/-- The machine follows the graph from step to step. Each field is one of the lemmas on single
steps, and a valid routine has no step without a rule. -/
theorem Setting.simulation (h : Setting world host constants base routine entry act)
    (hhonours : ∀ state, Leads (routine.step world constants) origin (.next state) →
      act.Honours world host state.outside.trace) :
    Simulation Event.Shows (Returns entry) (routine.machine world constants)
      (machine host (routineCode constants base routine).lines)
      (Along world constants base routine act origin) where
  record halong := halong.holds.trace
  next halong hnext := Along.exists_next h hhonours halong hnext
  done halong hdone := Along.exists_done h halong hdone
  fault halong hfault := Along.exists_fault h halong hfault
  not_stuck := by
    intro left state here halong hstuck
    obtain ⟨-, -, hlocated⟩ := halong
    obtain ⟨core, code⟩ := here
    change routine.step world constants state = .stuck at hstuck
    generalize hpc : state.pc = pc at hlocated
    cases hlocated with
    | exit rest =>
      rw [Routine.step, hpc] at hstuck
      cases hstuck
    | step hsplit =>
      have hstep := Routine.mem_steps_of_split hsplit
      rw [step_of_pc hstep hpc] at hstuck
      exact step_ne_stuck (h.valid.sound_of_mem_steps hstep) hstuck
  slow hnext := Routine.length_record_le hnext
  grows hnext := trace_of_step hnext

/-! ## Entry

Before the first step the frame is opened and the arguments are put in their slots. The graph has
them in its registers from the beginning. -/

/-- The lines that a routine is entered at: its name, the frame, the arguments, and then the steps.
No line before the name is one, since the name stands at the top of the routine. -/
theorem start_routineCode (h : routine.Valid constants) (base : Nat) (entry : Core) :
    start (routineCode constants base routine).lines routine.name entry =
      ⟨entry, .entry routine.name ::
        ((.enter routine.frameWords ::
            bindArgs (Context.of constants base routine) 0 routine.args).map .instr ++
          routine.steps.flatMap (stepLines (Context.of constants base routine)))⟩ := by
  rw [start, lines_routineCode h base, prologue]
  simp

/-- The first step of the layout is the start of the routine. -/
theorem exists_first_step (h : routine.Valid constants) :
    ∃ first rest, routine.steps = first :: rest ∧ first.id = routine.start := by
  have hhead := routine.head?_schedule
  rw [← h.map_id_steps, List.head?_map] at hhead
  obtain ⟨first, hfirst, hid⟩ := Option.map_eq_some_iff.mp hhead
  obtain ⟨rest, hrest⟩ := List.head?_eq_some_iff.mp hfirst
  exact ⟨first, rest, hrest, hid⟩

/-- After the arguments are in their slots, the machine is where the graph starts. -/
theorem exists_along_start (world : World) (host : Host) (base : Nat)
    (hvalid : routine.Valid constants) (hfits : routine.Fits) (htrace : entry.trace = []) :
    ∃ left here, Leads (step host (routineCode constants base routine).lines)
        (start (routineCode constants base routine).lines routine.name entry) (.next here) ∧
      here.core.trace = entry.trace ∧
      Along world constants base routine (routine.activation hvalid hfits entry)
        (routine.enterFrom entry) left (routine.enterFrom entry) here := by
  have hctx : Fitting (Context.of constants base routine)
      (routine.activation hvalid hfits entry) constants := ⟨rfl, rfl⟩
  obtain ⟨core₁, hexec₁, htrace₁, h₁, harrived⟩ := exists_entered host hvalid hfits htrace
  have hmem : ∀ arg ∈ routine.args, .temp arg ∈ routine.frame := by
    intro arg harg
    exact mem_firstUses.mpr (List.mem_append_left _ (List.mem_map_of_mem harg))
  have hroom : 0 + routine.args.length + routine.frameWords + 2 ≤ maxWords := by
    have hargs := hfits.args
    have hframe := hfits.frame
    unfold Routine.maxRegisters at hargs
    unfold wordSize at hframe
    change _ ≤ 2 ^ 61
    omega
  -- entering opens the frame, and binding then fills the slots of the parameters
  obtain ⟨core₂, hexec₂, htrace₂, hstack₂, hkeeps₂⟩ :=
    exists_bindArgs host hctx h₁.toKeeps harrived hmem hroom
  obtain ⟨first, rest, hsteps, hid⟩ := exists_first_step hvalid
  refine ⟨rest.length + 1,
    ⟨core₂, routine.steps.flatMap (stepLines (Context.of constants base routine))⟩, ?_,
    htrace₂.trans htrace₁, Leads.refl _, ?_, ?_⟩
  · rw [start_routineCode hvalid]
    refine Leads.head rfl (leads_of_execAll ?_)
    exact (execAll_cons hexec₁).trans hexec₂
  · rw [← List.range_eq_range'] at hkeeps₂
    exact ⟨hkeeps₂, hstack₂.trans h₁.stack⟩
  · rw [hsteps]
    change Located _ _ (some routine.start) _ _
    rw [← hid]
    exact .step (hsteps.trans (List.nil_append _).symm)

end

/-- The assembly of a routine mirrors its graph. The labels may start from any number, and the
contents of the registers of the graph that are no arguments are those that the frame has in their
slots when it is opened, whatever these are. -/
theorem routineCode_mirrors {program : Program} {routine : Routine}
    (hvalid : program.violation? = none) (hmem : routine ∈ program.routines) (hfits : routine.Fits)
    (base : Nat) {world : World} {host : Host} (hplace : host.place = world.place) {entry : Core}
    (htrace : entry.trace = [])
    (hhonours : ∀ state, Leads (routine.step world program.constants) (routine.enterFrom entry)
      (.next state) → (routine.extent entry).Honours world host state.outside.trace) :
    Mirrors Event.Shows (Returns entry) (routine.machine world program.constants)
      (machine host (routineCode program.constants base routine).lines) (routine.enterFrom entry)
      (start (routineCode program.constants base routine).lines routine.name entry) := by
  have hvalid' : routine.Valid program.constants :=
    Routine.valid_of_violation? (List.findSome?_eq_none_iff.mp hvalid routine hmem)
  have hsetting : Setting world host program.constants base routine entry
      (routine.activation hvalid' hfits entry) := by
    refine ⟨hvalid', ⟨rfl, rfl⟩, hplace, fun step hstep => ?_, rfl, rfl, rfl⟩
    have hle := Routine.pushed_le_outgoing hstep
    change routine.frameWords + 2 + step.inst.kind.pushed <
      routine.frameWords + 3 + routine.outgoing
    omega
  obtain ⟨left, here, hleads, hsame, halong⟩ :=
    exists_along_start world host base hvalid' hfits htrace
  exact (hsetting.simulation hhonours).delayed.mirrors ⟨here, hleads, hsame, halong⟩

/-! ## A routine that halves -/

/-- A routine that halves its argument until it is zero. Each half is passed on, and what comes back
is stored. -/
def halving : Routine where
  name := "halve"
  ty := .func [.int] .int
  args := [⟨0⟩]
  insts := #[
    { kind := .copy ⟨1⟩ (.const 0), next := some 1 },
    { kind := .arith .div ⟨0⟩ ⟨0⟩ ⟨1⟩, next := some 2 },
    { kind := .jump ⟨0⟩, next := some 6, onTrue := some 3 },
    { kind := .call (some ⟨1⟩) { id := ⟨0⟩, name := "note", ty := none } [⟨0⟩], next := some 4 },
    { kind := .addressAt ⟨0⟩ { id := ⟨1⟩, name := "last", ty := none } none, next := some 5 },
    { kind := .store ⟨1⟩ ⟨0⟩, next := some 0 },
    { kind := .ret (some ⟨0⟩) }]
  temps := 2
  addrs := 1

/-- The program of that routine. -/
def halvingProgram : Program where
  routines := [halving]
  constants := [.int 2]

/-- Calls come to seven and leave the memory alone. -/
def sevens : World where
  place _ := 0
  answer _ := { result := 7, bytes := fun _ => none }

/-- A host where calls do the same. -/
def sevensHost : Host where
  place _ := 0
  answer _ := { result := 7, bytes := fun _ => none }
  leftover _ _ := 0
  link _ := 0

/-- A core with three as the first argument. -/
def threePassed : Core where
  regs reg :=
    match reg with
    | .rdi => 3
    | .rsp => 4096
    | _ => 0
  base := 0
  flags := none
  memory _ := 0
  trace := []

/-- Its frame can be opened, and its call needs no room on the stack. -/
theorem fits_halving : halving.Fits where
  frame := by decide
  args := by decide
  calls := by
    intro inst hinst dst callee args hkind
    simp only [halving, List.mem_cons, List.not_mem_nil, or_false] at hinst
    rcases hinst with rfl | rfl | rfl | rfl | rfl | rfl | rfl
    all_goals cases hkind
    decide

/-- Its events ask nothing of the host: the function that is called leaves the memory alone, and the
only address that it stores to is far away from the stack. -/
theorem honours_halving (state : Graph.State)
    (h : Leads (halving.step sevens halvingProgram.constants) (halving.enterFrom threePassed)
      (.next state)) :
    (halving.extent threePassed).Honours sevens sevensHost state.outside.trace := by
  have hcall : ∀ before, (halving.extent threePassed).Honours sevens sevensHost
      (.call "note" [1] :: before) :=
    fun before => ⟨fun events _ => rfl, fun place _ => rfl⟩
  have haway : (halving.extent threePassed).Avoids 0 := by
    have hreach : (halving.extent threePassed).reach = 7 := by decide +kernel
    intro place hplace
    rw [hreach]
    change 7 ≤ (4096 + 7 - place).toNat / 8
    unfold wordSize at hplace
    bv_omega
  -- three is halved to one, which is passed on and answered; one is halved to zero
  obtain rfl | h := h.cases_next rfl
  · trivial
  obtain rfl | h := h.cases_next rfl
  · trivial
  obtain rfl | h := h.cases_next rfl
  · trivial
  obtain rfl | h := h.cases_next rfl
  · trivial
  obtain rfl | h := h.cases_next rfl
  · exact hcall []
  obtain rfl | h := h.cases_next rfl
  · exact hcall []
  obtain rfl | h := h.cases_next rfl
  · exact haway
  obtain rfl | h := h.cases_next rfl
  · exact haway
  obtain rfl | h := h.cases_next rfl
  · exact haway
  obtain rfl := h.eq_of_final rfl
  exact haway

/-- So its assembly mirrors it. -/
theorem routineCode_mirrors_halving :
    Mirrors Event.Shows (Returns threePassed) (halving.machine sevens halvingProgram.constants)
      (machine sevensHost (routineCode halvingProgram.constants 0 halving).lines)
      (halving.enterFrom threePassed)
      (start (routineCode halvingProgram.constants 0 halving).lines halving.name threePassed) :=
  routineCode_mirrors (by decide +kernel) List.mem_cons_self fits_halving 0 rfl rfl honours_halving

end WordLang.Asm
