import WordLang.Proofs.Asm.Completeness
import WordLang.Proofs.Lowering.References
import WordLang.Proofs.Relabelling.Lowering

/-!
# Renaming and assembly

The assembly of a program shows the names of symbols and never their ids, and only the names of what
is global or referred to. So it is the same after a renaming that keeps these names
(`Asm.emit_rename`).

The proof follows the passes between a program and its text:

* the graph of a routine keeps its edges, so the two searches through it meet the same places in the
  same order, and steps, labels and frame come out the same, whatever the renaming does;
* the instructions of a routine show a symbol where they refer to one, so their text is the same if
  the renaming keeps the names of what is referred to (`Reference.Fixed`);
* what `Program.Keeps` asks of a renaming is that, and the names that start a section: those of the
  routines and of the globals.

For the same reason validation finds the same: it looks at registers, constants and edges, and it
reports names of routines.
-/

namespace WordLang

variable (r : Renaming)

/-! ## The layout of a routine

Nothing here depends on the renaming. Renaming changes what is inside of an instruction that refers
to something, and never an edge, a register or a handle, and the layout is made of these. -/

namespace Routine

variable (routine : Routine)

/-- The arena has the same places, and the renamed instructions in them. -/
theorem insts_rename (id : InstId) :
    (routine.rename r).insts[id]? = routine.insts[id]?.map (Inst.rename r) :=
  Array.getElem?_map

/-- A jump stays a jump: a renaming does not change what an instruction does. -/
theorem isJump_rename (kind : InstKind) : (kind.rename r).isJump = kind.isJump := by
  cases kind <;> rfl

/-- An instruction mentions the same registers, in the same order. -/
theorem uses_rename (kind : InstKind) : (kind.rename r).uses = kind.uses := by
  cases kind <;> rfl

/-- It branches to the same places. -/
theorem branchTargets_rename (inst : Inst) (following : Option InstId) :
    (inst.rename r).branchTargets following = inst.branchTargets following := by
  rw [Inst.branchTargets, Inst.rename, isJump_rename, Inst.branchTargets]

/-- From each place, control goes on to the same places. -/
theorem onward_rename (id : InstId) : (routine.rename r).onward id = routine.onward id := by
  rw [onward, onward, insts_rename]
  cases routine.insts[id]? with
  | none => rfl
  | some inst =>
    simp only [Option.map_some, Inst.rename, isJump_rename]

theorem holds_rename : (routine.rename r).holds = routine.holds := by
  funext id
  rw [holds, holds, Routine.rename, Array.size_map]

/-- A search finds the same new places. -/
theorem freshTargets_rename (met : List InstId) (inst : Inst) :
    (routine.rename r).freshTargets met (inst.rename r) = routine.freshTargets met inst := by
  rw [freshTargets, holds_rename, freshTargets]
  rfl

/-- The search that finds what can be reached meets the same places. By induction on the search
itself, which ends when its queue is empty. -/
theorem breadthFirst_rename (met queue : List InstId) :
    (routine.rename r).breadthFirst met queue = routine.breadthFirst met queue := by
  fun_induction breadthFirst routine met queue with
  | case1 met => rw [breadthFirst]
  | case2 met id queue hinst ih =>
    rw [breadthFirst, insts_rename, hinst]
    exact ih
  | case3 met id queue inst hinst fresh ih =>
    rw [breadthFirst, insts_rename, hinst]
    simp only [Option.map_some, freshTargets_rename]
    exact congrArg (id :: ·) ih

/-- The same places can be reached. -/
theorem reachable_rename : (routine.rename r).reachable = routine.reachable :=
  breadthFirst_rename r routine _ _

/-- The search that lays a routine out meets the same places in the same order. -/
theorem depthFirst_rename (met stack : List InstId) :
    (routine.rename r).depthFirst met stack = routine.depthFirst met stack := by
  fun_induction depthFirst routine met stack with
  | case1 met => rw [depthFirst]
  | case2 met id stack hmet ih => rw [depthFirst, if_pos hmet, ih]
  | case3 met id stack hmet ih => rw [depthFirst, if_neg hmet, onward_rename, ih]

/-- A routine and its renamed form are laid out in the same order. -/
theorem schedule_rename : (routine.rename r).schedule = routine.schedule :=
  depthFirst_rename r routine _ _

/-- Renames the symbol of a step's instruction. -/
def Step.rename (step : Step) : Step :=
  { step with inst := step.inst.rename r }

/-- Steps are made of places and of what is in them, so they are renamed one by one. -/
theorem stepsOf_rename (places : List (InstId × Option InstId)) :
    (routine.rename r).stepsOf places =
      ((routine.stepsOf places).1.map (Step.rename r), (routine.stepsOf places).2) := by
  induction places with
  | nil => rfl
  | cons place rest ih =>
    rw [stepsOf, stepsOf, insts_rename]
    cases routine.insts[place.1]? with
    | none => rfl
    | some inst =>
      simp only [Option.map_some, ih]
      rfl

/-- The steps of a routine, each renamed. -/
theorem steps_rename : (routine.rename r).steps = routine.steps.map (Step.rename r) := by
  rw [steps, schedule_rename, stepsOf_rename, steps]

/-- A place that is not in the arena is found in one exactly if it is found in the other. -/
theorem stray?_rename : (routine.rename r).stray? = routine.stray? := by
  rw [stray?, schedule_rename, stepsOf_rename, stray?]

/-- The same places need labels, in the same order, so they get the same numbers. -/
theorem labelled_rename : (routine.rename r).labelled = routine.labelled := by
  rw [labelled, steps_rename, List.flatMap_map, labelled]
  simp only [Step.rename, branchTargets_rename]

/-- Registers have the same slots, since they are used in the same order. -/
theorem frame_rename : (routine.rename r).frame = routine.frame := by
  rw [frame, steps_rename, List.flatMap_map, frame]
  simp only [Step.rename, Inst.rename, uses_rename]
  rfl

end Routine

/-! ## Routines whose references keep their names -/

/-- A renaming keeps the name of what is referred to. -/
def Reference.Fixed (reference : Reference Symbol) : Prop :=
  reference.map (fun symbol => r.name symbol.name) = reference.map Symbol.name

variable {r}

/-- What a step refers to is referred to by its routine. -/
theorem Routine.fixed_of_mem_steps {routine : Routine}
    (hreferences : ∀ reference ∈ routine.references, reference.Fixed r) {step : Routine.Step}
    (hstep : step ∈ routine.steps) {reference : Reference Symbol}
    (hkind : step.inst.kind.reference? = some reference) : reference.Fixed r := by
  obtain ⟨-, hinst⟩ := Routine.mem_stepsOf hstep
  have hmem : step.inst ∈ routine.insts.toList :=
    Array.mem_toList_iff.mpr (Array.mem_of_getElem? hinst)
  exact hreferences reference (List.mem_filterMap.mpr ⟨step.inst, hmem, hkind⟩)

/-! ### Validity

Validation reports the first thing that is wrong, with the name of the routine that it is in. Only
one report tells a symbol: a call with a wrong number of arguments, which tells the callee's. -/

/-- An instruction has the same violation, if what it refers to keeps its name. -/
theorem Inst.violation?_rename {constants : List Constant} {routine : Routine} {site : Site}
    {inst : Inst} (hfixed : ∀ reference, inst.kind.reference? = some reference →
      reference.Fixed r) :
    (inst.rename r).violation? constants (routine.rename r) site =
      inst.violation? constants routine site := by
  have htarget : (inst.rename r).targetViolation? (routine.rename r) site =
      inst.targetViolation? routine site := by
    rw [Inst.targetViolation?, Routine.holds_rename, Inst.targetViolation?]
    rfl
  obtain ⟨kind, next, onTrue⟩ := inst
  unfold Inst.violation?
  rw [htarget]
  cases kind with
  | call dst callee args =>
    have hname : r.name callee.name = callee.name := Reference.call.inj (hfixed _ rfl)
    simp only [Inst.rename, InstKind.rename, Renaming.symbol, hname]
    rfl
  | _ => rfl

/-- So has a routine that keeps its own name too. -/
theorem Routine.violation?_rename (constants : List Constant) {routine : Routine}
    (hname : r.routine routine.name = routine.name)
    (hreferences : ∀ reference ∈ routine.references, reference.Fixed r) :
    (routine.rename r).violation? constants = routine.violation? constants := by
  have hinst : (routine.rename r).instViolation? constants = routine.instViolation? constants := by
    funext id
    rw [Routine.instViolation?, Routine.instViolation?, Routine.insts_rename]
    cases hget : routine.insts[id]? with
    | none => rfl
    | some inst =>
      have hmem : inst ∈ routine.insts.toList :=
        Array.mem_toList_iff.mpr (Array.mem_of_getElem? hget)
      have hsite : (routine.rename r).name = routine.name := hname
      rw [Option.map_some, Option.bind_some, Option.bind_some, hsite]
      exact Inst.violation?_rename fun reference hkind =>
        hreferences reference (List.mem_filterMap.mpr ⟨inst, hmem, hkind⟩)
  unfold Routine.violation?
  rw [hinst, Routine.reachable_rename, Routine.holds_rename]
  simp only [Routine.rename, hname]
  rfl

/-! ### Assembly

From single instructions to the sections of all routines. The lines of an instruction are found in
its context, which has the slots and the labels; these are the same by the first section. -/

namespace Asm

/-- An instruction has the same lines, if what it refers to keeps its name. -/
theorem instCode_rename (ctx : Context) {kind : InstKind}
    (hfixed : ∀ reference, kind.reference? = some reference → reference.Fixed r) :
    instCode ctx (kind.rename r) = instCode ctx kind := by
  cases kind with
  | call dst callee args =>
    have hname : r.name callee.name = callee.name := Reference.call.inj (hfixed _ rfl)
    rw [InstKind.rename, instCode, Renaming.symbol, hname, instCode]
  | addressAt dst base offset =>
    have hname : r.name base.name = base.name := Reference.address.inj (hfixed _ rfl)
    rw [InstKind.rename, instCode, Renaming.symbol, hname, instCode]
  | _ => rfl

/-- The way on from an instruction shows no names at all. -/
theorem exitCode_rename (ctx : Context) (step : Routine.Step) :
    exitCode ctx (step.rename r) = exitCode ctx step := by
  obtain ⟨id, ⟨kind, next, onTrue⟩, following⟩ := step
  cases kind <;> rfl

/-- The code of a routine that keeps its own name and the names of what it refers to. -/
theorem routineCode_rename (constants : List Constant) (base : Nat) {routine : Routine}
    (hname : r.routine routine.name = routine.name)
    (hreferences : ∀ reference ∈ routine.references, reference.Fixed r) :
    routineCode constants base (routine.rename r) = routineCode constants base routine := by
  have hctx : Context.of constants base (routine.rename r) = Context.of constants base routine := by
    rw [Context.of, Routine.frame_rename, Routine.labelled_rename, Context.of,
      Routine.rename, hname]
  have hsteps : (routine.rename r).steps.map (stepCode (Context.of constants base routine)) =
      routine.steps.map (stepCode (Context.of constants base routine)) := by
    rw [Routine.steps_rename, List.map_map]
    refine List.map_congr_left fun step hstep => ?_
    rw [Function.comp_apply, stepCode, exitCode_rename, Routine.Step.rename, Inst.rename,
      instCode_rename _ fun _ hkind => Routine.fixed_of_mem_steps hreferences hstep hkind, stepCode]
  rw [routineCode, routineCode, Routine.stray?_rename]
  cases routine.stray? with
  | some id => simp only [Routine.rename, hname]
  | none =>
    simp only [hctx, hsteps]
    simp only [prologue, Routine.rename, hname, Routine.frameWords]

/-- The sections of several routines, with the same numbers for their labels. -/
theorem routineSections_rename (constants : List Constant) (nextLabel : Nat)
    {routines : List Routine} (hnames : ∀ routine ∈ routines, r.routine routine.name = routine.name)
    (hreferences : ∀ routine ∈ routines, ∀ reference ∈ routine.references, reference.Fixed r) :
    routineSections constants nextLabel (routines.map (Routine.rename r)) =
      routineSections constants nextLabel routines := by
  induction routines generalizing nextLabel with
  | nil => rfl
  | cons routine rest ih =>
    rw [List.forall_mem_cons] at hnames hreferences
    rw [List.map_cons, routineSections, routineSections, Routine.labelled_rename,
      routineCode_rename constants nextLabel hnames.1 hreferences.1, ih _ hnames.2 hreferences.2]

end Asm

/-! ## Programs -/

/-- A renaming keeps the names of routines, of globals, and of all that is referred to. -/
structure Program.Keeps (r : Renaming) (program : Program) : Prop where
  routines : ∀ routine ∈ program.routines, r.routine routine.name = routine.name
  globals : ∀ global ∈ program.globals, r.name global.symbol.name = global.symbol.name
  references : ∀ reference ∈ program.references, reference.Fixed r

/-- What is asked of a program's references is asked of those of its routines. -/
theorem Program.Keeps.of_mem {program : Program} (h : program.Keeps r) :
    ∀ routine ∈ program.routines, ∀ reference ∈ routine.references, reference.Fixed r := by
  intro routine hroutine reference hreference
  exact h.references reference (List.mem_flatMap.mpr ⟨routine, hroutine, hreference⟩)

/-- Validation finds the same in a program whose names are kept. -/
theorem Program.violation?_rename {program : Program} (h : program.Keeps r) :
    (program.rename r).violation? = program.violation? := by
  have hroutines : ∀ routines : List Routine, routines ⊆ program.routines →
      (routines.map (Routine.rename r)).findSome? (Routine.violation? program.constants) =
        routines.findSome? (Routine.violation? program.constants) := by
    intro routines hsub
    induction routines with
    | nil => rfl
    | cons routine rest ih =>
      obtain ⟨hroutine, hrest⟩ := List.cons_subset.mp hsub
      rw [List.map_cons, List.findSome?_cons, List.findSome?_cons, ih hrest,
        Routine.violation?_rename _ (h.routines routine hroutine) (h.of_mem routine hroutine)]
  exact hroutines program.routines (List.Subset.refl _)

/-- The assembly does not show ids. -/
theorem Asm.emit_rename {program : Program} (h : program.Keeps r) (nextLabel : Nat) (room : Room) :
    emit (program.rename r) nextLabel room = emit program nextLabel room := by
  have hcommon : (program.rename r).globals.map globalCode = program.globals.map globalCode := by
    rw [Program.rename, List.map_map]
    refine List.map_congr_left fun global hglobal => ?_
    rw [Function.comp_apply, globalCode, GlobalDecl.rename, Renaming.symbol,
      h.globals global hglobal, globalCode]
  have hsections : routineSections program.constants nextLabel (program.rename r).routines =
      routineSections program.constants nextLabel program.routines :=
    routineSections_rename _ _ h.routines h.of_mem
  have hconstants : (program.rename r).constants = program.constants := rfl
  rw [emit, sections, hcommon, hconstants, hsections, emit, sections]

end WordLang
