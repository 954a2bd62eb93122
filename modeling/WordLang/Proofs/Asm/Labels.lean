import Mathlib.Data.List.Nodup
import Mathlib.Data.List.Range
import WordLang.Proofs.Asm.Control

/-!
# Labels and branches

A label line defines a number, and a branch names one. In the assembly of a valid routine whose
labels are numbered from `base` on, the numbers that are defined are the next ones from `base` on,
each defined once, as many as there are instructions that need a label; and these are just the
numbers that branches name (`labels_routineCode`, `mem_targets_routineCode`).

Sections go on from the number where the one before left off, and so do programs that are written
one after the other, also if writing one of them ended early. So no number is ever defined twice
(`nodup_labels_writtenAll`).

Which lines are labels and which branch is read off the code of one instruction at a time. Lines in
the middle of an instruction are neither; the first line of a step is its label if it has one, and
branches are only in the way on from a step. What a step branches to is said by
`Inst.branchTargets`, and the labels of a routine are the first uses of just these.

Writing can end early in the middle of a section. What is written is then the beginning of what
there is to write, so it defines some of the numbers of its section and no others. That is the
reason why `Defines` speaks of an interval and not of a list: it is kept by taking a beginning, and
by going on where the interval ends.
-/

namespace WordLang.Asm

/-- The number that a line defines. -/
def Line.label? : Line → Option Nat
  | .label number => some number
  | _ => none

/-- The number that an instruction branches to. -/
def Instr.target? : Instr → Option Nat
  | .je number => some number
  | .jmp number => some number
  | _ => none

/-- The number that a line branches to. -/
def Line.target? : Line → Option Nat
  | .instr i => i.target?
  | _ => none

/-- The numbers that lines define, in their order. -/
def labels (lines : List Line) : List Nat :=
  lines.filterMap Line.label?

/-- The numbers that lines branch to, in their order. -/
def targets (lines : List Line) : List Nat :=
  lines.filterMap Line.target?

/-- The numbers that lines in a row define. -/
@[simp]
theorem labels_append (first second : List Line) :
    labels (first ++ second) = labels first ++ labels second :=
  List.filterMap_append

/-- The numbers that lines in a row branch to. -/
@[simp]
theorem targets_append (first second : List Line) :
    targets (first ++ second) = targets first ++ targets second :=
  List.filterMap_append

/-- Instructions define no numbers. -/
@[simp]
theorem labels_instrs (code : List Instr) : labels (code.map .instr) = [] := by
  rw [labels, List.filterMap_map, List.filterMap_eq_nil_iff]
  exact fun _ _ => rfl

/-- Instructions branch one by one. -/
@[simp]
theorem targets_instrs (code : List Instr) :
    targets (code.map .instr) = code.filterMap Instr.target? := by
  rw [targets, List.filterMap_map]
  rfl

/-- A plain fragment consists of instructions. -/
theorem labels_of_plain {fragment : Fragment} (h : fragment.Plain) :
    labels fragment.lines = [] := by
  obtain ⟨code, hcode⟩ := h
  rw [hcode, labels_instrs]

/-! ## Instructions

By cases on the instruction. Branches are made by `branchTo` alone, and each of them is to the label
of a place. -/

section

variable {ctx : Context} {constants : List Constant} {base : Nat} {routine : Routine}
  {step : Routine.Step}

/-- The code of a call does not branch. -/
theorem targets_callCode (dst : Option Temp) (callee : String) (args : List Temp) :
    (callCode ctx dst callee args).filterMap Instr.target? = [] := by
  have hloads : (loadArgs ctx (args.take argRegs.length)).filterMap Instr.target? = [] := by
    rw [loadArgs, List.filterMap_map, List.filterMap_eq_nil_iff]
    exact fun _ _ => rfl
  have halign : (alignCode (args.drop argRegs.length)).filterMap Instr.target? = [] := by
    rw [alignCode]
    split <;> rfl
  have hpushes : (pushArgs ctx (args.drop argRegs.length)).filterMap Instr.target? = [] := by
    rw [pushArgs, List.filterMap_map, List.filterMap_eq_nil_iff]
    exact fun _ _ => rfl
  have hpops : (popArgs (args.drop argRegs.length)).filterMap Instr.target? = [] := by
    simp only [popArgs]
    split <;> rfl
  have hresult : (dst.toList.map fun dst => Instr.mov (.reg .rax) (ctx.temp dst)).filterMap
      Instr.target? = [] := by
    cases dst <;> rfl
  simp only [callCode, List.filterMap_append, hloads, halign, hpushes, hpops, hresult]
  rfl

/-- Only the way on from an instruction branches. -/
theorem targets_instCode (ctx : Context) (kind : InstKind) :
    targets (instCode ctx kind).lines = [] := by
  cases kind with
  | copy dst src =>
    cases src with
    | const id =>
      rw [instCode, loadOperand]
      split
      · next constant _ =>
        rw [loadWord]
        split <;> rfl
      · rfl
    | _ => rfl
  | arith op dst left right => cases op <;> rfl
  | addressAt dst base offset => cases offset <;> rfl
  | call dst callee args =>
    rw [instCode, Fragment.lines_instrs, targets_instrs, targets_callCode]
  | ret value => cases value <;> rfl
  | _ => rfl

/-- A branch to a place names the label of that place, if it has one. -/
theorem targets_branchTo {branch : Nat → Instr}
    (hbranch : ∀ number, (branch number).target? = some number)
    (id : InstId) : targets (branchTo ctx branch id).lines = (ctx.label? id).toList := by
  rw [branchTo]
  cases ctx.label? id with
  | none => rfl
  | some number => exact congrArg Option.toList (hbranch number)

/-- Going on branches, unless the place comes next. -/
theorem targets_continueTo (following : Option InstId) (id : InstId) :
    targets (continueTo ctx following id).lines =
      ([id].filter fun id => following ≠ some id).filterMap ctx.label? := by
  rw [continueTo]
  by_cases hfollowing : following = some id
  · rw [if_pos hfollowing, List.filter_cons_of_neg (by simp [hfollowing])]
    rfl
  · rw [if_neg hfollowing, List.filter_cons_of_pos (by simp [hfollowing])]
    exact targets_branchTo (fun _ => rfl) id

/-- The way on from a step branches to the labels of its targets. -/
theorem targets_exitCode (hstep : step ∈ routine.steps)
    (hsound : step.inst.Sound constants routine) :
    targets (exitCode (Context.of constants base routine) step).lines =
      (step.inst.branchTargets step.following).filterMap
        (Context.of constants base routine).label? := by
  cases hsound.leadsOn with
  | stop hjump hnext =>
    rw [exitCode_end hjump hnext, Inst.branchTargets, hnext, hsound.onTrue_eq_none hjump]
    rfl
  | @next target hjump hnext =>
    have htargets : step.inst.branchTargets step.following =
        [target].filter fun id => step.following ≠ some id := by
      simp [Inst.branchTargets, hnext, hsound.onTrue_eq_none hjump, hjump]
    rw [exitCode_next hjump hnext, targets_continueTo, htargets]
  | @jump cond onFalse onTrue hkind hnext htrue =>
    have htargets : step.inst.branchTargets step.following =
        [onFalse] ++ [onTrue].filter fun id => step.following ≠ some id := by
      simp [Inst.branchTargets, InstKind.isJump, hkind, hnext, htrue]
    have hmem : onFalse ∈ step.inst.branchTargets step.following := by
      rw [htargets]
      exact List.mem_append_left _ (List.mem_singleton_self _)
    rw [exitCode_jump hkind hnext htrue, Fragment.lines_append _ rfl,
      Fragment.lines_append _ (halt_branchTo hstep hmem .je), targets_append, targets_append,
      targets_branchTo (fun _ => rfl), targets_continueTo, htargets, List.filterMap_append]
    rfl

/-- A step defines the label of its place, if it has one. -/
theorem labels_stepLines : labels (stepLines ctx step) = (ctx.label? step.id).toList := by
  rw [stepLines, labels_append, labels_append, labels_of_plain (plain_instCode ctx step.inst.kind),
    labels_of_plain (plain_exitCode ctx step), List.append_nil, List.append_nil]
  cases ctx.label? step.id <;> rfl

/-- A step branches to the labels of its targets. -/
theorem targets_stepLines (hstep : step ∈ routine.steps)
    (hsound : step.inst.Sound constants routine) :
    targets (stepLines (Context.of constants base routine) step) =
      (step.inst.branchTargets step.following).filterMap
        (Context.of constants base routine).label? := by
  have hlabel :
    targets (((Context.of constants base routine).label? step.id).toList.map .label) = [] := by
    cases (Context.of constants base routine).label? step.id <;> rfl
  rw [stepLines, targets_append, targets_append, targets_instCode,
    targets_exitCode hstep hsound, hlabel]
  rfl

/-! ## Routines

The labels of the steps together. Every place that needs a label is a step, since targets are
scheduled; and a step comes only once. -/

/-- The head of a routine defines no numbers: what it defines is the name of the routine. -/
theorem labels_prologue : labels (prologue ctx routine) = [] := by
  rw [prologue, labels_append, labels_instrs]
  rfl

/-- Nor does it branch. -/
theorem targets_prologue : targets (prologue ctx routine) = [] := by
  have hbind : ∀ (args : List Temp) (index : Nat),
      (bindArgs ctx index args).filterMap Instr.target? = [] := by
    intro args
    induction args with
    | nil => exact fun _ => rfl
    | cons arg rest ih =>
      intro index
      rw [bindArgs, List.filterMap_append, ih, bindArg]
      split <;> rfl
  rw [prologue, targets_append, targets_instrs, hbind]
  rfl

/-- A label that is needed is that of a scheduled instruction. -/
theorem mem_schedule_of_mem_labelled (h : routine.Valid constants) {id : InstId}
    (hid : id ∈ routine.labelled) : id ∈ routine.schedule := by
  obtain ⟨step, hstep, hmem⟩ := List.mem_flatMap.mp (mem_firstUses.mp hid)
  rcases List.mem_append.mp hmem with hnext | htrue
  · have hnext := Option.mem_toList.mp (List.mem_filter.mp hnext).1
    exact next_mem_schedule hstep hnext
  · have htrue := Option.mem_toList.mp (List.mem_filter.mp htrue).1
    have hbranch := (h.sound_of_mem_steps hstep).branch (Option.isSome_iff_exists.mpr ⟨id, htrue⟩)
    exact onTrue_mem_schedule hstep hbranch htrue

/-- The number of a label is that of its place among those that need one. -/
theorem label?_eq_some_iff {id : InstId} {number : Nat} :
    (Context.of constants base routine).label? id = some number ↔
      id ∈ routine.labelled ∧ base + routine.labelled.idxOf id = number := by
  rw [Context.label?]
  change (if id ∈ routine.labelled then some (base + routine.labelled.idxOf id) else none) = _ ↔ _
  split
  · next hmem => simp [hmem]
  · next hmem => simp [hmem]

/-- The labels that are needed have the numbers from `base` on. -/
theorem exists_label?_eq_some_iff (constants : List Constant) (base : Nat) (routine : Routine)
    {number : Nat} :
    (∃ id ∈ routine.labelled, (Context.of constants base routine).label? id = some number) ↔
      base ≤ number ∧ number < base + routine.labelled.length := by
  constructor
  · rintro ⟨id, hid, hlabel⟩
    obtain ⟨-, rfl⟩ := label?_eq_some_iff.mp hlabel
    have hlt := List.idxOf_lt_length_of_mem hid
    omega
  · rintro ⟨hle, hlt⟩
    have hplace : number - base < routine.labelled.length := by omega
    refine ⟨routine.labelled[number - base], List.getElem_mem hplace, ?_⟩
    have hnodup : routine.labelled.Nodup := nodup_firstUses _
    refine label?_eq_some_iff.mpr ⟨List.getElem_mem hplace, ?_⟩
    rw [hnodup.idxOf_getElem (number - base) hplace]
    omega

/-- A valid routine defines the numbers from `base` on, each once. -/
theorem labels_routineCode (h : routine.Valid constants) (base : Nat) :
    (labels (routineCode constants base routine).lines).Perm
      (List.range' base routine.labelled.length) := by
  have hlabels : labels (routineCode constants base routine).lines =
      routine.schedule.filterMap (Context.of constants base routine).label? := by
    rw [lines_routineCode h base, labels_append, labels_prologue, List.nil_append, labels,
      List.filterMap_flatMap, ← h.map_id_steps, List.filterMap_map,
      List.filterMap_eq_flatMap_toList]
    exact List.flatMap_congr fun step _ => labels_stepLines
  rw [hlabels, List.perm_ext_iff_of_nodup _ List.nodup_range']
  · intro number
    rw [List.mem_filterMap, List.mem_range'_1, ← exists_label?_eq_some_iff constants]
    constructor
    · rintro ⟨id, -, hlabel⟩
      exact ⟨id, (label?_eq_some_iff.mp hlabel).1, hlabel⟩
    · rintro ⟨id, hid, hlabel⟩
      exact ⟨id, mem_schedule_of_mem_labelled h hid, hlabel⟩
  · refine List.Nodup.filterMap (fun id other number hid hother => ?_) routine.nodup_schedule
    exact Context.label?_inj hid hother

/-- A valid routine branches to the numbers that it defines. -/
theorem mem_targets_routineCode (h : routine.Valid constants) {number : Nat} :
    number ∈ targets (routineCode constants base routine).lines ↔
      number ∈ labels (routineCode constants base routine).lines := by
  have htargets : ∀ step ∈ routine.steps,
      targets (stepLines (Context.of constants base routine) step) =
        (step.inst.branchTargets step.following).filterMap
          (Context.of constants base routine).label? :=
    fun step hstep => targets_stepLines hstep (h.sound_of_mem_steps hstep)
  rw [(labels_routineCode h base).mem_iff, List.mem_range'_1, ← exists_label?_eq_some_iff constants,
    lines_routineCode h base, targets_append, targets_prologue, List.nil_append, targets,
    List.filterMap_flatMap, List.mem_flatMap]
  constructor
  · rintro ⟨step, hstep, hmem⟩
    have hmem : number ∈ targets (stepLines (Context.of constants base routine) step) := hmem
    rw [htargets step hstep] at hmem
    obtain ⟨id, -, hlabel⟩ := List.mem_filterMap.mp hmem
    exact ⟨id, (label?_eq_some_iff.mp hlabel).1, hlabel⟩
  · rintro ⟨id, hid, hlabel⟩
    obtain ⟨step, hstep, hmem⟩ := List.mem_flatMap.mp (mem_firstUses.mp hid)
    refine ⟨step, hstep, ?_⟩
    change number ∈ targets (stepLines (Context.of constants base routine) step)
    rw [htargets step hstep]
    exact List.mem_filterMap.mpr ⟨id, hmem, hlabel⟩

end

/-! ## Programs

What is written of a program, in lines that are not yet text. It can be less than everything, if the
sink refuses a line or a global is too large. -/

/-- Routines with the numbers of their first labels. -/
def numbered (nextLabel : Nat) : List Routine → List (Nat × Routine)
  | [] => []
  | routine :: rest => (nextLabel, routine) :: numbered (nextLabel + routine.labelled.length) rest

/-- Numbering adds numbers and nothing else. -/
theorem map_snd_numbered (nextLabel : Nat) (routines : List Routine) :
    (numbered nextLabel routines).map Prod.snd = routines := by
  induction routines generalizing nextLabel with
  | nil => rfl
  | cons routine rest ih => rw [numbered, List.map_cons, ih]

/-- The sections of routines, by the numbers of their first labels. -/
theorem routineSections_eq (constants : List Constant) (nextLabel : Nat) (routines : List Routine) :
    routineSections constants nextLabel routines =
      (numbered nextLabel routines).map fun (base, routine) =>
        { fragment := routineCode constants base routine
          nextLabel := base + routine.labelled.length } := by
  induction routines generalizing nextLabel with
  | nil => rfl
  | cons routine rest ih => rw [routineSections, numbered, List.map_cons, ih]

/-- The lines of a program, if all of them are written. -/
def code (program : Program) (nextLabel : Nat) : List Line :=
  (sections program nextLabel).flatMap (·.fragment.lines)

/-- The lines that are written of a program. -/
def written (program : Program) (nextLabel : Nat) (room : Room) : List Line :=
  (code program nextLabel).take (emit program nextLabel room).lines.length

/-- A sink takes a beginning of what it is given. -/
theorem Room.lines_deliver_prefix (room : Room) (lines : List String) :
    (room.deliver lines).lines <+: lines := by
  induction lines generalizing room with
  | nil => exact List.nil_prefix
  | cons line more ih =>
    rw [Room.deliver]
    split
    · exact List.nil_prefix
    · exact List.cons_prefix_cons.mpr ⟨rfl, ih _⟩

/-- What is not refused is taken whole. -/
theorem Room.deliver_of_ok {room left : Room} {lines : List String}
    (h : (room.deliver lines).rest = .ok left) :
    room.deliver lines = { lines, rest := .ok left } := by
  induction lines generalizing room with
  | nil =>
    obtain rfl := Except.ok.inj h
    rfl
  | cons line more ih =>
    rw [Room.deliver] at h ⊢
    split at h
    · cases h
    · simp only [ih h]

/-- If it refuses nothing, it takes everything. -/
theorem Room.lines_deliver_of_ok {room left : Room} {lines : List String}
    (h : (room.deliver lines).rest = .ok left) : (room.deliver lines).lines = lines :=
  congrArg Delivery.lines (Room.deliver_of_ok h)

/-- What is written is the beginning of what there is to write. -/
theorem lines_writeSections_prefix (room : Room) (nextLabel : Nat) (parts : List Section) :
    (writeSections room nextLabel parts).lines <+:
      (parts.flatMap (·.fragment.lines)).map Line.text := by
  induction parts generalizing room nextLabel with
  | nil => exact List.nil_prefix
  | cons first rest ih =>
    rw [writeSections, List.flatMap_cons, List.map_append]
    have hfirst := room.lines_deliver_prefix (first.fragment.lines.map Line.text)
    split
    · exact hfirst.trans (List.prefix_append _ _)
    · next left hleft =>
      split
      · exact hfirst.trans (List.prefix_append _ _)
      · rw [Room.lines_deliver_of_ok hleft]
        exact (List.prefix_append_right_inj _).mpr (ih left first.nextLabel)

/-- The lines that are written have the text that the sink gets. -/
theorem map_text_written (program : Program) (nextLabel : Nat) (room : Room) :
    (written program nextLabel room).map Line.text = (emit program nextLabel room).lines := by
  have hprefix := lines_writeSections_prefix room nextLabel (sections program nextLabel)
  rw [written, List.map_take]
  exact (List.prefix_iff_eq_take.mp hprefix).symm

/-- If writing does not end early, everything is written. -/
theorem lines_writeSections_of_halt {room : Room} {nextLabel : Nat} {parts : List Section}
    (h : (writeSections room nextLabel parts).halt = none) :
    (writeSections room nextLabel parts).lines =
      (parts.flatMap (·.fragment.lines)).map Line.text := by
  induction parts generalizing room nextLabel with
  | nil => rfl
  | cons first rest ih =>
    rw [writeSections] at h ⊢
    rw [List.flatMap_cons, List.map_append]
    split at h
    · cases h
    · next left hleft =>
      split at h
      · cases h
      · rw [← ih h, Room.lines_deliver_of_ok hleft]

/-! ## Sections in a row

An interval of numbers for each section. -/

/-- Lines define some of the numbers from `first` up to `last`, none of them twice. -/
structure Defines (first last : Nat) (lines : List Line) : Prop where
  le : first ≤ last
  nodup : (labels lines).Nodup
  ge : ∀ number ∈ labels lines, first ≤ number
  lt : ∀ number ∈ labels lines, number < last

namespace Defines

variable {first mid last : Nat} {lines more : List Line}

/-- Lines without labels use up no numbers. -/
theorem of_labels_eq_nil (h : labels lines = []) (first : Nat) : Defines first first lines := by
  refine ⟨Nat.le_refl _, ?_, ?_, ?_⟩
  all_goals rw [h]
  · exact List.nodup_nil
  · exact fun _ hnumber => (List.not_mem_nil hnumber).elim
  · exact fun _ hnumber => (List.not_mem_nil hnumber).elim

/-- Numbers go on from where they left off. -/
theorem append (h : Defines first mid lines) (h' : Defines mid last more) :
    Defines first last (lines ++ more) where
  le := Nat.le_trans h.le h'.le
  nodup := by
    rw [labels_append, List.nodup_append]
    refine ⟨h.nodup, h'.nodup, fun number hnumber other hother hsame => ?_⟩
    have hlt := h.lt number hnumber
    have hge := h'.ge other hother
    omega
  ge number hnumber := by
    rw [labels_append, List.mem_append] at hnumber
    rcases hnumber with hnumber | hnumber
    · exact h.ge number hnumber
    · exact Nat.le_trans h.le (h'.ge number hnumber)
  lt number hnumber := by
    rw [labels_append, List.mem_append] at hnumber
    rcases hnumber with hnumber | hnumber
    · exact Nat.lt_of_lt_of_le (h.lt number hnumber) h'.le
    · exact h'.lt number hnumber

/-- A beginning of the lines defines no more than all of them. -/
theorem take (h : Defines first last lines) (count : Nat) :
    Defines first last (lines.take count) := by
  have hsub : (labels (lines.take count)).Sublist (labels lines) :=
    (List.take_sublist count lines).filterMap _
  exact ⟨h.le, h.nodup.sublist hsub, fun number hnumber => h.ge number (hsub.mem hnumber),
    fun number hnumber => h.lt number (hsub.mem hnumber)⟩

end Defines

/-- Each section goes on with the numbers where the one before it left off. -/
def Consecutive : Nat → List Section → Prop
  | _, [] => True
  | nextLabel, part :: rest =>
    Defines nextLabel part.nextLabel part.fragment.lines ∧ Consecutive part.nextLabel rest

/-- What is written of sections in a row goes on from their first number to the one to go on with,
also if it ends early. -/
theorem Consecutive.defines {nextLabel : Nat} {parts : List Section}
    (h : Consecutive nextLabel parts) (room : Room) :
    Defines nextLabel (writeSections room nextLabel parts).nextLabel
      ((parts.flatMap (·.fragment.lines)).take
        (writeSections room nextLabel parts).lines.length) := by
  induction parts generalizing room nextLabel with
  | nil => exact .of_labels_eq_nil rfl nextLabel
  | cons first rest ih =>
    obtain ⟨hfirst, hrest⟩ := h
    have hle := (room.lines_deliver_prefix (first.fragment.lines.map Line.text)).length_le
    rw [List.length_map] at hle
    rw [writeSections, List.flatMap_cons]
    split
    · -- the sink refused a line of the first section
      rw [List.take_append_of_le_length hle]
      exact hfirst.take _
    · next left hleft =>
      have hlength : (room.deliver (first.fragment.lines.map Line.text)).lines.length =
          first.fragment.lines.length := by
        rw [Room.lines_deliver_of_ok hleft, List.length_map]
      split
      · rw [List.take_append_of_le_length hle]
        exact hfirst.take _
      · rw [List.length_append, hlength, List.take_length_add_append]
        exact hfirst.append (ih hrest left)

/-- A valid routine uses as many numbers as there are places that need a label. -/
theorem defines_routineCode {constants : List Constant} {routine : Routine}
    (h : routine.Valid constants) (base : Nat) :
    Defines base (base + routine.labelled.length) (routineCode constants base routine).lines := by
  have hperm := labels_routineCode h base
  have hrange : ∀ number ∈ labels (routineCode constants base routine).lines,
      base ≤ number ∧ number < base + routine.labelled.length :=
    fun number hnumber => List.mem_range'_1.mp (hperm.mem_iff.mp hnumber)
  exact ⟨Nat.le_add_right _ _, hperm.nodup_iff.mpr List.nodup_range',
    fun number hnumber => (hrange number hnumber).1, fun number hnumber =>
      (hrange number hnumber).2⟩

/-- Room for globals is reserved by lines without labels, whether or not all of them fit. -/
theorem labels_globals (globals : List GlobalDecl) :
    labels (Fragment.join (globals.map globalCode)).lines = [] := by
  induction globals with
  | nil => rfl
  | cons global rest ih =>
    rw [List.map_cons, Fragment.join, globalCode]
    split
    · rw [Fragment.lines_append _ rfl, labels_append, ih]
      rfl
    · rw [Fragment.append_eq_of_halt rfl]
      rfl

/-- The sections of valid routines follow each other. -/
theorem consecutive_routineSections {constants : List Constant} {routines : List Routine}
    (h : ∀ routine ∈ routines, routine.Valid constants) (nextLabel : Nat) :
    Consecutive nextLabel (routineSections constants nextLabel routines) := by
  induction routines generalizing nextLabel with
  | nil => exact trivial
  | cons routine rest ih =>
    rw [List.forall_mem_cons] at h
    exact ⟨defines_routineCode h.1 nextLabel, ih h.2 _⟩

/-- All routines of a valid program are valid. -/
theorem valid_of_violation? {program : Program} (h : program.violation? = none) :
    ∀ routine ∈ program.routines, routine.Valid program.constants :=
  fun routine hroutine =>
    Routine.valid_of_violation? (List.findSome?_eq_none_iff.mp h routine hroutine)

/-- The sections of a valid program follow each other, the one for the globals included. -/
theorem consecutive_sections {program : Program} (h : program.violation? = none) (nextLabel : Nat) :
    Consecutive nextLabel (sections program nextLabel) :=
  ⟨.of_labels_eq_nil (labels_globals program.globals) nextLabel,
    consecutive_routineSections (valid_of_violation? h) nextLabel⟩

/-! ## Programs in a row

One counter goes through all programs that are written with one compiler. A program that ends early
leaves it where it got to. -/

/-- Writes programs one after the other, each to its own sink. Labels are numbered on. -/
def emitAll (nextLabel : Nat) : List (Program × Room) → List Emission
  | [] => []
  | (program, room) :: rest =>
    let emission := emit program nextLabel room
    emission :: emitAll emission.nextLabel rest

/-- The lines that are written of programs one after the other. -/
def writtenAll (nextLabel : Nat) : List (Program × Room) → List Line
  | [] => []
  | (program, room) :: rest =>
    written program nextLabel room ++ writtenAll (emit program nextLabel room).nextLabel rest

/-- The lines that are written have the text that the sinks get. -/
theorem map_text_writtenAll (nextLabel : Nat) (jobs : List (Program × Room)) :
    (writtenAll nextLabel jobs).map Line.text = (emitAll nextLabel jobs).flatMap (·.lines) := by
  induction jobs generalizing nextLabel with
  | nil => rfl
  | cons job rest ih =>
    rw [writtenAll, emitAll, List.map_append, map_text_written, ih, List.flatMap_cons]

/-- Valid programs that are written one after the other define no number twice. -/
theorem nodup_labels_writtenAll {jobs : List (Program × Room)}
    (h : ∀ job ∈ jobs, job.1.violation? = none) (nextLabel : Nat) :
    ∃ last, Defines nextLabel last (writtenAll nextLabel jobs) := by
  induction jobs generalizing nextLabel with
  | nil => exact ⟨nextLabel, .of_labels_eq_nil rfl nextLabel⟩
  | cons job rest ih =>
    rw [List.forall_mem_cons] at h
    have hfirst := (consecutive_sections h.1 nextLabel).defines job.2
    obtain ⟨last, hrest⟩ := ih h.2 (emit job.1 nextLabel job.2).nextLabel
    exact ⟨last, hfirst.append hrest⟩

end WordLang.Asm
