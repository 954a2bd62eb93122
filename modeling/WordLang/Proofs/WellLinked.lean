import WordLang.Proofs.Asm.Reading
import WordLang.Proofs.Asm.Sufficiency
import WordLang.Proofs.Resolution.Spelling

/-!
# Well-linked assembly

In the text of a compiled tree every name that is defined or reserved is so once, and none is taken
from the run-time library; every branch leads to a place in the function it is in; every place
inside of a function is led to, and their numbers are the first ones (`Asm.WellLinked`). This is
said of the text as a reader finds it, so it asks that the names of the tree have no characters with
a meaning in assembly.

Names of functions and variables come from the tree, where resolution keeps them apart. Names of
places are made while routines are written; there is one counter for all of them, and also for
several programs one after the other, which then define no number twice whatever else they may
define.

The proof goes in three steps, and none of them looks into more than it has to:

* a routine in lines: it begins with its name, and everything after that stands inside of it. Which
  numbers it defines and branches to is known already;
* a program in text: if it is *linkable*, its names can be read and told apart, then its text is
  read as its lines were meant, and the property follows from lists of names and numbers
  (`Linkable.wellLinked`);
* a tree: one that compiles has a linkable program (`Tree.linkable_of_lower`). Its functions and
  globals are named like its top declarations, no two of which have the same name.
-/

namespace WordLang

namespace Asm

/-- What a linker wants of a text. -/
structure WellLinked (text : List String) : Prop where
  /-- no line is more than one -/
  lines : ∀ line ∈ text, OneLine line
  /-- no name stands for two things -/
  distinct : (definitions text ++ commons text).Nodup
  /-- nor for something of the run-time library as well -/
  unreserved : ∀ name ∈ definitions text ++ commons text, name ∉ builtins.map Prod.fst
  /-- the text of a function begins with its name, and after that it defines only places inside of
  it -/
  functions : ∀ part ∈ functionTexts text, ∃ name rest,
    part = ("    .globl " ++ name) :: (name ++ ":") :: rest ∧
      ∀ other ∈ definitions rest, isLocal other = true
  /-- every branch is in a function -/
  enclosed : branches text = (functionTexts text).flatMap branches
  /-- and leads to the only place with that name, in the same function -/
  defined : ∀ part ∈ functionTexts text, ∀ name ∈ branches part,
    (definitions text).count name = 1 ∧ name ∈ definitions part
  /-- every place inside of a function is led to -/
  used : ∀ name ∈ definitions text, isLocal name = true → name ∈ branches text
  /-- and these places have the first numbers -/
  numbered : ∃ count, ((definitions text).filter isLocal).Perm ((List.range count).map labelText)

/-! ## Routines

The shape of a routine in lines: two lines for its name, and then instructions and labels. So
looking for anything else in it finds only its name. -/

/-- Whether a line can stand inside of a function. -/
def Line.isInside : Line → Bool
  | .label _ => true
  | .instr _ => true
  | _ => false

/-- A line inside of a function is a label or an instruction. -/
@[elab_as_elim]
theorem Line.isInside_elim {motive : Line → Prop} (label : ∀ number, motive (.label number))
    (instr : ∀ i, motive (.instr i)) {line : Line} (h : line.isInside = true) : motive line := by
  cases line with
  | label number => exact label number
  | instr i => exact instr i
  | _ => cases h

/-- The lines of a plain fragment are instructions. -/
theorem isInside_of_plain {fragment : Fragment} (h : fragment.Plain) :
    ∀ line ∈ fragment.lines, line.isInside = true := by
  obtain ⟨code, hcode⟩ := h
  rw [hcode]
  exact List.forall_mem_map.mpr fun _ _ => rfl

/-- The lines of a step stand inside of a function. -/
theorem isInside_stepLines (ctx : Context) (step : Routine.Step) :
    ∀ line ∈ stepLines ctx step, line.isInside = true := by
  rw [stepLines, List.forall_mem_append, List.forall_mem_append]
  exact ⟨List.forall_mem_map.mpr fun _ _ => rfl,
    isInside_of_plain (plain_instCode ctx step.inst.kind),
    isInside_of_plain (plain_exitCode ctx step)⟩

section

variable {constants : List Constant} {routine : Routine}

/-- The assembly of a routine begins with its name, and has only instructions and labels after that.
-/
theorem routineCode_eq_cons (h : routine.Valid constants) (base : Nat) :
    ∃ body, (routineCode constants base routine).lines =
        .exported routine.name :: .entry routine.name :: body ∧
      ∀ line ∈ body, line.isInside = true := by
  rw [lines_routineCode h base, prologue]
  refine ⟨_, rfl, List.forall_mem_cons.mpr ⟨rfl, ?_⟩⟩
  refine List.forall_mem_append.mpr ⟨List.forall_mem_map.mpr fun _ _ => rfl, ?_⟩
  refine List.forall_mem_flatMap.mpr fun step _ => ?_
  exact isInside_stepLines _ step

/-- What no line inside of a function has can only be in the two lines with its name. -/
theorem filterMap_routineCode {β : Type} (h : routine.Valid constants) (base : Nat)
    {f : Line → Option β} (hf : ∀ line, line.isInside = true → f line = none) :
    (routineCode constants base routine).lines.filterMap f =
      (f (.exported routine.name)).toList ++ (f (.entry routine.name)).toList := by
  obtain ⟨body, hlines, hbody⟩ := routineCode_eq_cons h base
  have hnone : body.filterMap f = [] :=
    List.filterMap_eq_nil_iff.mpr fun line hline => hf line (hbody line hline)
  rw [hlines, List.filterMap_cons, List.filterMap_cons, hnone]
  cases f (.exported routine.name) <;> cases f (.entry routine.name) <;> rfl

end

/-! ## Programs

All lines of a program that can be written, routine by routine. -/

/-- The routine of an entry, with its labels numbered as the entry says. -/
def entryLines (constants : List Constant) (entry : Nat × Routine) : List Line :=
  (routineCode constants entry.1 entry.2).lines

/-- The lines that reserve room for globals. -/
def commonLines (globals : List GlobalDecl) : List Line :=
  globals.map fun global => .common global.symbol.name (global.elements.toNat * wordSize)

/-- If no global is too large, there is a line for each of them. -/
theorem lines_globals {globals : List GlobalDecl}
    (h : (Fragment.join (globals.map globalCode)).halt = none) :
    (Fragment.join (globals.map globalCode)).lines = commonLines globals := by
  rw [Fragment.halt_join, List.findSome?_eq_none_iff] at h
  rw [Fragment.lines_join h, commonLines, List.flatMap_map, List.map_eq_flatMap]
  refine List.flatMap_congr fun global hglobal => ?_
  have hhalt := h _ (List.mem_map_of_mem hglobal)
  rw [halt_globalCode] at hhalt
  rw [globalCode]
  split at hhalt
  · next hsize => rw [if_pos hsize]; rfl
  · cases hhalt

/-- If writing does not end early, then neither does the first section. -/
theorem halt_of_writeSections {room : Room} {nextLabel : Nat} {first : Section}
    {rest : List Section} (h : (writeSections room nextLabel (first :: rest)).halt = none) :
    first.fragment.halt = none := by
  rw [writeSections] at h
  split at h
  · cases h
  · split at h
    · cases h
    · assumption

/-- If all globals have a size, then the lines of a program are those of its globals and its
routines. -/
theorem code_eq {program : Program}
    (h : (Fragment.join (program.globals.map globalCode)).halt = none) (nextLabel : Nat) :
    code program nextLabel =
      commonLines program.globals ++
        (numbered nextLabel program.routines).flatMap (entryLines program.constants) := by
  rw [code, sections, List.flatMap_cons, lines_globals h, routineSections_eq, List.flatMap_map]
  rfl

section

variable {constants : List Constant} {routines : List Routine}

/-- Numbered routines are routines. -/
theorem mem_of_mem_numbered {nextLabel : Nat} {entry : Nat × Routine}
    (h : entry ∈ numbered nextLabel routines) : entry.2 ∈ routines := by
  rw [← map_snd_numbered nextLabel routines]
  exact List.mem_map_of_mem h

/-- Valid routines one after the other define the numbers from the first one on. -/
theorem labels_numbered (h : ∀ routine ∈ routines, routine.Valid constants) (nextLabel : Nat) :
    ∃ count, (labels ((numbered nextLabel routines).flatMap (entryLines constants))).Perm
      (List.range' nextLabel count) := by
  induction routines generalizing nextLabel with
  | nil => exact ⟨0, .refl _⟩
  | cons routine rest ih =>
    rw [List.forall_mem_cons] at h
    obtain ⟨count, hrest⟩ := ih h.2 (nextLabel + routine.labelled.length)
    refine ⟨routine.labelled.length + count, ?_⟩
    rw [numbered, List.flatMap_cons, labels_append, ← List.range'_append_1]
    exact (labels_routineCode h.1 nextLabel).append hrest

/-- Globals define no numbers. -/
theorem labels_commonLines (globals : List GlobalDecl) : labels (commonLines globals) = [] :=
  List.filterMap_eq_nil_iff.mpr (List.forall_mem_map.mpr fun _ _ => rfl)

/-- Globals do not branch. -/
theorem targets_commonLines (globals : List GlobalDecl) : targets (commonLines globals) = [] :=
  List.filterMap_eq_nil_iff.mpr (List.forall_mem_map.mpr fun _ _ => rfl)

end

/-! ## Programs that can be linked

What is asked of a program so that its text is well linked. All of it can be seen without writing
the text. -/

/-- A valid program that can be written. Its names have no characters with a meaning, and what it
defines is told apart by name, also from what the run-time library defines. -/
structure Linkable (program : Program) : Prop where
  valid : program.violation? = none
  sized : (Fragment.join (program.globals.map globalCode)).halt = none
  globals : ∀ global ∈ program.globals, isName global.symbol.name = true
  routines : ∀ routine ∈ program.routines, isName routine.name = true
  references : ∀ reference ∈ program.references, isName reference.target.name = true
  distinct : (builtins.map Prod.fst ++
    (program.routines.map (·.name) ++ program.globals.map (·.symbol.name))).Nodup

/-- The text of a program, if all of it is written. -/
def textOf (program : Program) (nextLabel : Nat) : List String :=
  (code program nextLabel).map Line.text

/-- What is written without an early end is the whole text. -/
theorem lines_emit {program : Program} {nextLabel : Nat} {room : Room}
    (h : (emit program nextLabel room).halt = none) :
    (emit program nextLabel room).lines = textOf program nextLabel :=
  lines_writeSections_of_halt h

namespace Linkable

variable {program : Program} {nextLabel : Nat} {entry : Nat × Routine}

/-- The routines of a program that can be linked are valid. -/
theorem valid_of_mem (h : Linkable program) (hentry : entry ∈ numbered nextLabel program.routines) :
    entry.2.Valid program.constants :=
  valid_of_violation? h.valid _ (mem_of_mem_numbered hentry)

/-- The lines for globals can be read. -/
theorem legible_commonLines (h : Linkable program) :
    ∀ line ∈ commonLines program.globals, line.Legible :=
  List.forall_mem_map.mpr fun global hglobal =>
    List.forall_mem_singleton.mpr (h.globals global hglobal)

/-- So can the lines of a routine. -/
theorem legible_entryLines (h : Linkable program)
    (hentry : entry ∈ numbered nextLabel program.routines) :
    ∀ line ∈ entryLines program.constants entry, line.Legible := by
  have hvalid := h.valid_of_mem hentry
  have hmem := mem_of_mem_numbered hentry
  have hself : ∀ name ∈ [entry.2.name], isName name = true :=
    List.forall_mem_singleton.mpr (h.routines entry.2 hmem)
  obtain ⟨body, hlines, hbody⟩ := routineCode_eq_cons hvalid entry.1
  have hrest : ∀ line ∈ body, line.Legible := by
    intro line hline name hname
    cases line with
    | label number => cases hname
    | instr i =>
      obtain ⟨reference, hreference, rfl⟩ := List.mem_map.mp hname
      have htext :
        reference ∈ Asm.references (routineCode program.constants entry.1 entry.2).lines := by
        rw [hlines]
        exact List.mem_flatMap.mpr ⟨_, List.mem_cons_of_mem _ (List.mem_cons_of_mem _ hline),
          hreference⟩
      obtain ⟨source, hsource, rfl⟩ := mem_references_of_text hvalid htext
      have hname := h.references source (List.mem_flatMap.mpr ⟨entry.2, hmem, hsource⟩)
      cases source <;> exact hname
    | _ => cases hbody _ hline
  rw [entryLines, hlines, List.forall_mem_cons, List.forall_mem_cons]
  exact ⟨hself, hself, hrest⟩

/-- So can all lines of the program. -/
theorem legible_code (h : Linkable program) (nextLabel : Nat) :
    ∀ line ∈ code program nextLabel, line.Legible := by
  rw [code_eq h.sized, List.forall_mem_append, List.forall_mem_flatMap]
  exact ⟨h.legible_commonLines, fun _ hentry => h.legible_entryLines hentry⟩

/-! ## Names in the text

What the text defines and reserves, listed: labels, routines, globals. -/

/-- Outside of functions there are only the globals, and the names that functions begin with. -/
theorem filterMap_code {β : Type} (h : Linkable program) (nextLabel : Nat) {f : Line → Option β}
    (hf : ∀ line, line.isInside = true → f line = none) :
    (code program nextLabel).filterMap f =
      (commonLines program.globals).filterMap f ++ program.routines.flatMap fun routine =>
        (f (.exported routine.name)).toList ++ (f (.entry routine.name)).toList := by
  have hentries : ∀ entry ∈ numbered nextLabel program.routines,
      (entryLines program.constants entry).filterMap f =
        (f (.exported entry.2.name)).toList ++ (f (.entry entry.2.name)).toList :=
    fun entry hentry => filterMap_routineCode (h.valid_of_mem hentry) entry.1 hf
  rw [code_eq h.sized, List.filterMap_append, List.filterMap_flatMap, List.flatMap_congr hentries]
  nth_rewrite 2 [← map_snd_numbered nextLabel program.routines]
  rw [List.flatMap_map]

/-- The functions of the text are the routines. -/
theorem filter_definitions (h : Linkable program) (nextLabel : Nat) :
    (definitions (textOf program nextLabel)).filter (! isLocal ·) =
      program.routines.map (·.name) := by
  have hinside : ∀ line : Line, line.isInside = true → line.entry? = none :=
    fun _ hline => Line.isInside_elim (fun _ => rfl) (fun _ => rfl) hline
  have hcommons : (commonLines program.globals).filterMap Line.entry? = [] :=
    List.filterMap_eq_nil_iff.mpr (List.forall_mem_map.mpr fun _ _ => rfl)
  rw [textOf, functions_text (h.legible_code nextLabel),
    h.filterMap_code nextLabel hinside, hcommons, List.nil_append, List.map_eq_flatMap]
  rfl

/-- What the text reserves room for are the globals. -/
theorem commons_eq (h : Linkable program) (nextLabel : Nat) :
    commons (textOf program nextLabel) = program.globals.map (·.symbol.name) := by
  have hinside : ∀ line : Line, line.isInside = true → line.common? = none :=
    fun _ hline => Line.isInside_elim (fun _ => rfl) (fun _ => rfl) hline
  have hroutines : (program.routines.flatMap fun routine =>
      (Line.common? (.exported routine.name)).toList ++
        (Line.common? (.entry routine.name)).toList) = [] :=
    List.flatMap_eq_nil_iff.mpr fun _ _ => rfl
  rw [textOf, commons_text (h.legible_code nextLabel),
    h.filterMap_code nextLabel hinside, hroutines, List.append_nil, commonLines, List.filterMap_map]
  exact congrFun List.filterMap_eq_map program.globals

/-- The places inside of functions have the numbers from the first one on. -/
theorem perm_locals (h : Linkable program) (nextLabel : Nat) :
    ∃ count, ((definitions (textOf program nextLabel)).filter isLocal).Perm
      ((List.range' nextLabel count).map labelText) := by
  obtain ⟨count, hcount⟩ := labels_numbered (valid_of_violation? h.valid) nextLabel
  refine ⟨count, ?_⟩
  rw [textOf, locals_text (h.legible_code nextLabel), code_eq h.sized, labels_append,
    labels_commonLines, List.nil_append]
  exact hcount.map labelText

/-- What the text defines and reserves are its labels, the routines and the globals. -/
theorem perm_names (h : Linkable program) (nextLabel : Nat) :
    (definitions (textOf program nextLabel) ++ commons (textOf program nextLabel)).Perm
      ((definitions (textOf program nextLabel)).filter isLocal ++
        (program.routines.map (·.name) ++ program.globals.map (·.symbol.name))) := by
  rw [← h.filter_definitions nextLabel, ← h.commons_eq nextLabel, ← List.append_assoc]
  exact (List.filter_append_perm isLocal _).symm.append_right _

/-- No function and no global is named like a place inside of a function. -/
theorem isLocal_eq_false (h : Linkable program) :
    ∀ name ∈ program.routines.map (·.name) ++ program.globals.map (·.symbol.name),
      isLocal name = false := by
  rw [List.forall_mem_append, List.forall_mem_map, List.forall_mem_map]
  exact ⟨fun routine hroutine => isLocal_of_isName (h.routines routine hroutine),
    fun global hglobal => isLocal_of_isName (h.globals global hglobal)⟩

/-- No name is defined or reserved twice. -/
theorem nodup_names (h : Linkable program) (nextLabel : Nat) :
    (definitions (textOf program nextLabel) ++ commons (textOf program nextLabel)).Nodup := by
  obtain ⟨count, hlocals⟩ := h.perm_locals nextLabel
  have hlabels : ((List.range' nextLabel count).map labelText).Nodup :=
    List.Nodup.map labelText_injective List.nodup_range'
  rw [(h.perm_names nextLabel).nodup_iff, List.nodup_append]
  refine ⟨hlocals.nodup_iff.mpr hlabels, (List.nodup_append.mp h.distinct).2.1, ?_⟩
  -- the names of labels are local and no others are
  intro name hname other hother hsame
  have hlocal := (List.mem_filter.mp hname).2
  rw [hsame, h.isLocal_eq_false other hother] at hlocal
  cases hlocal

/-- None of them is that of a run-time function. A place inside of a function never is, as its name
begins with a dot. -/
theorem not_mem_builtins (h : Linkable program) :
    ∀ name ∈ definitions (textOf program nextLabel) ++ commons (textOf program nextLabel),
      name ∉ builtins.map Prod.fst := by
  have hruntime : ∀ name ∈ builtins.map Prod.fst, isLocal name = false := by decide
  intro name hname hbuiltin
  rw [(h.perm_names nextLabel).mem_iff, List.mem_append] at hname
  rcases hname with hname | hname
  · have hlocal := (List.mem_filter.mp hname).2
    rw [hruntime name hbuiltin] at hlocal
    cases hlocal
  · exact (List.nodup_append.mp h.distinct).2.2 name hbuiltin name hname rfl

/-! ## Branches in the text

The text falls into the texts of its functions. A branch is in one of them, and leads to a label of
the same routine. -/

/-- The texts of the functions are those of the routines. -/
theorem functionTexts_eq (h : Linkable program) (nextLabel : Nat) :
    functionTexts (textOf program nextLabel) =
      (numbered nextLabel program.routines).map fun entry =>
        (entryLines program.constants entry).map Line.text := by
  have hglobals :
    ∀ line ∈ (commonLines program.globals).map Line.text, opensFunction line = false := by
    refine List.forall_mem_map.mpr fun line hline => ?_
    rw [opensFunction_text (h.legible_commonLines line hline)]
    obtain ⟨global, -, rfl⟩ := List.mem_map.mp hline
    rfl
  rw [textOf, code_eq h.sized, List.map_append, List.map_flatMap, functionTexts,
    parts_append_of_forall hglobals]
  refine parts_flatMap fun entry hentry => ?_
  have hlegible := h.legible_entryLines hentry
  obtain ⟨body, hlines, hbody⟩ := routineCode_eq_cons (h.valid_of_mem hentry) entry.1
  rw [entryLines, hlines] at hlegible ⊢
  rw [List.forall_mem_cons, List.forall_mem_cons] at hlegible
  refine ⟨_, _, rfl, opensFunction_text hlegible.1, ?_⟩
  refine List.forall_mem_cons.mpr ⟨opensFunction_text hlegible.2.1, ?_⟩
  refine List.forall_mem_map.mpr fun line hline => ?_
  rw [opensFunction_text (hlegible.2.2 line hline)]
  exact Line.isInside_elim (fun _ => rfl) (fun _ => rfl) (hbody line hline)

/-- The text of a function begins with its name, and defines only places inside of it after that. -/
theorem exists_name (h : Linkable program) {part : List String}
    (hpart : part ∈ functionTexts (textOf program nextLabel)) :
    ∃ name rest, part = ("    .globl " ++ name) :: (name ++ ":") :: rest ∧
      ∀ other ∈ definitions rest, isLocal other = true := by
  rw [h.functionTexts_eq nextLabel] at hpart
  obtain ⟨entry, hentry, rfl⟩ := List.mem_map.mp hpart
  have hlegible := h.legible_entryLines hentry
  obtain ⟨body, hlines, hbody⟩ := routineCode_eq_cons (h.valid_of_mem hentry) entry.1
  rw [entryLines, hlines] at hlegible ⊢
  rw [List.forall_mem_cons, List.forall_mem_cons] at hlegible
  refine ⟨entry.2.name, body.map Line.text, rfl, fun other hother => ?_⟩
  rw [definitions_text hlegible.2.2] at hother
  obtain ⟨line, hline, hother⟩ := List.mem_filterMap.mp hother
  have hinside := hbody line hline
  cases line with
  | label number =>
    obtain rfl := Option.some.inj hother
    exact isLocal_labelText number
  | instr i => cases hother
  | _ => cases hinside

/-- Every branch is in the text of a function. -/
theorem branches_eq (h : Linkable program) (nextLabel : Nat) :
    branches (textOf program nextLabel) =
      (functionTexts (textOf program nextLabel)).flatMap branches := by
  have hcommons : branches ((commonLines program.globals).map Line.text) = [] := by
    rw [branches_text h.legible_commonLines, targets_commonLines]
    rfl
  rw [h.functionTexts_eq nextLabel, textOf, code_eq h.sized, List.map_append, List.map_flatMap,
    List.flatMap_map]
  rw [branches] at hcommons ⊢
  rw [List.filterMap_append, hcommons, List.nil_append, List.filterMap_flatMap]
  rfl

/-- A number that the program defines is defined by one of its routines. -/
theorem mem_labels_code (h : Linkable program) {number : Nat} :
    number ∈ labels (code program nextLabel) ↔
      ∃ entry ∈ numbered nextLabel program.routines,
        number ∈ labels (entryLines program.constants entry) := by
  rw [code_eq h.sized, labels_append, labels_commonLines, List.nil_append, labels,
    List.filterMap_flatMap, List.mem_flatMap]
  rfl

/-- A branch leads to a place in the same function. -/
theorem mem_definitions_of_branch (h : Linkable program) {part : List String}
    (hpart : part ∈ functionTexts (textOf program nextLabel)) {name : String}
    (hname : name ∈ branches part) :
    name ∈ definitions (textOf program nextLabel) ∧ name ∈ definitions part := by
  rw [h.functionTexts_eq nextLabel] at hpart
  obtain ⟨entry, hentry, rfl⟩ := List.mem_map.mp hpart
  have hlegible := h.legible_entryLines hentry
  rw [branches_text hlegible] at hname
  obtain ⟨number, hnumber, rfl⟩ := List.mem_map.mp hname
  have hlabel : number ∈ labels (entryLines program.constants entry) :=
    (mem_targets_routineCode (h.valid_of_mem hentry)).mp hnumber
  rw [textOf, labelText_mem_definitions hlegible,
    labelText_mem_definitions (h.legible_code nextLabel), h.mem_labels_code]
  exact ⟨⟨entry, hentry, hlabel⟩, hlabel⟩

/-- A place inside of a function is led to. -/
theorem mem_branches_of_isLocal (h : Linkable program) {name : String}
    (hname : name ∈ definitions (textOf program nextLabel)) (hlocal : isLocal name = true) :
    name ∈ branches (textOf program nextLabel) := by
  have hmem := List.mem_filter.mpr ⟨hname, hlocal⟩
  rw [textOf, locals_text (h.legible_code nextLabel)] at hmem
  obtain ⟨number, hnumber, rfl⟩ := List.mem_map.mp hmem
  obtain ⟨entry, hentry, hlabel⟩ := h.mem_labels_code.mp hnumber
  have htarget : number ∈ targets (entryLines program.constants entry) :=
    (mem_targets_routineCode (h.valid_of_mem hentry)).mpr hlabel
  rw [h.branches_eq nextLabel, h.functionTexts_eq nextLabel, List.mem_flatMap]
  refine ⟨_, List.mem_map_of_mem hentry, ?_⟩
  rw [branches_text (h.legible_entryLines hentry)]
  exact List.mem_map_of_mem htarget

/-- The text of a program that can be linked is well linked. -/
theorem wellLinked (h : Linkable program) : WellLinked (textOf program 0) where
  lines := List.forall_mem_map.mpr fun line hline => oneLine_text (h.legible_code 0 line hline)
  distinct := h.nodup_names 0
  unreserved := h.not_mem_builtins
  functions _ hpart := h.exists_name hpart
  enclosed := h.branches_eq 0
  defined part hpart name hname := by
    obtain ⟨hmem, hpart⟩ := h.mem_definitions_of_branch hpart hname
    exact ⟨List.count_eq_one_of_mem (h.nodup_names 0).of_append_left hmem, hpart⟩
  used _ hname hlocal := h.mem_branches_of_isLocal hname hlocal
  numbered := by
    obtain ⟨count, hlocals⟩ := h.perm_locals 0
    rw [← List.range_eq_range'] at hlocals
    exact ⟨count, hlocals⟩

end Linkable

end Asm

/-! ## Trees

From the names of a tree to those of its program and its text. -/

/-- The name of a function. -/
def Item.functionName? : Item → Option String
  | .global _ => none
  | .function definition => some definition.ident.name

/-- The name of a global. -/
def Item.globalName? : Item → Option String
  | .global decl => some decl.ident.name
  | .function _ => none

/-- Every top declaration declares a function or a global. -/
theorem Item.perm_names (items : List Item) :
    (items.filterMap functionName? ++ items.filterMap globalName?).Perm (items.map name) := by
  induction items with
  | nil => exact .refl _
  | cons item rest ih =>
    cases item with
    | function definition => exact ih.cons _
    | global decl => exact List.perm_middle.trans (ih.cons _)

/-- What does not look at slots is the same after resolution. -/
theorem Tree.filterMap_resolve {f : Item → Option String}
    (hf : ∀ item : Item, f (item.relabel .erase) = f item) (tree : Tree) (nextId : Nat) :
    (tree.resolve nextId).1.items.filterMap f = tree.items.filterMap f := by
  have herase : ∀ tree : Tree, tree.erase.items.filterMap f = tree.items.filterMap f := by
    intro tree
    rw [Tree.erase, Tree.relabel, List.filterMap_map]
    exact List.filterMap_congr fun item _ => hf item
  rw [← herase, tree.erase_resolve nextId, herase]

/-- The symbols of a top declaration are spelled like it. -/
theorem Tree.Resolved.symbols_named {tree : Tree} {nextId : Nat} (h : tree.Resolved nextId)
    {item : Item} (hitem : item ∈ tree.items) :
    item.functionSymbol?.map Symbol.name = item.functionName? ∧
      item.globalSymbol?.map Symbol.name = item.globalName? := by
  obtain ⟨m, hsub⟩ := Item.subset_occurrencesAll 0 hitem
  cases item with
  | global decl =>
    obtain ⟨id, hsymbol⟩ := h.declared (hsub List.mem_cons_self) rfl
    exact ⟨rfl, congrArg (Option.map Symbol.name) hsymbol⟩
  | function definition =>
    obtain ⟨id, hsymbol⟩ := h.declared (hsub List.mem_cons_self) rfl
    exact ⟨congrArg (Option.map Symbol.name) hsymbol, rfl⟩

section

variable {tree : Tree} {nextId : Nat} {program : Program}

/-- The routines are named like the functions of the tree. -/
theorem Tree.functionNames_of_lower (hquiet : (tree.resolve nextId).2.errors = [])
    (hlower : (tree.check nextId).tree.lower = .ok program) :
    program.routines.map (·.name) = tree.items.filterMap Item.functionName? := by
  have hlower : (tree.resolve nextId).1.lower = .ok program :=
    (Tree.lower_annotate _).symm.trans hlower
  rw [Tree.names_of_lower hlower, Tree.functionSymbols, List.map_filterMap,
    ← tree.filterMap_resolve (fun item => by cases item <;> rfl) nextId]
  exact List.filterMap_congr fun item hitem =>
    ((Tree.resolved_of_resolve hquiet).symbols_named hitem).1

/-- The globals of a program are named like those of the tree. -/
theorem Tree.globalNames_of_lower (hquiet : (tree.resolve nextId).2.errors = [])
    (hlower : (tree.check nextId).tree.lower = .ok program) :
    program.globals.map (·.symbol.name) = tree.items.filterMap Item.globalName? := by
  have hglobals := congrArg (List.map Symbol.name) (Tree.globals_of_lower hlower)
  rw [List.map_map, Tree.globalSymbols, List.map_filterMap] at hglobals
  rw [← tree.filterMap_resolve (fun item => by cases item <;> rfl) nextId]
  refine hglobals.trans (List.filterMap_congr fun item hitem => ?_)
  exact ((Tree.resolved_of_resolve hquiet).symbols_named hitem).2

/-- If the names of a tree have no characters with a meaning, then neither have those of its
program. -/
theorem Tree.linkable_of_lower
    (hnames : ∀ occurrence ∈ tree.occurrences, Asm.isName occurrence.name = true)
    (hquiet : (tree.resolve nextId).2.errors = [])
    (hlower : (tree.check nextId).tree.lower = .ok program) (hvalid : program.violation? = none)
    (hsized : (Asm.Fragment.join (program.globals.map Asm.globalCode)).halt = none) :
    Asm.Linkable program := by
  have hroutines := Tree.functionNames_of_lower hquiet hlower
  have hglobals := Tree.globalNames_of_lower hquiet hlower
  have hperm := Item.perm_names tree.items
  rw [← hroutines, ← hglobals] at hperm
  have hitems : ∀ name ∈ tree.items.map Item.name, Asm.isName name = true := by
    rw [← globalNames_items tree.items 0]
    intro name hname
    obtain ⟨occurrence, hoccurrence, hname⟩ := List.mem_filterMap.mp hname
    rw [← (Occurrence.globalName?_eq_some.mp hname).2]
    exact hnames occurrence hoccurrence
  have hall : ∀ name ∈ program.routines.map (·.name) ++ program.globals.map (·.symbol.name),
      Asm.isName name = true := fun name hname => hitems name (hperm.mem_iff.mp hname)
  rw [List.forall_mem_append, List.forall_mem_map, List.forall_mem_map] at hall
  refine ⟨hvalid, hsized, hall.2, hall.1, fun reference hreference => ?_, ?_⟩
  · obtain ⟨occurrence, hoccurrence, hname⟩ :=
      Tree.exists_of_mem_references hquiet hlower hreference
    rw [← hname]
    exact hnames occurrence hoccurrence
  · have hnodup := (Tree.resolved_of_resolve hquiet).nodup_names
    rw [tree.names_resolve nextId] at hnodup
    exact (hperm.append_left _).nodup_iff.mpr hnodup

end

/-- What has a valid program has no problems. -/
theorem Checked.of_program_eq_ok {checked : Checked} {program : Program}
    (h : checked.program = .ok program) :
    checked.diagnostics = [] ∧ checked.tree.lower = .ok program ∧ program.violation? = none := by
  rw [Checked.program] at h
  split at h
  · cases h
  · next hempty =>
    have hclean : checked.diagnostics = [] := by simpa using hempty
    split at h
    · cases h
    · next lowered hlower =>
      split at h
      · cases h
      · next hvalid =>
        obtain rfl := Except.ok.inj h
        exact ⟨hclean, hlower, hvalid⟩

/-- What has no problems and a valid program is that program. -/
theorem Checked.program_eq_ok {checked : Checked} {program : Program}
    (hclean : checked.diagnostics = []) (hlower : checked.tree.lower = .ok program)
    (hvalid : program.violation? = none) : checked.program = .ok program := by
  simp [Checked.program, hclean, hlower, hvalid]

/-- Everything that is written of a tree that compiles comes from its valid program. -/
theorem Tree.of_compile_eq_ok {tree : Tree} {room : Asm.Room} {emission : Asm.Emission}
    (h : (tree.compile room).2 = .ok emission) :
    ∃ program, (tree.check 0).diagnostics = [] ∧ (tree.check 0).tree.lower = .ok program ∧
      program.violation? = none ∧ Asm.emit program 0 room = emission := by
  have hmap : (tree.check 0).program.map (Asm.emit · 0 room) = .ok emission := h
  rcases hprogram : (tree.check 0).program with error | program
  · rw [hprogram] at hmap
    cases hmap
  · rw [hprogram] at hmap
    obtain ⟨hclean, hlower, hvalid⟩ := Checked.of_program_eq_ok hprogram
    exact ⟨program, hclean, hlower, hvalid, Except.ok.inj hmap⟩

/-- The text of a tree that compiles is well linked, if its names have no characters with a meaning
in assembly: its functions and what it reserves room for are those of the tree. And programs that
were validated, written one after the other with labels numbered on, define no number twice, be they
written to the end or not. -/
theorem Tree.wellLinked_of_compile :
    (∀ (tree : Tree) (room : Asm.Room) (emission : Asm.Emission),
      (∀ occurrence ∈ tree.occurrences, Asm.isName occurrence.name = true) →
      (tree.compile room).2 = .ok emission → emission.halt = none →
        Asm.WellLinked emission.lines ∧
        (Asm.definitions emission.lines).filter (! Asm.isLocal ·) =
          tree.items.filterMap Item.functionName? ∧
        Asm.commons emission.lines = tree.items.filterMap Item.globalName?) ∧
    ∀ (nextLabel : Nat) (jobs : List (Program × Asm.Room)),
      (∀ job ∈ jobs, job.1.violation? = none) →
        (Asm.writtenAll nextLabel jobs).map Asm.Line.text =
          (Asm.emitAll nextLabel jobs).flatMap (·.lines) ∧
        (Asm.labels (Asm.writtenAll nextLabel jobs)).Nodup := by
  refine ⟨fun tree room emission hnames hcompile hhalt => ?_, fun nextLabel jobs hjobs => ?_⟩
  · obtain ⟨program, hclean, hlower, hvalid, rfl⟩ := Tree.of_compile_eq_ok hcompile
    have hquiet : (tree.resolve 0).2.errors = [] := (List.append_eq_nil_iff.mp hclean).1
    have hlinkable :=
      Tree.linkable_of_lower hnames hquiet hlower hvalid (Asm.halt_of_writeSections hhalt)
    rw [Asm.lines_emit hhalt, hlinkable.filter_definitions 0, hlinkable.commons_eq 0]
    exact ⟨hlinkable.wellLinked, Tree.functionNames_of_lower hquiet hlower,
      Tree.globalNames_of_lower hquiet hlower⟩
  · obtain ⟨last, hdefines⟩ := Asm.nodup_labels_writtenAll hjobs nextLabel
    exact ⟨Asm.map_text_writtenAll nextLabel jobs, hdefines.nodup⟩

/-- A tree with a loop; and a program with jumps that is written three times, once not to the end.
-/
theorem Tree.wellLinked_of_compile_summing :
    (∃ emission, ((summingTree "n" "i" {}).compile .unlimited).2 = .ok emission ∧
      emission.halt = none ∧
      Asm.WellLinked emission.lines ∧
      (Asm.definitions emission.lines).filter (! Asm.isLocal ·) = ["sum", "main"] ∧
      Asm.commons emission.lines = ["total"]) ∧
    (Asm.rounds 4).violation? = none ∧
    (Asm.labels (Asm.writtenAll 0
      [(Asm.rounds 4, .unlimited), (Asm.rounds 4, .lines 9),
        (Asm.rounds 4, .unlimited)])).Nodup := by
  have hnames : ((summingTree "n" "i" {}).occurrences.all fun occurrence =>
    Asm.isName occurrence.name) = true := by decide +kernel
  have hwritten : (match ((summingTree "n" "i" {}).compile .unlimited).2 with
    | .ok emission => emission.halt.isNone
    | .error _ => false) = true := by decide +kernel
  have hrounds : (Asm.rounds 4).violation? = none := by decide +kernel
  obtain ⟨hcompiled, hrow⟩ := Tree.wellLinked_of_compile
  refine ⟨?_, hrounds, (hrow 0 _ (by simp [hrounds])).2⟩
  split at hwritten
  · next emission hemission =>
    have hhalt := Option.isNone_iff_eq_none.mp hwritten
    exact ⟨emission, hemission, hhalt,
      hcompiled _ _ emission (List.all_eq_true.mp hnames) hemission hhalt⟩
  · cases hwritten

end WordLang
