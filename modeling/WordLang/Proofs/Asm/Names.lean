import WordLang.Proofs.Asm.Lines
import WordLang.Proofs.Lowering.References

/-!
# Names in the text

Assembly knows nothing of symbols. What an instruction refers to, it refers to by name: a call has
the name of the callee, and an address the name of the variable. The names in the text of a routine
are those of the references of its steps, in the same order (`references_routineCode`).

Only two forms of operand and instruction show a name, so most of the code of an instruction refers
to nothing, and a label is no reference. What is in the arena but not scheduled is not in the text,
so the text may refer to less than the routine does, and never to more (`mem_references_of_text`).
-/

namespace WordLang.Asm

/-- The name that an operand refers to. -/
def Operand.reference? : Operand → Option (Reference String)
  | .globalAddress name => some (.address name)
  | _ => none

/-- The names that an instruction refers to, in the order of its text. -/
def Instr.references : Instr → List (Reference String)
  | .mov src dst => src.reference?.toList ++ dst.reference?.toList
  | .alu _ src _ => src.reference?.toList
  | .push src => src.reference?.toList
  | .call name => [.call name]
  | _ => []

/-- The names that some lines refer to, in the order of their text. -/
def references (lines : List Line) : List (Reference String) :=
  lines.flatMap fun
    | .instr i => i.references
    | _ => []

/-- The names in lines in a row. -/
@[simp]
theorem references_append (first second : List Line) :
    references (first ++ second) = references first ++ references second :=
  List.flatMap_append

/-- The names in instructions. -/
@[simp]
theorem references_instrs (instrs : List Instr) :
    references (instrs.map .instr) = instrs.flatMap Instr.references :=
  List.flatMap_map _ _ _

variable {ctx : Context} {constants : List Constant} {routine : Routine}

/-- Fragments without references, one after the other, whether the first ended early or not. -/
theorem references_append_eq_nil {first second : Fragment} (hfirst : references first.lines = [])
    (hsecond : references second.lines = []) : references (first ++ second).lines = [] := by
  rcases hhalt : first.halt with _ | halt
  · rw [Fragment.lines_append _ hhalt, references_append, hfirst, hsecond]
    rfl
  · rw [Fragment.append_eq_of_halt hhalt, hfirst]

/-- A call refers to its callee. -/
theorem references_callCode (dst : Option Temp) (callee : String) (args : List Temp) :
    (callCode ctx dst callee args).flatMap Instr.references = [.call callee] := by
  have hloads : (loadArgs ctx (args.take argRegs.length)).flatMap Instr.references = [] := by
    rw [List.flatMap_eq_nil_iff]
    intro i hi
    obtain ⟨⟨arg, reg⟩, -, rfl⟩ := List.mem_map.mp hi
    rfl
  have hpushes : (pushArgs ctx (args.drop argRegs.length)).flatMap Instr.references = [] := by
    rw [List.flatMap_eq_nil_iff]
    intro i hi
    obtain ⟨arg, -, rfl⟩ := List.mem_map.mp hi
    rfl
  have halign : (alignCode (args.drop argRegs.length)).flatMap Instr.references = [] := by
    unfold alignCode
    split <;> rfl
  have hpops : (popArgs (args.drop argRegs.length)).flatMap Instr.references = [] := by
    simp only [popArgs]
    split <;> rfl
  simp only [callCode, List.flatMap_append, hloads, halign, hpushes, hpops]
  cases dst <;> rfl

/-- The names in the code of an instruction are those of what it refers to. -/
theorem references_instCode (ctx : Context) (kind : InstKind) :
    references (instCode ctx kind).lines =
      kind.reference?.toList.map (Reference.map Symbol.name) := by
  cases kind with
  | copy dst src =>
    refine references_append_eq_nil ?_ rfl
    cases src with
    | const id =>
      rw [loadOperand]
      split
      · rw [Fragment.instrs, references_instrs]
        unfold loadWord
        split <;> rfl
      · rfl
    | _ => rfl
  | arith op dst left right => cases op <;> rfl
  | addressAt dst base offset => cases offset <;> rfl
  | call dst callee args =>
    exact (references_instrs _).trans (references_callCode dst callee.name args)
  | ret value => cases value <;> rfl
  | _ => rfl

/-- A branch refers to nothing. -/
theorem references_branchTo (branch : Nat → Instr) (id : InstId)
    (h : ∀ label, (branch label).references = []) :
    references (branchTo ctx branch id).lines = [] := by
  unfold branchTo
  split
  · rw [Fragment.instrs, references_instrs, List.flatMap_singleton, h]
  · rfl

/-- Nor does going on. -/
theorem references_continueTo (following : Option InstId) (id : InstId) :
    references (continueTo ctx following id).lines = [] := by
  unfold continueTo
  split
  · rfl
  · exact references_branchTo .jmp id fun _ => rfl

/-- Nothing is referred to on the way on. -/
theorem references_exitCode (ctx : Context) (step : Routine.Step) :
    references (exitCode ctx step).lines = [] := by
  unfold exitCode
  split
  · split
    · exact references_append_eq_nil rfl (references_append_eq_nil
        (references_branchTo .je _ fun _ => rfl) (references_continueTo _ _))
    · rfl
  · split
    · exact references_continueTo _ _
    · rfl

/-- The lines of a step refer to what its instruction refers to. -/
theorem references_stepLines (ctx : Context) (step : Routine.Step) :
    references (stepLines ctx step) =
      step.inst.kind.reference?.toList.map (Reference.map Symbol.name) := by
  have hlabel : references ((ctx.label? step.id).toList.map Line.label) = [] := by
    cases ctx.label? step.id <;> rfl
  rw [stepLines, references_append, references_append, hlabel, references_instCode,
    references_exitCode, List.nil_append, List.append_nil]

/-- Taking arguments refers to nothing. -/
theorem references_bindArgs (index : Nat) (args : List Temp) :
    (bindArgs ctx index args).flatMap Instr.references = [] := by
  induction args generalizing index with
  | nil => rfl
  | cons arg args ih =>
    have hfirst : (bindArg ctx index arg).flatMap Instr.references = [] := by
      unfold bindArg
      split <;> rfl
    rw [bindArgs, List.flatMap_append, hfirst, ih]
    rfl

/-- The names in the text of a routine are those of what its steps refer to. -/
theorem references_routineCode (h : routine.Valid constants) (base : Nat) :
    references (routineCode constants base routine).lines =
      (routine.steps.filterMap fun step => step.inst.kind.reference?).map
        (Reference.map Symbol.name) := by
  have hprologue : references (prologue (Context.of constants base routine) routine) = [] := by
    rw [prologue, references_append, references_instrs, references_bindArgs]
    rfl
  rw [lines_routineCode h base, references_append, hprologue, List.nil_append]
  induction routine.steps with
  | nil => rfl
  | cons step rest ih =>
    rw [List.flatMap_cons, references_append, ih, references_stepLines, List.filterMap_cons]
    cases step.inst.kind.reference? <;> rfl

/-- Only what a routine refers to has a name in its text. -/
theorem mem_references_of_text (h : routine.Valid constants) {base : Nat}
    {reference : Reference String}
    (hmem : reference ∈ references (routineCode constants base routine).lines) :
    ∃ source ∈ routine.references, source.map Symbol.name = reference := by
  rw [references_routineCode h base] at hmem
  obtain ⟨source, hsource, rfl⟩ := List.mem_map.mp hmem
  obtain ⟨step, hstep, hreference⟩ := List.mem_filterMap.mp hsource
  have hinst := (Routine.mem_schedule_of_mem_steps hstep).2
  refine ⟨source, List.mem_filterMap.mpr ⟨step.inst, ?_, hreference⟩, rfl⟩
  exact Array.mem_toList_iff.mpr (Array.mem_of_getElem? hinst)

end WordLang.Asm
