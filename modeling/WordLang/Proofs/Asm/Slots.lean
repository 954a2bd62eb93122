import WordLang.Proofs.Asm.Entry

/-!
# Slots

A routine is written in one go: the first mention of a register decides its slot, and the size of
the frame is written before anything is mentioned. Here the operands of the finished text are read
back.

* The slots in the text of a step are those of the registers that its instruction uses, in that
  order (`frameUses_stepLines`). So the slots of a routine are those of its mentions.
* Numbering the registers as they are met gives the same slots as looking them up in the finished
  frame (`numberAll_nil`).
* Only registers that the routine owns are mentioned, so the frame has room for all of them.

The main statement is about the text alone (`slots_of_valid`): it opens one frame, of an even number
of words, and every slot in it is a whole word of that frame, one for each register that is
mentioned.

Jumps are the odd ones among instructions. What a jump reads is mentioned on the way on from it and
not in its own lines, so the slots of an instruction and those of its step are not the same; only
the latter follow the order of uses.
-/

namespace WordLang

/-! ## Numbers in the order of first use

A table that is filled as things are met, against a list that is known in advance. Things that are
met are appended, so a place in the table never changes. -/

section

variable {α : Type} [DecidableEq α]

/-- The number of a thing in a table, and the table after that: a thing that is not there gets the
next number. Numbers start at 1. -/
def numberNext (table : List α) (a : α) : Nat × List α :=
  if a ∈ table then (table.idxOf a + 1, table) else (table.length + 1, table ++ [a])

/-- The numbers of things that are met one after the other. -/
def numberAll (table : List α) : List α → List Nat
  | [] => []
  | a :: rest => (numberNext table a).1 :: numberAll (numberNext table a).2 rest

/-- What meeting a thing does to the table that will have everything in it: nothing. -/
theorem numberNext_append (table rest : List α) (a : α) :
    (numberNext table a).2 ++ (firstUses rest).filter (· ∉ (numberNext table a).2) =
      table ++ (firstUses (a :: rest)).filter (· ∉ table) := by
  unfold numberNext
  rw [firstUses]
  split
  · next hmem =>
    rw [List.filter_cons_of_neg (by simpa using hmem), List.filter_filter]
    congr 1
    apply List.filter_congr
    intro b _
    by_cases hb : b = a
    · simp [hb, hmem]
    · simp [hb]
  · next hmem =>
    rw [List.filter_cons_of_pos (by simpa using hmem), List.filter_filter, List.append_assoc]
    congr 1
    apply congrArg (a :: ·)
    apply List.filter_congr
    intro b _
    simp [not_or]

/-- The number of a thing is its place among what was met so far and what will be met. -/
theorem numberNext_eq (table rest : List α) (a : α) :
    (numberNext table a).1 = (table ++ (firstUses (a :: rest)).filter (· ∉ table)).idxOf a + 1 := by
  unfold numberNext
  rw [firstUses]
  split
  · next hmem => rw [List.idxOf_append_of_mem hmem]
  · next hmem =>
    rw [List.filter_cons_of_pos (by simpa using hmem), List.idxOf_append_of_notMem hmem,
      List.idxOf_cons_self, Nat.add_zero]

/-- So are the numbers of several things. By induction on them, with the table so far. -/
theorem numberAll_eq (table uses : List α) :
    numberAll table uses =
      uses.map fun a => (table ++ (firstUses uses).filter (· ∉ table)).idxOf a + 1 := by
  induction uses generalizing table with
  | nil => rfl
  | cons a rest ih =>
    rw [numberAll, ih, List.map_cons, numberNext_append, ← numberNext_eq]

/-- Numbering as things are met is looking them up among all first uses. -/
theorem numberAll_nil (uses : List α) :
    numberAll [] uses = uses.map fun a => (firstUses uses).idxOf a + 1 := by
  rw [numberAll_eq]
  simp

end

/-! ## The stack in the text

All operands of all instructions, as far as they are about the frame. -/

namespace Asm

/-- What an instruction may say about the frame. -/
inductive FrameUse where
  /-- opens a frame of so many words -/
  | opening (words : Nat)
  /-- the word that stands `index` words below the frame's base -/
  | slot (index : Nat)
deriving DecidableEq

/-- The words for it in the text of an instruction. -/
def FrameUse.text : FrameUse → String
  | .opening words => (Instr.enter words).text
  | .slot index => (Operand.slot index).text

/-- The slot that an operand is. -/
def Operand.frameUse? : Operand → Option FrameUse
  | .slot index => some (.slot index)
  | _ => none

/-- What an instruction says about the frame, in the order of its text. -/
def Instr.frameUses : Instr → List FrameUse
  | .mov src dst => src.frameUse?.toList ++ dst.frameUse?.toList
  | .alu _ src _ => src.frameUse?.toList
  | .push src => src.frameUse?.toList
  | .enter words => [.opening words]
  | _ => []

/-- What some lines say about the frame, in the order of their text. -/
def frameUses (lines : List Line) : List FrameUse :=
  lines.flatMap fun
    | .instr i => i.frameUses
    | _ => []

/-- What lines in a row say. -/
@[simp]
theorem frameUses_append (first second : List Line) :
    frameUses (first ++ second) = frameUses first ++ frameUses second :=
  List.flatMap_append

/-- What an instruction says, and the lines after it. -/
@[simp]
theorem frameUses_instr (i : Instr) (rest : List Line) :
    frameUses (.instr i :: rest) = i.frameUses ++ frameUses rest :=
  List.flatMap_cons

/-- No lines say nothing. -/
@[simp]
theorem frameUses_nil : frameUses [] = [] := rfl

/-- The slot of a register. -/
def Context.frameUse (ctx : Context) (register : Register) : FrameUse :=
  .slot (ctx.frame.idxOf register + 1)

variable {ctx : Context} {constants : List Constant} {base : Nat} {routine : Routine}
  {step : Routine.Step}

/-- Arguments that are loaded mention their slots in order. -/
theorem frameUses_loads (ctx : Context) (args : List Temp) (regs : List Reg)
    (h : args.length ≤ regs.length) :
    frameUses
        (((args.zip regs).map fun (arg, reg) => Instr.mov (ctx.temp arg) (.reg reg)).map .instr) =
      (args.map .temp).map ctx.frameUse := by
  induction args generalizing regs with
  | nil => rfl
  | cons arg args ih =>
    cases regs with
    | nil => exact absurd h (Nat.not_succ_le_zero _)
    | cons reg regs =>
      have hrest := ih regs (Nat.le_of_succ_le_succ h)
      simp only [List.zip_cons_cons, List.map_cons, frameUses_instr, hrest]
      rfl

/-- So do arguments that are pushed. -/
theorem frameUses_pushes (ctx : Context) (args : List Temp) :
    frameUses ((args.map fun arg => Instr.push (ctx.temp arg)).map .instr) =
      (args.map .temp).map ctx.frameUse := by
  induction args with
  | nil => rfl
  | cons arg args ih =>
    simp only [List.map_cons, frameUses_instr, ih]
    rfl

/-- Aligning the stack mentions no slot. -/
theorem frameUses_alignCode (onStack : List Temp) :
    frameUses ((alignCode onStack).map .instr) = [] := by
  unfold alignCode
  split <;> rfl

/-- Nor does taking arguments off it. -/
theorem frameUses_popArgs (onStack : List Temp) :
    frameUses ((popArgs onStack).map .instr) = [] := by
  simp only [popArgs]
  split <;> rfl

/-- A call mentions its arguments, and then what takes the result. -/
theorem frameUses_callCode (dst : Option Temp) (callee : Symbol) (args : List Temp) :
    frameUses ((callCode ctx dst callee.name args).map .instr) =
      (InstKind.call dst callee args).uses.map ctx.frameUse := by
  have hloads := frameUses_loads ctx (args.take argRegs.length) argRegs (List.length_take_le _ _)
  have hpushes := frameUses_pushes ctx (args.drop argRegs.length).reverse
  have hrest : ∀ rest, frameUses (.instr (.call callee.name) :: rest) = frameUses rest :=
    fun _ => rfl
  simp only [callCode, loadArgs, pushArgs, InstKind.uses, List.map_append, List.map_cons,
    List.map_nil, frameUses_append, hloads, hpushes, frameUses_alignCode, hrest, frameUses_nil,
    frameUses_popArgs, List.append_nil]
  cases dst <;> rfl

/-- The slots of an instruction are those of the registers it uses. A jump reads its condition on
the way on. -/
theorem frameUses_instCode {kind : InstKind} (hjump : kind.isJump = false)
    (hhalt : (instCode ctx kind).halt = none) :
    frameUses (instCode ctx kind).lines = kind.uses.map ctx.frameUse := by
  cases kind with
  | copy dst src =>
    cases src with
    | const id =>
      -- only a constant of the pool is loaded, and only then is the result stored
      rw [instCode, loadOperand] at hhalt ⊢
      split at hhalt
      · rw [Fragment.lines_append _ rfl]
        unfold loadWord
        split <;> rfl
      · cases hhalt
    | _ => rfl
  | arith op dst left right => cases op <;> rfl
  | addressAt dst symbol offset => cases offset <;> rfl
  | call dst callee args => exact frameUses_callCode dst callee args
  | ret value => cases value <;> rfl
  | jump cond => cases hjump
  | _ => rfl

/-- A branch mentions no slot. -/
theorem frameUses_branchTo (branch : Nat → Instr) (id : InstId)
    (h : ∀ label, (branch label).frameUses = []) :
    frameUses (branchTo ctx branch id).lines = [] := by
  unfold branchTo
  split
  · simp [h]
  · rfl

/-- Nor does going on. -/
theorem frameUses_continueTo (following : Option InstId) (id : InstId) :
    frameUses (continueTo ctx following id).lines = [] := by
  unfold continueTo
  split
  · rfl
  · exact frameUses_branchTo .jmp id fun _ => rfl

/-- The way on of a jump mentions what the jump reads. -/
theorem frameUses_exitCode_jump {cond : Temp} {onFalse onTrue : InstId}
    (hkind : step.inst.kind = .jump cond) (hnext : step.inst.next = some onFalse)
    (htrue : step.inst.onTrue = some onTrue) :
    frameUses (exitCode ctx step).lines = [ctx.frameUse (.temp cond)] := by
  have hways : frameUses (branchTo ctx .je onFalse ++ continueTo ctx step.following onTrue).lines =
      [] := by
    have hfalse : frameUses (branchTo ctx .je onFalse).lines = [] :=
      frameUses_branchTo .je onFalse fun _ => rfl
    rcases hhalt : (branchTo ctx .je onFalse).halt with _ | halt
    · rw [Fragment.lines_append _ hhalt, frameUses_append, hfalse, frameUses_continueTo]
      rfl
    · rw [Fragment.append_eq_of_halt hhalt, hfalse]
  rw [exitCode_jump hkind hnext htrue, Fragment.lines_append _ rfl, frameUses_append, hways]
  rfl

/-- The slots of a step are those of the registers that its instruction uses. -/
theorem frameUses_stepLines (hsound : step.inst.Sound constants routine) :
    frameUses (stepLines (Context.of constants base routine) step) =
      step.inst.kind.uses.map (Context.of constants base routine).frameUse := by
  have hlabel : ∀ label : Option Nat, frameUses (label.toList.map Line.label) = [] := by
    intro label
    cases label <;> rfl
  rw [stepLines, frameUses_append, frameUses_append, hlabel, List.nil_append]
  rcases hjump : step.inst.kind.isJump with _ | _
  · have hexit : frameUses (exitCode (Context.of constants base routine) step).lines = [] := by
      rcases hnext : step.inst.next with _ | next
      · rw [exitCode_end hjump hnext]
        rfl
      · rw [exitCode_next hjump hnext]
        exact frameUses_continueTo _ _
    rw [hexit, List.append_nil]
    exact frameUses_instCode hjump (halt_instCode hsound)
  · -- a jump has no code of its own: its condition is read on the way on, and validation has
    -- checked that both ways are there
    obtain ⟨cond, hkind⟩ := InstKind.exists_jump hjump
    obtain ⟨onFalse, onTrue, hnext, htrue⟩ := hsound.exists_targets hjump
    rw [hkind]
    exact frameUses_exitCode_jump hkind hnext htrue

/-- The arguments of the routine are mentioned in order. -/
theorem frameUses_bindArgs (index : Nat) (args : List Temp) :
    frameUses ((bindArgs ctx index args).map .instr) = (args.map .temp).map ctx.frameUse := by
  induction args generalizing index with
  | nil => rfl
  | cons arg args ih =>
    have hfirst : frameUses ((bindArg ctx index arg).map .instr) = [ctx.frameUse (.temp arg)] := by
      unfold bindArg
      split <;> rfl
    rw [bindArgs, List.map_append, frameUses_append, hfirst, ih]
    rfl

end Asm

/-! ## The frame of a routine

From first mentions to slots that are different words of the frame. -/

namespace Routine

variable {routine : Routine} {constants : List Constant}

/-- The registers of a routine, in the order in which its assembly mentions them. -/
def mentions (routine : Routine) : List Register :=
  routine.args.map .temp ++ routine.steps.flatMap fun step => step.inst.kind.uses

/-- How many bytes below the base of the frame the slot of a register is. -/
def offset (routine : Routine) (register : Register) : Nat :=
  (routine.frame.idxOf register + 1) * Asm.wordSize

/-- The frame has a slot for every register that is mentioned, and for no other. -/
theorem mem_frame {register : Register} : register ∈ routine.frame ↔ register ∈ routine.mentions :=
  mem_firstUses

/-- Different registers have different slots. -/
theorem offset_inj {first second : Register} (hfirst : first ∈ routine.mentions)
    (h : routine.offset first = routine.offset second) : first = second := by
  have hplace : routine.frame.idxOf first = routine.frame.idxOf second := by
    simp only [offset, Asm.wordSize] at h
    omega
  exact (List.idxOf_inj (mem_frame.mpr hfirst)).mp hplace

/-- Every slot is a word inside the frame. -/
theorem Valid.offset_bounds (h : routine.Valid constants) {register : Register}
    (hregister : register ∈ routine.mentions) :
    8 ∣ routine.offset register ∧ 8 ≤ routine.offset register ∧
      routine.offset register ≤ 8 * routine.frameWords := by
  have hlt : routine.frame.idxOf register < routine.frame.length :=
    List.idxOf_lt_length_of_mem (mem_frame.mpr hregister)
  have hle := h.length_frame_le
  simp only [offset, Asm.wordSize]
  omega

/-- The slots are those that a table gives which is filled as the registers are met. -/
theorem map_offset_mentions (routine : Routine) :
    routine.mentions.map routine.offset =
      (numberAll [] routine.mentions).map (· * Asm.wordSize) := by
  rw [numberAll_nil, List.map_map]
  rfl

end Routine

namespace Asm

variable {constants : List Constant} {routine : Routine}

/-- The text of the slot that is so many bytes below the base. -/
def slotText (bytes : Nat) : String :=
  "-" ++ toString bytes ++ "(%rbp)"

/-- Slots at different places are written differently. -/
theorem slotText_inj {first second : Nat} (h : slotText first = slotText second) :
    first = second := by
  have hdigits : toString first = toString second :=
    (String.append_right_inj _).mp ((String.append_left_inj _).mp h)
  exact toString_nat_injective hdigits

/-- A routine opens its frame, and then its slots are those of its mentions. -/
theorem frameUses_routineCode (h : routine.Valid constants) (base : Nat) :
    frameUses (routineCode constants base routine).lines =
      .opening routine.frameWords ::
        routine.mentions.map (Context.of constants base routine).frameUse := by
  have hsteps : frameUses (routine.steps.flatMap (stepLines (Context.of constants base routine))) =
      (routine.steps.flatMap fun step => step.inst.kind.uses).map
        (Context.of constants base routine).frameUse := by
    rw [frameUses, List.flatMap_assoc, List.map_flatMap]
    apply List.flatMap_congr
    intro step hstep
    exact frameUses_stepLines (h.sound_of_mem_steps hstep)
  rw [lines_routineCode h base, frameUses_append, hsteps, Routine.mentions, List.map_append,
    ← frameUses_bindArgs 0 routine.args]
  rfl

/-- The assembly of a function of a valid program opens one frame, of an even number of words,
before it mentions any slot. Its slots are, in the order of the text, those of the registers that it
mentions, numbered as they are met: a register has the same slot at every mention, no two registers
share one, and each is a whole word inside the frame. -/
theorem slots_of_valid {program : Program} (hvalid : program.violation? = none) {routine : Routine}
    (hmem : routine ∈ program.routines) (base : Nat) :
    (routineCode program.constants base routine).halt = none ∧
    (frameUses (routineCode program.constants base routine).lines).map FrameUse.text =
      ("enter $(8 * " ++ toString routine.frameWords ++ "), $0") ::
        routine.mentions.map (fun register => slotText (routine.offset register)) ∧
    routine.frameWords % 2 = 0 ∧
    routine.mentions.map routine.offset = (numberAll [] routine.mentions).map (· * 8) ∧
    (∀ first ∈ routine.mentions, ∀ second ∈ routine.mentions, first ≠ second →
      slotText (routine.offset first) ≠ slotText (routine.offset second)) ∧
    ∀ register ∈ routine.mentions,
      8 ∣ routine.offset register ∧ 8 ≤ routine.offset register ∧
        routine.offset register ≤ 8 * routine.frameWords := by
  have hroutine : routine.Valid program.constants :=
    Routine.valid_of_violation? (List.findSome?_eq_none_iff.mp hvalid routine hmem)
  refine ⟨halt_routineCode hroutine base, ?_, routine.even_frameWords,
    routine.map_offset_mentions, ?_, fun register hmention => hroutine.offset_bounds hmention⟩
  · rw [frameUses_routineCode hroutine base, List.map_cons, List.map_map]
    rfl
  · intro first hfirst second _ hne htext
    exact hne (Routine.offset_inj hfirst (slotText_inj htext))

/-- A routine that adds its argument to an element of an array: registers of both kinds have the
number 0. -/
def addElement : Program where
  globals := [{ symbol := .declared 0 "row" (.array .int 4), elements := 4 }]
  routines :=
    [{ name := "add", ty := .func [.int] .void, args := [⟨0⟩], temps := 2, addrs := 1
       insts := #[
        { kind := .addressAt ⟨0⟩ (.declared 0 "row" (.array .int 4)) (some ⟨0⟩), next := some 1 },
        { kind := .load ⟨1⟩ ⟨0⟩, next := some 2 },
        { kind := .arith .add ⟨1⟩ ⟨1⟩ ⟨0⟩, next := some 3 },
        { kind := .store ⟨1⟩ ⟨0⟩ }] }]

/-- The slots of the routine above: both of its registers have slots of their own. -/
theorem slots_of_valid_addElement :
    addElement.violation? = none ∧ ∀ routine ∈ addElement.routines,
      (routineCode [] 0 routine).halt = none ∧
        (frameUses (routineCode [] 0 routine).lines).map FrameUse.text =
          ["enter $(8 * 4), $0", "-8(%rbp)", "-8(%rbp)", "-16(%rbp)", "-16(%rbp)", "-24(%rbp)",
            "-24(%rbp)", "-8(%rbp)", "-24(%rbp)", "-16(%rbp)", "-24(%rbp)"] := by
  have hvalid : addElement.violation? = none := by decide +kernel
  refine ⟨hvalid, fun routine hmem => ?_⟩
  have hslots := slots_of_valid hvalid hmem 0
  obtain rfl := List.mem_singleton.mp hmem
  exact ⟨hslots.1, hslots.2.1.trans (by decide +kernel)⟩

end Asm

end WordLang
