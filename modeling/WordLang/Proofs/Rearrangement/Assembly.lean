import WordLang.Asm.Emission
import WordLang.Proofs.Asm.Entry
import WordLang.Proofs.Asm.Sufficiency
import WordLang.Proofs.Rearrangement.Basic

/-!
# Rearrangement and assembly

The text of a routine shows neither handles nor the numbers of registers. A label has the number of
its place among the instructions that need one, and a slot that of its register among those which
are used. Where instructions and registers only change their names, the lists of both change name by
name, and nobody changes places. So a program whose routines are rearranged has the same assembly
(`Program.emit_of_rearrangedAs`).

Labels and slots are found by the place of something in a list without duplicates. The one fact
about such lists is that a member keeps its place if all members are renamed and stay apart
(`idxOf_map`). It is used twice: for the list of places that need labels, which can all be reached,
and for the frame, whose registers the routine owns. After that the text of each instruction is the
same because its context says the same of it (`Context.SameSlots`).

This is about valid programs. Otherwise an error would name the instruction it is about by its
handle.
-/

namespace WordLang

/-! ## Lists whose members get other names

First uses, and places among them. Names have to stay apart only for the members at hand. -/

section

variable {α β : Type} [DecidableEq α] [DecidableEq β] {f : α → β}

/-- Removing duplicates before or after renaming gives the same. Two members that are different stay
different, so the same ones are removed. -/
theorem firstUses_map {uses : List α} (h : ∀ a ∈ uses, ∀ b ∈ uses, f a = f b → a = b) :
    firstUses (uses.map f) = (firstUses uses).map f := by
  induction uses with
  | nil => rfl
  | cons a rest ih =>
    have hrest := ih fun b hb c hc => h b (List.mem_cons_of_mem _ hb) c (List.mem_cons_of_mem _ hc)
    rw [List.map_cons, firstUses, hrest, List.filter_map, firstUses, List.map_cons]
    refine congrArg (fun others => f a :: others.map f) (List.filter_congr fun b hb => ?_)
    have hb : b ∈ a :: rest := List.mem_cons_of_mem _ (mem_firstUses.mp hb)
    have hiff : f b = f a ↔ b = a := ⟨h b hb a List.mem_cons_self, congrArg f⟩
    simp only [Function.comp_apply, ne_eq, hiff]

/-- A member keeps its place, because nothing before it is renamed to what it is renamed to. -/
theorem idxOf_map {items : List α} {a : α} (h : ∀ b ∈ items, f b = f a → b = a) :
    (items.map f).idxOf (f a) = items.idxOf a := by
  induction items with
  | nil => rfl
  | cons b rest ih =>
    rw [List.forall_mem_cons] at h
    rw [List.map_cons, List.idxOf_cons, List.idxOf_cons, ih h.2]
    have hiff : f b = f a ↔ b = a := ⟨h.1, congrArg f⟩
    simp only [beq_eq_decide, hiff]

end

/-! ## What a step leads to

Everything that a step of a valid routine mentions can be reached: its own place, its successors,
and the place that comes next in the schedule. So it is where a rearrangement keeps things apart. -/

namespace Routine

variable {routine : Routine} {constants : List Constant} {step : Step} {id : InstId}

/-- A step is at a place that can be reached. -/
theorem Valid.reaches_step (hvalid : routine.Valid constants) (hstep : step ∈ routine.steps) :
    routine.Reaches routine.start step.id :=
  hvalid.mem_schedule_iff_reaches.mp (mem_schedule_of_mem_steps hstep).1

/-- So is everything that an edge leads to. -/
theorem Valid.reaches_successor (hvalid : routine.Valid constants) (hstep : step ∈ routine.steps)
    (hid : id ∈ step.inst.successors) : routine.Reaches routine.start id :=
  (hvalid.reaches_step hstep).tail ⟨step.inst, (mem_schedule_of_mem_steps hstep).2, hid⟩

/-- So is what comes next in the schedule. -/
theorem Valid.reaches_following (hvalid : routine.Valid constants) (hstep : step ∈ routine.steps)
    (hid : step.following = some id) : routine.Reaches routine.start id := by
  obtain ⟨place, hplace⟩ := List.getElem?_of_mem hstep
  rw [following_eq_getElem? hplace] at hid
  exact hvalid.mem_schedule_iff_reaches.mp (List.mem_of_getElem? hid)

/-- A step branches only to its successors. -/
theorem mem_successors_of_branchTargets (hid : id ∈ step.inst.branchTargets step.following) :
    id ∈ step.inst.successors := by
  rcases List.mem_append.mp hid with hnext | htrue
  · exact List.mem_append_left _ (List.mem_filter.mp hnext).1
  · exact List.mem_append_right _ (List.mem_filter.mp htrue).1

/-- So a place that needs a label can be reached. -/
theorem Valid.reaches_labelled (hvalid : routine.Valid constants) (hid : id ∈ routine.labelled) :
    routine.Reaches routine.start id := by
  obtain ⟨step, hstep, hid⟩ := List.mem_flatMap.mp (mem_firstUses.mp hid)
  exact hvalid.reaches_successor hstep (mem_successors_of_branchTargets hid)

end Routine

namespace Rearrangement

variable (r : Rearrangement)

/-- The registers of an instruction are renamed in the order of their uses. -/
theorem uses_kind (kind : InstKind) : (r.kind kind).uses = kind.uses.map r.register := by
  cases kind with
  | addressAt dst base offset => cases offset <;> rfl
  | copy dst src => cases src <;> rfl
  | call dst callee args =>
    simp only [Rearrangement.kind, InstKind.uses, List.map_append, List.map_map, ← List.map_take,
      ← List.map_drop, ← List.map_reverse]
    cases dst <;> rfl
  | ret value => cases value <;> rfl
  | _ => rfl

namespace Arranges

variable {r} {routine routine' : Routine} {constants : List Constant} {step : Routine.Step}
    {id : InstId}

/-! ## Labels

Where control falls through no branch is written, and so no label is needed. Whether it does is told
by comparing two places, which stay apart. -/

/-- Control falls through where it did before. One direction is plain renaming; the other needs that
no two places that can be reached are given the same handle. -/
theorem following_iff (h : r.Arranges routine routine') (hvalid : routine.Valid constants)
    (hstep : step ∈ routine.steps) (hid : routine.Reaches routine.start id) :
    step.following.map r.place = some (r.place id) ↔ step.following = some id := by
  refine ⟨fun hfollowing => ?_, fun hfollowing => by rw [hfollowing, Option.map_some]⟩
  obtain ⟨other, hother, heq⟩ := Option.map_eq_some_iff.mp hfollowing
  rw [hother, h.places (hvalid.reaches_following hstep hother) hid heq]

/-- A step branches to where its targets went. -/
theorem branchTargets_step (h : r.Arranges routine routine') (hvalid : routine.Valid constants)
    (hstep : step ∈ routine.steps) :
    (r.step step).inst.branchTargets (r.step step).following =
      (step.inst.branchTargets step.following).map r.place := by
  have hiff : ∀ id ∈ step.inst.successors,
      (step.following.map r.place = some (r.place id) ↔ step.following = some id) :=
    fun id hid => h.following_iff hvalid hstep (hvalid.reaches_successor hstep hid)
  rw [Inst.branchTargets, Inst.branchTargets, List.map_append]
  simp only [Rearrangement.step, Rearrangement.inst, isJump_kind, Option.toList_map,
    List.filter_map]
  congr 2
  · refine List.filter_congr fun id hid => ?_
    simp only [Function.comp_apply, ne_eq, hiff id (List.mem_append_left _ hid)]
  · refine List.filter_congr fun id hid => ?_
    simp only [Function.comp_apply, ne_eq, hiff id (List.mem_append_right _ hid)]

/-- The places that need labels are renamed in order. -/
theorem labelled_eq (h : r.Arranges routine routine') (hvalid : routine.Valid constants) :
    routine'.labelled = routine.labelled.map r.place := by
  have hreaches : ∀ id ∈ routine.steps.flatMap (fun step => step.inst.branchTargets step.following),
      routine.Reaches routine.start id :=
    fun id hid => hvalid.reaches_labelled (mem_firstUses.mpr hid)
  rw [Routine.labelled, h.steps_eq hvalid, List.flatMap_map,
    List.flatMap_congr fun step hstep => h.branchTargets_step hvalid hstep, ← List.map_flatMap]
  exact firstUses_map fun a ha b hb => h.places (hreaches a ha) (hreaches b hb)

/-- What can be reached has the label that it had, or none. -/
theorem label?_place (h : r.Arranges routine routine') (hvalid : routine.Valid constants)
    (base : Nat) (hid : routine.Reaches routine.start id) :
    (Asm.Context.of constants base routine').label? (r.place id) =
      (Asm.Context.of constants base routine).label? id := by
  have hmem : r.place id ∈ routine.labelled.map r.place ↔ id ∈ routine.labelled := by
    refine ⟨fun hplace => ?_, List.mem_map_of_mem⟩
    obtain ⟨other, hother, heq⟩ := List.mem_map.mp hplace
    exact h.places (hvalid.reaches_labelled hother) hid heq ▸ hother
  have hplace : (routine.labelled.map r.place).idxOf (r.place id) = routine.labelled.idxOf id :=
    idxOf_map fun other hother => h.places (hvalid.reaches_labelled hother) hid
  change (if r.place id ∈ routine'.labelled then some (base + routine'.labelled.idxOf (r.place id))
    else none) = if id ∈ routine.labelled then some (base + routine.labelled.idxOf id) else none
  rw [h.labelled_eq hvalid, hplace]
  by_cases hlabel : id ∈ routine.labelled
  · rw [if_pos hlabel, if_pos (hmem.mpr hlabel)]
  · rw [if_neg hlabel, if_neg (mt hmem.mp hlabel)]

/-! ## Slots

The frame lists the registers in the order in which they are used first. -/

/-- The registers of the frame are renamed in order. -/
theorem frame_eq (h : r.Arranges routine routine') (hvalid : routine.Valid constants) :
    routine'.frame = routine.frame.map r.register := by
  have howns : ∀ register ∈ routine.args.map Register.temp ++
      routine.steps.flatMap (fun step => step.inst.kind.uses), routine.owns register = true :=
    fun register hmem => hvalid.owns_of_mem_frame (mem_firstUses.mpr hmem)
  have hargs :
    routine'.args.map Register.temp = (routine.args.map Register.temp).map r.register := by
    rw [h.args, List.map_map, List.map_map]
    rfl
  have huses : routine'.steps.flatMap (fun step => step.inst.kind.uses) =
      (routine.steps.flatMap fun step => step.inst.kind.uses).map r.register := by
    rw [h.steps_eq hvalid, List.flatMap_map, List.map_flatMap]
    exact List.flatMap_congr fun step _ => r.uses_kind step.inst.kind
  rw [Routine.frame, hargs, huses, ← List.map_append]
  exact firstUses_map fun a ha b hb => h.register_injective (howns a ha) (howns b hb)

/-- A register has the slot that it had. -/
theorem slot_register (h : r.Arranges routine routine') (hvalid : routine.Valid constants)
    (base : Nat) {register : Register} (hregister : routine.owns register = true) :
    (Asm.Context.of constants base routine').slot (r.register register) =
      (Asm.Context.of constants base routine).slot register := by
  have hplace : (routine.frame.map r.register).idxOf (r.register register) =
      routine.frame.idxOf register :=
    idxOf_map fun other hother =>
      h.register_injective (hvalid.owns_of_mem_frame hother) hregister
  rw [Asm.Context.slot, Asm.Context.slot]
  simp only [Asm.Context.of, h.frame_eq hvalid, hplace]

/-- In particular a register for a value has the slot that it had. -/
theorem temp_slot (h : r.Arranges routine routine') (hvalid : routine.Valid constants) (base : Nat)
    {t : Temp} (ht : routine.owns (.temp t) = true) :
    (Asm.Context.of constants base routine').temp (r.temp t) =
      (Asm.Context.of constants base routine).temp t :=
  h.slot_register hvalid base ht

end Arranges

end Rearrangement

/-! ## Code

The code of an instruction asks its context for the slots of its registers and for nothing else. The
lemmas follow the parts that code is put together from. -/

namespace Asm

/-- Two contexts that say the same of some registers, each by its own name for them. -/
structure Context.SameSlots (r : Rearrangement) (ctx ctx' : Context) (registers : List Register) :
    Prop where
  constants : ctx'.constants = ctx.constants
  name : ctx'.name = ctx.name
  slot : ∀ register ∈ registers, ctx'.slot (r.register register) = ctx.slot register

variable {r : Rearrangement} {ctx ctx' : Context} {registers : List Register}

/-- The slot of a register for a value. -/
theorem Context.SameSlots.temp (h : ctx.SameSlots r ctx' registers) {t : Temp}
    (ht : .temp t ∈ registers) : ctx'.temp (r.temp t) = ctx.temp t :=
  h.slot (.temp t) ht

/-- The slot of a register for an address. -/
theorem Context.SameSlots.addr (h : ctx.SameSlots r ctx' registers) {a : Addr}
    (ha : .addr a ∈ registers) : ctx'.addr (r.addr a) = ctx.addr a :=
  h.slot (.addr a) ha

/-- What is read is loaded from the same slot, or is the same constant. -/
theorem loadOperand_operand {src : WordLang.Operand} {reg : Reg}
    (h : ctx.SameSlots r ctx' src.register?.toList) :
    loadOperand ctx' reg (r.operand src) = loadOperand ctx reg src := by
  cases src with
  | temp t => rw [Rearrangement.operand, loadOperand, h.temp List.mem_cons_self, loadOperand]
  | addr a => rw [Rearrangement.operand, loadOperand, h.addr List.mem_cons_self, loadOperand]
  | const id => rw [Rearrangement.operand, loadOperand, h.constants, h.name, loadOperand]

section

variable {args : List Temp} (h : ∀ arg ∈ args, ctx'.temp (r.temp arg) = ctx.temp arg)

include h

/-- Arguments in machine registers come from the same slots. -/
theorem loadArgs_map : loadArgs ctx' (args.map r.temp) = loadArgs ctx args := by
  rw [loadArgs, List.zip_map_left, List.map_map, loadArgs]
  refine List.map_congr_left fun pair hpair => ?_
  have harg : pair.1 ∈ args := (List.of_mem_zip hpair).1
  simp only [Function.comp_apply, Prod.map, id_eq, h pair.1 harg]

/-- So do those on the stack. -/
theorem pushArgs_map : pushArgs ctx' (args.map r.temp) = pushArgs ctx args := by
  rw [pushArgs, ← List.map_reverse, List.map_map, pushArgs]
  refine List.map_congr_left fun arg harg => ?_
  simp only [Function.comp_apply, h arg (List.mem_reverse.mp harg)]

/-- Arguments of the routine itself go to the same slots. -/
theorem bindArgs_map (index : Nat) :
    bindArgs ctx' index (args.map r.temp) = bindArgs ctx index args := by
  induction args generalizing index with
  | nil => rfl
  | cons arg rest ih =>
    rw [List.forall_mem_cons] at h
    rw [List.map_cons, bindArgs, ih h.2, bindArg, h.1, bindArgs, bindArg]

end

/-- A call is written the same way. -/
theorem callCode_map {dst : Option Temp} {callee : String} {args : List Temp}
    (hdst : ∀ t ∈ dst, ctx'.temp (r.temp t) = ctx.temp t)
    (hargs : ∀ arg ∈ args, ctx'.temp (r.temp arg) = ctx.temp arg) :
    callCode ctx' (dst.map r.temp) callee (args.map r.temp) = callCode ctx dst callee args := by
  have htake : ∀ arg ∈ args.take argRegs.length, ctx'.temp (r.temp arg) = ctx.temp arg :=
    fun arg harg => hargs arg (List.mem_of_mem_take harg)
  have hdrop : ∀ arg ∈ args.drop argRegs.length, ctx'.temp (r.temp arg) = ctx.temp arg :=
    fun arg harg => hargs arg (List.mem_of_mem_drop harg)
  have hresult : (dst.map r.temp).toList.map (fun t => Instr.mov (.reg .rax) (ctx'.temp t)) =
      dst.toList.map fun t => Instr.mov (.reg .rax) (ctx.temp t) := by
    cases dst with
    | none => rfl
    | some t =>
      simp only [Option.map_some, Option.toList_some, List.map_cons, List.map_nil, hdst t rfl]
  simp only [callCode, ← List.map_take, ← List.map_drop, loadArgs_map htake,
    pushArgs_map hdrop, hresult, alignCode, popArgs, List.length_map]

/-- An instruction is written the same way. -/
theorem instCode_kind {kind : InstKind} (h : ctx.SameSlots r ctx' kind.registers) :
    instCode ctx' (r.kind kind) = instCode ctx kind := by
  have htemp : ∀ t, .temp t ∈ kind.registers → ctx'.temp (r.temp t) = ctx.temp t := fun t => h.temp
  have haddr : ∀ a, .addr a ∈ kind.registers → ctx'.addr (r.addr a) = ctx.addr a := fun a => h.addr
  cases kind with
  | nop => rfl
  | jump cond => rfl
  | copy dst src =>
    have hsrc : ctx.SameSlots r ctx' src.register?.toList := by
      refine { h with
        slot := fun register hregister => h.slot register (List.mem_cons_of_mem _ ?_) }
      cases src <;> exact hregister
    rw [Rearrangement.kind, instCode, loadOperand_operand hsrc, htemp dst (.head _), instCode]
  | arith op dst left right =>
    have hdst := htemp dst (.head _)
    have hleft := htemp left (.tail _ (.head _))
    have hright := htemp right (.tail _ (.tail _ (.head _)))
    cases op <;>
      simp only [Rearrangement.kind, instCode, arithCode, inPlaceCode, hdst, hleft, hright]
  | compare op dst left right =>
    have hdst := htemp dst (.head _)
    have hleft := htemp left (.tail _ (.head _))
    have hright := htemp right (.tail _ (.tail _ (.head _)))
    simp only [Rearrangement.kind, instCode, hdst, hleft, hright]
  | not dst operand =>
    have hdst := htemp dst (.head _)
    have hoperand := htemp operand (.tail _ (.head _))
    simp only [Rearrangement.kind, instCode, hdst, hoperand]
  | addressAt dst base offset =>
    have hdst := haddr dst (.head _)
    cases offset with
    | none => simp only [Rearrangement.kind, instCode, addressCode, Option.map_none, hdst]
    | some offset =>
      have hoffset := htemp offset (.tail _ (.head _))
      simp only [Rearrangement.kind, instCode, addressCode, Option.map_some, hdst, hoffset]
  | load dst src =>
    have hdst := htemp dst (.head _)
    have hsrc := haddr src (.tail _ (.head _))
    simp only [Rearrangement.kind, instCode, hdst, hsrc]
  | store src dst =>
    have hsrc := htemp src (.head _)
    have hdst := haddr dst (.tail _ (.head _))
    simp only [Rearrangement.kind, instCode, hsrc, hdst]
  | ret value =>
    cases value with
    | none => rfl
    | some value =>
      have hvalue := htemp value (.head _)
      simp only [Rearrangement.kind, instCode, Option.map_some, Option.toList_some, List.map_cons,
        List.map_nil, hvalue]
  -- the only kind with a list of registers: its code is compared argument by argument
  | call dst callee args =>
    have hdst : ∀ t ∈ dst, ctx'.temp (r.temp t) = ctx.temp t := by
      rintro t rfl
      exact htemp t (.head _)
    have hargs : ∀ arg ∈ args, ctx'.temp (r.temp arg) = ctx.temp arg := by
      intro arg harg
      refine htemp arg (List.mem_append_right _ (List.mem_filterMap.mpr ⟨.temp arg, ?_, rfl⟩))
      exact List.mem_map_of_mem harg
    rw [Rearrangement.kind, instCode, callCode_map hdst hargs, instCode]

/-! ## Routines

The contexts of the two routines say the same of what the routine owns and of what can be reached.
-/

section

variable {routine routine' : Routine} {constants : List Constant} {base : Nat} {step : Routine.Step}
  {id : InstId}

/-- They give the same slots to registers that the routine owns. -/
theorem sameSlots (h : r.Arranges routine routine') (hvalid : routine.Valid constants)
    (hregisters : ∀ register ∈ registers, routine.owns register = true) :
    (Context.of constants base routine).SameSlots r (Context.of constants base routine')
      registers where
  constants := rfl
  name := h.name
  slot register hmem := h.slot_register hvalid base (hregisters register hmem)

/-- A branch goes to the same label. -/
theorem branchTo_place (h : r.Arranges routine routine') (hvalid : routine.Valid constants)
    (hstep : step ∈ routine.steps) (hid : id ∈ step.inst.branchTargets step.following)
    (branch : Nat → Instr) :
    branchTo (Context.of constants base routine') branch (r.place id) =
      branchTo (Context.of constants base routine) branch id := by
  have hreaches := hvalid.reaches_successor hstep
    (Routine.mem_successors_of_branchTargets hid)
  obtain ⟨label, hlabel⟩ : ∃ label, (Context.of constants base routine).label? id = some label :=
    Context.exists_label hstep hid
  rw [branchTo, h.label?_place hvalid base hreaches, hlabel, branchTo, hlabel]

/-- Going on takes the same branch, or none in both. -/
theorem continueTo_place (h : r.Arranges routine routine') (hvalid : routine.Valid constants)
    (hstep : step ∈ routine.steps) (hid : id ∈ step.inst.successors)
    (hbranch : step.following ≠ some id → id ∈ step.inst.branchTargets step.following) :
    continueTo (Context.of constants base routine') (step.following.map r.place) (r.place id) =
      continueTo (Context.of constants base routine) step.following id := by
  have hiff := h.following_iff hvalid hstep
    (hvalid.reaches_successor hstep hid)
  by_cases hfollowing : step.following = some id
  · rw [continueTo, if_pos (hiff.mpr hfollowing), continueTo, if_pos hfollowing]
  · rw [continueTo, if_neg (mt hiff.mp hfollowing), continueTo, if_neg hfollowing,
      branchTo_place h hvalid hstep (hbranch hfollowing)]

/-- The way on from a step is written the same way. -/
theorem exitCode_step (h : r.Arranges routine routine') (hvalid : routine.Valid constants)
    (hstep : step ∈ routine.steps) :
    exitCode (Context.of constants base routine') (r.step step) =
      exitCode (Context.of constants base routine) step := by
  -- a valid instruction stops, goes on or forks, and the code after it depends on nothing else
  have hsound := hvalid.sound_of_mem_steps hstep
  cases hsound.leadsOn with
  | stop hjump hnext =>
    have hjump' : (r.step step).inst.kind.isJump = false := (r.isJump_kind _).trans hjump
    have hnext' : (r.step step).inst.next = none := congrArg (Option.map r.place) hnext
    rw [exitCode_end hjump' hnext', exitCode_end hjump hnext]
  | @next target hjump hnext =>
    have hjump' : (r.step step).inst.kind.isJump = false := (r.isJump_kind _).trans hjump
    have hnext' : (r.step step).inst.next = some (r.place target) :=
      congrArg (Option.map r.place) hnext
    rw [exitCode_next hjump' hnext', exitCode_next hjump hnext]
    refine continueTo_place h hvalid hstep (by simp [Inst.successors, hnext]) fun hne => ?_
    simp [Inst.branchTargets, hnext, hne]
  | @jump cond onFalse onTrue hkind hnext htrue =>
    have hkind' : (r.step step).inst.kind = .jump (r.temp cond) := congrArg r.kind hkind
    have hnext' : (r.step step).inst.next = some (r.place onFalse) :=
      congrArg (Option.map r.place) hnext
    have htrue' : (r.step step).inst.onTrue = some (r.place onTrue) :=
      congrArg (Option.map r.place) htrue
    have hcond : (Context.of constants base routine').temp (r.temp cond) =
        (Context.of constants base routine).temp cond := by
      refine h.temp_slot hvalid base (hsound.owned _ ?_)
      rw [hkind]
      exact List.mem_cons_self
    have hfalse : branchTo (Context.of constants base routine') .je (r.place onFalse) =
        branchTo (Context.of constants base routine) .je onFalse :=
      branchTo_place h hvalid hstep
        (by simp [Inst.branchTargets, InstKind.isJump, hkind, hnext]) .je
    have hcontinue : continueTo (Context.of constants base routine') (r.step step).following
        (r.place onTrue) = continueTo (Context.of constants base routine)
          step.following onTrue := by
      refine continueTo_place h hvalid hstep (by simp [Inst.successors, htrue]) fun hne => ?_
      simp [Inst.branchTargets, htrue, hne]
    rw [exitCode_jump hkind' hnext' htrue', exitCode_jump hkind hnext htrue, hcond,
      hfalse, hcontinue]

/-- So is the whole step. -/
theorem stepCode_step (h : r.Arranges routine routine') (hvalid : routine.Valid constants)
    (hstep : step ∈ routine.steps) :
    stepCode (Context.of constants base routine') (r.step step) =
      stepCode (Context.of constants base routine) step := by
  have hslots : (Context.of constants base routine).SameSlots r (Context.of constants base routine')
      step.inst.kind.registers := sameSlots h hvalid (hvalid.sound_of_mem_steps hstep).owned
  have hlabel := h.label?_place hvalid base (hvalid.reaches_step hstep)
  rw [stepCode, exitCode_step h hvalid hstep, stepCode]
  exact congrArg₂ (fun label code => { lines := label.toList.map Line.label } ++ (code ++ _)) hlabel
    (instCode_kind hslots)

/-- A rearranged routine is written the same way. -/
theorem routineCode_of_arranges (h : r.Arranges routine routine')
    (hnone : routine.violation? constants = none) (base : Nat) :
    routineCode constants base routine' = routineCode constants base routine := by
  have hvalid := Routine.valid_of_violation? hnone
  have hvalid' := Routine.valid_of_violation? (h.violation?_eq_none hnone)
  have hsteps : routine'.steps.map (stepCode (Context.of constants base routine')) =
      routine.steps.map (stepCode (Context.of constants base routine)) := by
    rw [h.steps_eq hvalid, List.map_map]
    exact List.map_congr_left fun step hstep => stepCode_step h hvalid hstep
  have hargs : bindArgs (Context.of constants base routine') 0 (routine.args.map r.temp) =
      bindArgs (Context.of constants base routine) 0 routine.args :=
    bindArgs_map (fun arg harg => h.temp_slot hvalid base (hvalid.args arg harg)) 0
  have hprologue : prologue (Context.of constants base routine') routine' =
      prologue (Context.of constants base routine) routine := by
    rw [prologue, h.name, h.args, hargs, Routine.frameWords, h.temps, h.addrs, prologue,
      Routine.frameWords]
  rw [routineCode, hvalid'.steps_complete.2, routineCode, hvalid.steps_complete.2]
  simp only [hprologue, hsteps]

end

/-! ## Programs

One routine at a time: each may be rearranged in its own way. The numbers of labels go on from one
routine to the next, and each needs as many as before. -/

/-- If no routine has a violation, then none has one after it was rearranged. -/
theorem violation?_of_arranges {constants : List Constant} {routines routines' : List Routine}
    (h : List.Forall₂ (fun routine routine' => ∃ r : Rearrangement, r.Arranges routine routine')
      routines routines')
    (hnone : ∀ routine ∈ routines, routine.violation? constants = none) :
    ∀ routine' ∈ routines', routine'.violation? constants = none := by
  induction h with
  | nil => exact fun _ hmem => absurd hmem List.not_mem_nil
  | cons harranges _ ih =>
    obtain ⟨r, harranges⟩ := harranges
    rw [List.forall_mem_cons] at hnone ⊢
    exact ⟨harranges.violation?_eq_none hnone.1, ih hnone.2⟩

/-- The sections of the routines are the same, with the same numbers for their labels. -/
theorem routineSections_of_arranges {constants : List Constant} {routines routines' : List Routine}
    (h : List.Forall₂ (fun routine routine' => ∃ r : Rearrangement, r.Arranges routine routine')
      routines routines')
    (hnone : ∀ routine ∈ routines, routine.violation? constants = none) (nextLabel : Nat) :
    routineSections constants nextLabel routines' =
      routineSections constants nextLabel routines := by
  induction h generalizing nextLabel with
  | nil => rfl
  | cons harranges _ ih =>
    obtain ⟨r, harranges⟩ := harranges
    rw [List.forall_mem_cons] at hnone
    have hvalid := Routine.valid_of_violation? hnone.1
    rw [routineSections, harranges.labelled_eq hvalid, List.length_map,
      routineCode_of_arranges harranges hnone.1, ih hnone.2, routineSections]

end Asm

/-- The second program is the first one with its routines rearranged, each in its own way. -/
structure Program.RearrangedAs (program program' : Program) : Prop where
  globals : program'.globals = program.globals
  constants : program'.constants = program.constants
  routines : List.Forall₂
    (fun routine routine' => ∃ r : Rearrangement, r.Arranges routine routine')
    program.routines program'.routines

/-- A program whose routines are rearranged is valid if it was valid before, and has the same
assembly: whatever number its labels start from, and whatever the sink that it is written to. -/
theorem Program.emit_of_rearrangedAs {program program' : Program}
    (hnone : program.violation? = none) (h : program.RearrangedAs program') :
    program'.violation? = none ∧
      ∀ nextLabel room, Asm.emit program' nextLabel room = Asm.emit program nextLabel room := by
  have hnone := List.findSome?_eq_none_iff.mp hnone
  refine ⟨List.findSome?_eq_none_iff.mpr ?_, fun nextLabel room => ?_⟩
  · rw [h.constants]
    exact Asm.violation?_of_arranges h.routines hnone
  · rw [Asm.emit, Asm.sections, h.globals, h.constants,
      Asm.routineSections_of_arranges h.routines hnone, Asm.emit, Asm.sections]

/-- A routine that counts a global down by its argument. -/
def drained : Routine where
  name := "drained"
  ty := .func [.int] .int
  args := [⟨0⟩]
  temps := 2
  addrs := 1
  insts := #[
    { kind := .addressAt ⟨0⟩ (.declared 6 "total" .int) none, next := some 1 },
    { kind := .load ⟨1⟩ ⟨0⟩, next := some 2 },
    { kind := .jump ⟨1⟩, next := some 4, onTrue := some 3 },
    { kind := .arith .sub ⟨1⟩ ⟨1⟩ ⟨0⟩, next := some 2 },
    { kind := .store ⟨1⟩ ⟨0⟩, next := some 5 },
    { kind := .ret (some ⟨1⟩) }]

/-- From the last instruction to the first, with a place left free between two of them, and with the
two registers for values exchanged. -/
def spreading : Rearrangement where
  place id := 11 - 2 * id
  temp t := ⟨1 - t.index⟩
  addr a := a

/-- The same routine spread out. What is in the free places is not even valid. -/
def spread : Routine :=
  let stray : Inst := { kind := .copy ⟨7⟩ (.const 9), next := some 30, onTrue := some 0 }
  { drained with
    start := 11
    args := [⟨1⟩]
    insts := #[
      stray, { kind := .ret (some ⟨0⟩) },
      stray, { kind := .store ⟨0⟩ ⟨0⟩, next := some 1 },
      stray, { kind := .arith .sub ⟨0⟩ ⟨0⟩ ⟨1⟩, next := some 7 },
      stray, { kind := .jump ⟨0⟩, next := some 3, onTrue := some 5 },
      stray, { kind := .load ⟨0⟩ ⟨0⟩, next := some 7 },
      stray, { kind := .addressAt ⟨0⟩ (.declared 6 "total" .int) none, next := some 9 }, stray] }

/-- The routine spread out is a rearrangement of the one that was written first. -/
theorem spreading_arranges : spreading.Arranges drained spread where
  name := rfl
  args := rfl
  start := rfl
  insts id inst _ hinst := by
    have hall :
      ∀ id < 6, spread.insts[spreading.place id]? = drained.insts[id]?.map spreading.inst := by
      decide
    have hlt : id < 6 := (Array.getElem?_eq_some_iff.mp hinst).1
    rw [hall id hlt, hinst, Option.map_some]
  places := by
    intro (first : Nat) hfirst (second : Nat) hsecond heq
    have hlt : ∀ id : Nat, drained.Reaches drained.start id → id < 6 := by
      have hclosed : drained.Closed {id | id < 6} := by
        rintro id - target ⟨inst, hinst, htarget⟩
        have hall : ∀ inst ∈ drained.insts, ∀ target ∈ inst.successors, target < 6 := by decide
        exact hall inst (Array.mem_of_getElem? hinst) target htarget
      exact fun id => hclosed.mem_of_reaches (by decide)
    have hfirst : first < 6 := hlt first hfirst
    have hsecond : second < 6 := hlt second hsecond
    have heq : 11 - 2 * first = 11 - 2 * second := heq
    have hsame : first = second := by omega
    exact hsame
  temps := rfl
  addrs := rfl
  permutesTemps := by
    have hinverse :
      Set.InvOn spreading.temp spreading.temp {t | t.index < 2} {t | t.index < 2} := by
      constructor <;>
        · rintro ⟨index⟩ hindex
          have hindex : index < 2 := hindex
          have hback : 1 - (1 - index) = index := by omega
          simp only [spreading, hback]
    have hmaps : Set.MapsTo spreading.temp {t | t.index < 2} {t | t.index < 2} := by
      intro t _
      have hlt : 1 - t.index < 2 := by omega
      exact hlt
    exact hinverse.bijOn hmaps hmaps
  permutesAddrs := Set.bijOn_id _

/-- Both are written the same way. -/
theorem Program.emit_of_rearrangedAs_spread :
    let program : Program := { routines := [drained] }
    let program' : Program := { routines := [spread] }
    program.violation? = none ∧ program.RearrangedAs program' ∧ program'.violation? = none ∧
      Asm.emit program' 7 (.lines 12) = Asm.emit program 7 (.lines 12) := by
  intro program program'
  have hnone : program.violation? = none := by decide +kernel
  have hrearranged : program.RearrangedAs program' :=
    ⟨rfl, rfl, .cons ⟨spreading, spreading_arranges⟩ .nil⟩
  obtain ⟨hvalid, hemit⟩ := Program.emit_of_rearrangedAs hnone hrearranged
  exact ⟨hnone, hrearranged, hvalid, hemit 7 (.lines 12)⟩

end WordLang
