import Mathlib.Data.Set.Function
import WordLang.Asm.Layout
import WordLang.Proofs.Program.Schedule

/-!
# Rearranged routines

The same graph can be held in different arenas. Its instructions may be at other places, next to
others that nothing leads to, and its registers may have other numbers. A `Rearrangement` says what
went where, and `Rearrangement.Arranges` that a routine is what becomes of another one that way.
Nothing is asked of the instructions which cannot be reached.

All that follows an edge from the start goes the same way in both arenas: what can be reached, the
schedule and its steps (`Arranges.steps_eq`). So the second routine is valid if the first one is
(`Arranges.violation?_eq_none`).

Places and registers must stay apart, but only those that count: a rearrangement may be anything
outside of what can be reached and outside of the registers that the routine owns. So every
statement here has to say that it is about a place that can be reached. This is why the search for
the schedule is followed with an invariant: whatever is on its stack can be reached, and so it has
the same edges in both arenas (`depthFirst_map`).
-/

namespace WordLang

/-! ## What validity says of what can be reached

A valid routine has, at each place that can be reached, an instruction that is sound; and this is
all that validity says of its instructions. -/

namespace Routine

variable {routine : Routine} {constants : List Constant}

/-- Where control can get there is a sound instruction. -/
theorem Valid.exists_sound (h : routine.Valid constants) {id : InstId}
    (hid : routine.Reaches routine.start id) :
    ∃ inst, routine.insts[id]? = some inst ∧ inst.Sound constants routine :=
  h.scheduled id (h.mem_schedule_iff_reaches.mpr hid)

/-- There is no violation if the start is in the arena, the arguments are registers of the routine,
and no instruction that can be reached has one. -/
theorem violation?_eq_none_iff :
    routine.violation? constants = none ↔
      routine.holds routine.start = true ∧ (∀ arg ∈ routine.args, routine.owns (.temp arg) = true) ∧
        ∀ id ∈ routine.reachable, routine.instViolation? constants id = none := by
  rw [violation?, ← List.findSome?_eq_none_iff, ← List.all_eq_true]
  rcases routine.holds routine.start with _ | _
  · simp
  · rcases routine.args.all fun arg => routine.owns (.temp arg) with _ | _ <;> simp

end Routine

/-- Listing what comes next, before or after renaming. -/
theorem withFollowing_map {α β : Type} (f : α → β) (items : List α) :
    withFollowing (items.map f) = (withFollowing items).map (Prod.map f (Option.map f)) := by
  induction items with
  | nil => rfl
  | cons item rest ih =>
    rw [List.map_cons, withFollowing, ih, List.head?_map, withFollowing]
    rfl

/-! ## Rearrangements -/

/-- The place that each instruction goes to, and the register that each register becomes. -/
structure Rearrangement where
  place : InstId → InstId
  temp : Temp → Temp
  addr : Addr → Addr

namespace Rearrangement

variable (r : Rearrangement)

/-- What becomes of a register. -/
def register : Register → Register
  | .temp t => .temp (r.temp t)
  | .addr a => .addr (r.addr a)

/-- What becomes of something that is read. Constants stay in their pool. -/
def operand : Operand → Operand
  | .temp t => .temp (r.temp t)
  | .addr a => .addr (r.addr a)
  | .const id => .const id

/-- What becomes of what an instruction does. -/
def kind : InstKind → InstKind
  | .addressAt dst base offset => .addressAt (r.addr dst) base (offset.map r.temp)
  | .arith op dst left right => .arith op (r.temp dst) (r.temp left) (r.temp right)
  | .compare op dst left right => .compare op (r.temp dst) (r.temp left) (r.temp right)
  | .copy dst src => .copy (r.temp dst) (r.operand src)
  | .load dst src => .load (r.temp dst) (r.addr src)
  | .store src dst => .store (r.temp src) (r.addr dst)
  | .call dst callee args => .call (dst.map r.temp) callee (args.map r.temp)
  | .ret value => .ret (value.map r.temp)
  | .jump cond => .jump (r.temp cond)
  | .not dst operand => .not (r.temp dst) (r.temp operand)
  | .nop => .nop

/-- What becomes of an instruction with its edges. -/
def inst (inst : Inst) : Inst where
  kind := r.kind inst.kind
  next := inst.next.map r.place
  onTrue := inst.onTrue.map r.place

/-- What becomes of a step of the schedule. -/
def step (step : Routine.Step) : Routine.Step where
  id := r.place step.id
  inst := r.inst step.inst
  following := step.following.map r.place

/-- The second routine is what becomes of the first. Nothing is asked of the places of its arena
that are left over, nor of its size. -/
structure Arranges (routine routine' : Routine) : Prop where
  name : routine'.name = routine.name
  args : routine'.args = routine.args.map r.temp
  start : routine'.start = r.place routine.start
  /-- what can be reached is at its new place -/
  insts : ∀ id inst, routine.Reaches routine.start id → routine.insts[id]? = some inst →
    routine'.insts[r.place id]? = some (r.inst inst)
  /-- and has that place for itself -/
  places : Set.InjOn r.place {id | routine.Reaches routine.start id}
  /-- there are as many registers as before, numbered in another order -/
  temps : routine'.temps = routine.temps
  addrs : routine'.addrs = routine.addrs
  permutesTemps : Set.BijOn r.temp {t | t.index < routine.temps} {t | t.index < routine.temps}
  permutesAddrs : Set.BijOn r.addr {a | a.index < routine.addrs} {a | a.index < routine.addrs}

/-! ## Instructions

What an instruction is does not change, and what it mentions is renamed one by one. -/

/-- A jump stays a jump. -/
theorem isJump_kind (kind : InstKind) : (r.kind kind).isJump = kind.isJump := by
  cases kind <;> rfl

/-- A return stays a return. -/
theorem isReturn_kind (kind : InstKind) : (r.kind kind).isReturn = kind.isReturn := by
  cases kind <;> rfl

/-- What is written to is renamed. -/
theorem dst_kind (kind : InstKind) : (r.kind kind).dst = kind.dst.map r.register := by
  cases kind with
  | call dst callee args => cases dst <;> rfl
  | _ => rfl

/-- So is what is read. -/
theorem operands_kind (kind : InstKind) : (r.kind kind).operands = kind.operands.map r.operand := by
  cases kind with
  | addressAt dst base offset => cases offset <;> rfl
  | call dst callee args =>
    simp only [Rearrangement.kind, InstKind.operands, List.map_map]
    rfl
  | ret value => cases value <;> rfl
  | _ => rfl

/-- A register that is read is still a register; a constant is still none. -/
theorem register?_operand (operand : Operand) :
    (r.operand operand).register? = operand.register?.map r.register := by
  cases operand <;> rfl

/-- The registers that an instruction mentions are renamed in order. -/
theorem registers_kind (kind : InstKind) :
    (r.kind kind).registers = kind.registers.map r.register := by
  rw [InstKind.registers, dst_kind, operands_kind, List.filterMap_map, InstKind.registers,
    List.map_append, List.map_filterMap]
  congr 1
  · cases kind.dst <;> rfl
  · simp only [Function.comp_def, register?_operand]

/-- No constants are added. -/
theorem const_mem_operands {kind : InstKind} {id : ConstId}
    (h : Operand.const id ∈ (r.kind kind).operands) : Operand.const id ∈ kind.operands := by
  rw [operands_kind] at h
  obtain ⟨operand, hmem, hoperand⟩ := List.mem_map.mp h
  cases operand with
  | const id' => cases hoperand; exact hmem
  | _ => cases hoperand

/-- Edges lead to where their targets went. -/
theorem successors_inst (inst : Inst) : (r.inst inst).successors = inst.successors.map r.place := by
  obtain ⟨kind, next, onTrue⟩ := inst
  cases next <;> cases onTrue <;> rfl

/-- A call passes as many arguments as it did. -/
theorem arityViolation?_inst {site site' : Site} {inst : Inst}
    (h : inst.arityViolation? site = none) : (r.inst inst).arityViolation? site' = none := by
  obtain ⟨kind, next, onTrue⟩ := inst
  cases kind with
  | call dst callee args =>
    simp only [Inst.arityViolation?, Rearrangement.inst, Rearrangement.kind, List.length_map] at h ⊢
    split
    · next params ret hty =>
      rw [hty] at h
      simp only at h
      split at h
      · next hlength => rw [if_pos hlength]
      · cases h
    · rfl
  | _ => rfl

/-! ## Registers

A rearrangement keeps registers of the routine inside of the second one's, and apart. -/

namespace Arranges

variable {r} {routine routine' : Routine} {constants : List Constant}

/-- A register for a value becomes one that the second routine owns. -/
theorem owns_temp (h : r.Arranges routine routine') {t : Temp}
    (ht : routine.owns (.temp t) = true) :
    routine'.owns (.temp (r.temp t)) = true := by
  rw [Routine.owns, h.temps]
  exact decide_eq_true (h.permutesTemps.mapsTo (of_decide_eq_true ht))

/-- So does any register. -/
theorem owns_register (h : r.Arranges routine routine') {register : Register}
    (hregister : routine.owns register = true) : routine'.owns (r.register register) = true := by
  cases register with
  | temp t => exact h.owns_temp hregister
  | addr a =>
    rw [register, Routine.owns, h.addrs]
    exact decide_eq_true (h.permutesAddrs.mapsTo (of_decide_eq_true hregister))

/-- Registers that a routine owns stay apart. -/
theorem register_injective (h : r.Arranges routine routine') {first second : Register}
    (hfirst : routine.owns first = true) (hsecond : routine.owns second = true)
    (heq : r.register first = r.register second) : first = second := by
  cases first with
  | temp t =>
    cases second with
    | temp t' =>
      have ht : r.temp t = r.temp t' := Register.temp.inj heq
      exact congrArg Register.temp
        (h.permutesTemps.injOn (of_decide_eq_true hfirst) (of_decide_eq_true hsecond) ht)
    | addr a' => cases heq
  | addr a =>
    cases second with
    | temp t' => cases heq
    | addr a' =>
      have ha : r.addr a = r.addr a' := Register.addr.inj heq
      exact congrArg Register.addr
        (h.permutesAddrs.injOn (of_decide_eq_true hfirst) (of_decide_eq_true hsecond) ha)

/-! ## What can be reached

Paths in the second arena come from paths in the first. By induction on the path: it ends at a place
that can be reached, which has the same edges as before. -/

/-- In the second arena nothing can be reached but what could be reached in the first. -/
theorem exists_of_reaches (h : r.Arranges routine routine') (hvalid : routine.Valid constants)
    {id' : InstId} (hreaches : routine'.Reaches routine'.start id') :
    ∃ id, routine.Reaches routine.start id ∧ r.place id = id' := by
  induction hreaches with
  | refl => exact ⟨routine.start, .refl, h.start.symm⟩
  | tail _ hlinks ih =>
    obtain ⟨id, hid, rfl⟩ := ih
    obtain ⟨inst, hinst, -⟩ := hvalid.exists_sound hid
    obtain ⟨inst', hinst', htarget⟩ := hlinks
    obtain rfl := Option.some.inj ((h.insts id inst hid hinst).symm.trans hinst')
    rw [successors_inst] at htarget
    obtain ⟨target, hmem, rfl⟩ := List.mem_map.mp htarget
    exact ⟨target, hid.tail ⟨inst, hinst, hmem⟩, rfl⟩

/-- What is sound where it was is sound where it is put. -/
theorem sound_inst (h : r.Arranges routine routine') (hvalid : routine.Valid constants)
    {id : InstId} {inst : Inst} (hid : routine.Reaches routine.start id)
    (hinst : routine.insts[id]? = some inst) (hsound : inst.Sound constants routine) :
    (r.inst inst).Sound constants routine' where
  targets id' hid' := by
    rw [successors_inst] at hid'
    obtain ⟨target, htarget, rfl⟩ := List.mem_map.mp hid'
    have hreaches : routine.Reaches routine.start target := hid.tail ⟨inst, hinst, htarget⟩
    obtain ⟨inst', hinst', -⟩ := hvalid.exists_sound hreaches
    exact (Array.getElem?_eq_some_iff.mp (h.insts target inst' hreaches hinst')).1
  complete hjump := by
    rw [Rearrangement.inst, isJump_kind] at hjump
    obtain ⟨hnext, htrue⟩ := hsound.complete hjump
    simp only [Rearrangement.inst, Option.isSome_map, hnext, htrue, and_self]
  branch htrue := by
    rw [Rearrangement.inst, Option.isSome_map] at htrue
    rw [Rearrangement.inst, isJump_kind]
    exact hsound.branch htrue
  final hret := by
    rw [Rearrangement.inst, isReturn_kind] at hret
    rw [successors_inst, hsound.final hret, List.map_nil]
  owned register hregister := by
    rw [Rearrangement.inst, registers_kind] at hregister
    obtain ⟨register, hmem, rfl⟩ := List.mem_map.mp hregister
    exact h.owns_register (hsound.owned register hmem)
  pooled id' hid' := hsound.pooled id' (r.const_mem_operands hid')

/-- A routine without a violation has none in another arena. -/
theorem violation?_eq_none (h : r.Arranges routine routine')
    (hnone : routine.violation? constants = none) : routine'.violation? constants = none := by
  have hvalid := Routine.valid_of_violation? hnone
  obtain ⟨-, hargs, hinsts⟩ := Routine.violation?_eq_none_iff.mp hnone
  obtain ⟨start, hstart, -⟩ := hvalid.exists_sound .refl
  refine Routine.violation?_eq_none_iff.mpr ⟨?_, fun arg' harg' => ?_, fun id' hid' => ?_⟩
  · rw [Routine.holds, h.start]
    exact decide_eq_true (Array.getElem?_eq_some_iff.mp (h.insts _ start .refl hstart)).1
  · rw [h.args] at harg'
    obtain ⟨arg, harg, rfl⟩ := List.mem_map.mp harg'
    exact h.owns_temp (hargs arg harg)
  · obtain ⟨id, hid, rfl⟩ := h.exists_of_reaches hvalid (Routine.mem_reachable_iff.mp hid').1
    obtain ⟨inst, hinst, hsound⟩ := hvalid.exists_sound hid
    have harity := hinsts id (hvalid.mem_reachable_iff_reaches.mpr hid)
    rw [Routine.instViolation?, hinst, Option.bind_some, hsound.violation?_eq] at harity
    rw [Routine.instViolation?, h.insts id inst hid hinst, Option.bind_some,
      (h.sound_inst hvalid hid hinst hsound).violation?_eq]
    exact r.arityViolation?_inst harity

/-! ## The schedule

The search through the second arena is the search through the first with the places renamed. -/

/-- From a place that can be reached, control goes on to where it went on to. -/
theorem onward_place (h : r.Arranges routine routine') (hvalid : routine.Valid constants)
    {id : InstId} (hid : routine.Reaches routine.start id) :
    routine'.onward (r.place id) = (routine.onward id).map r.place := by
  obtain ⟨inst, hinst, -⟩ := hvalid.exists_sound hid
  rw [Routine.onward, h.insts id inst hid hinst, Routine.onward, hinst]
  simp only [Rearrangement.inst, isJump_kind, Option.toList_map]
  split
  · rw [List.map_append]
  · rfl

/-- Both walks go the same way, as long as they are where something can be reached. -/
theorem depthFirst_map (h : r.Arranges routine routine') (hvalid : routine.Valid constants)
    {met stack : List InstId} (hmet : ∀ id ∈ met, routine.Reaches routine.start id)
    (hstack : ∀ id ∈ stack, routine.Reaches routine.start id) :
    routine'.depthFirst (met.map r.place) (stack.map r.place) =
      (routine.depthFirst met stack).map r.place := by
  fun_induction Routine.depthFirst routine met stack with
  | case1 met => rw [List.map_nil, Routine.depthFirst]
  | case2 met id stack hmem ih =>
    rw [List.forall_mem_cons] at hstack
    rw [List.map_cons, Routine.depthFirst, if_pos (List.mem_map_of_mem hmem), ih hmet hstack.2]
  | case3 met id stack hnew ih =>
    rw [List.forall_mem_cons] at hstack
    have hplace : r.place id ∉ met.map r.place := by
      intro hmem
      obtain ⟨other, hother, heq⟩ := List.mem_map.mp hmem
      exact hnew (h.places (hmet other hother) hstack.1 heq ▸ hother)
    have honward : ∀ target ∈ routine.onward id ++ stack, routine.Reaches routine.start target := by
      rw [List.forall_mem_append]
      exact ⟨fun target htarget => hstack.1.tail (Routine.mem_onward_iff.mp htarget).links,
        hstack.2⟩
    have hrest := ih (List.forall_mem_cons.mpr ⟨hstack.1, hmet⟩) honward
    rw [List.map_cons, List.map_append] at hrest
    rw [List.map_cons, Routine.depthFirst, if_neg hplace, h.onward_place hvalid hstack.1, hrest,
      List.map_cons]

/-- The schedule is renamed place by place. -/
theorem schedule_eq (h : r.Arranges routine routine') (hvalid : routine.Valid constants) :
    routine'.schedule = routine.schedule.map r.place := by
  rw [Routine.schedule, h.start]
  exact h.depthFirst_map hvalid (fun _ hid => absurd hid List.not_mem_nil)
    (List.forall_mem_singleton.mpr .refl)

/-- So are the steps, if the places they come from can be reached. -/
theorem stepsOf_map (h : r.Arranges routine routine') (hvalid : routine.Valid constants)
    {pairs : List (InstId × Option InstId)}
    (hpairs : ∀ pair ∈ pairs, routine.Reaches routine.start pair.1) :
    (routine'.stepsOf (pairs.map (Prod.map r.place (Option.map r.place)))).1 =
      (routine.stepsOf pairs).1.map r.step := by
  induction pairs with
  | nil => rfl
  | cons pair rest ih =>
    rw [List.forall_mem_cons] at hpairs
    obtain ⟨inst, hinst, -⟩ := hvalid.exists_sound hpairs.1
    rw [List.map_cons, Prod.map, Routine.stepsOf, h.insts _ inst hpairs.1 hinst,
      Routine.stepsOf, hinst]
    exact congrArg (_ :: ·) (ih hpairs.2)

/-- The same steps are taken, one after the other. -/
theorem steps_eq (h : r.Arranges routine routine') (hvalid : routine.Valid constants) :
    routine'.steps = routine.steps.map r.step := by
  rw [Routine.steps, h.schedule_eq hvalid, withFollowing_map, Routine.steps]
  refine h.stepsOf_map hvalid fun pair hpair => hvalid.mem_schedule_iff_reaches.mp ?_
  rw [← map_fst_withFollowing routine.schedule]
  exact List.mem_map_of_mem hpair

end Arranges

end Rearrangement

end WordLang
