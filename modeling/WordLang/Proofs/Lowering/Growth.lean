import WordLang.Program.Validity
import WordLang.Proofs.Lowering.Steps

/-!
# Lowering only adds

A builder only ever grows: `Grows b b'` says that `b'` has every instruction of `b` unchanged, with
both its edges, and that registers, constants and locals were only added.

In the middle of a construct that is not the whole story. A jump stands in the arena before its
edges are known, and the way out of a chain is linked by whoever asked for the chain. So a construct
that started from `b₀` is followed with `Builds b₀ out pending b`: up to now everything added since
`b₀` is as it should be, except that the jumps in `pending` wait for their edges; edges lead to what
was added since `b₀`, or to `out`, where a break leads. Each operation on builders has its rule for
`Builds`. A construct is then the chain of its rules, and ends with nothing pending.

The rules ask only for what can be seen where they are applied: that a register exists, that an
instruction was added by the construct, that an end is still open. Two rules join constructs:

* `Builds.trans` puts a part after what was built before. A break of the part may lead to what the
  construct had added by then, as the break of a loop body leads to the exit of the loop;
* `Builds.fork` sets both edges of a jump, and takes it off the list of those that wait.

What is known of one instruction, `Admits`, is kept as the builder grows: registers and constants
stay, and the arena only gets longer (`Admits.mono`).
-/

namespace WordLang

namespace Builder

/-- The instruction with the given handle. -/
def inst? (b : Builder) (id : InstId) : Option Inst :=
  b.routine.insts[id]?

variable {b b' b₀ b₁ b₂ : Builder} {id source target : Nat} {edge : Edge}

/-- Handles of instructions are below the size of the arena. -/
theorem lt_size {inst : Inst} (h : b.inst? id = some inst) : id < b.size :=
  (Array.getElem?_eq_some_iff.mp h).1

/-- After adding an instruction, the new handle has it and the others have what they had. -/
theorem inst?_push (kind : InstKind) :
    (b.push kind).inst? id = if id = b.size then some { kind } else b.inst? id :=
  Array.getElem?_push

/-- The new handle has the new instruction, without successors. -/
theorem inst?_push_size (kind : InstKind) : (b.push kind).inst? b.size = some { kind } := by
  rw [inst?_push, if_pos rfl]

/-- The handles from before have what they had. -/
theorem inst?_push_of_lt {kind : InstKind} (h : id < b.size) :
    (b.push kind).inst? id = b.inst? id := by
  rw [inst?_push, if_neg (Nat.ne_of_lt h)]

/-- After setting an edge, its source has the edge and the others have what they had. -/
theorem inst?_link :
    (b.link source target edge).inst? id =
      if source = id then (b.inst? id).map (·.link target edge) else b.inst? id :=
  Array.getElem?_modify

/-- The source of the edge has it. -/
theorem inst?_link_self :
    (b.link source target edge).inst? source = (b.inst? source).map (·.link target edge) := by
  rw [inst?_link, if_pos rfl]

/-- Any other instruction is left alone. -/
theorem inst?_link_of_ne (h : id ≠ source) :
    (b.link source target edge).inst? id = b.inst? id := by
  rw [inst?_link, if_neg (Ne.symm h)]

/-- Taking a register changes no instruction. -/
@[simp]
theorem inst?_takeTemp : b.takeTemp.inst? id = b.inst? id := rfl

/-- Nor does taking one for an address. -/
@[simp]
theorem inst?_takeAddr : b.takeAddr.inst? id = b.inst? id := rfl

/-- Nor does putting a constant in the pool. -/
@[simp]
theorem inst?_intern (constant : Constant) : (b.intern constant).inst? id = b.inst? id := rfl

/-- Nor does giving a local its register. -/
@[simp]
theorem inst?_bindNext (symbol : Symbol) : (b.bindNext symbol).inst? id = b.inst? id := rfl

/-! ## Growth

One rule for each operation on builders. Setting an edge is the only one that changes an
instruction, so it has to be at an instruction that was added since. -/

/-- The builder `b'` has everything that `b` has, unchanged. Instructions keep their edges too, so
growth alone does not allow an open end of `b` to be linked; a construct links only what it has
added itself. -/
structure Grows (b b' : Builder) : Prop where
  keeps : ∀ id < b.size, b'.inst? id = b.inst? id
  size_le : b.size ≤ b'.size
  temps_le : b.routine.temps ≤ b'.routine.temps
  addrs_le : b.routine.addrs ≤ b'.routine.addrs
  pool : b.constants <+: b'.constants
  /-- what was declared since then has registers taken since then -/
  locals : ∃ newer, b'.locals = newer ++ b.locals ∧
    ∀ entry ∈ newer, b.routine.temps ≤ entry.2.index ∧ entry.2.index < b'.routine.temps
  start_eq : b'.routine.start = b.routine.start
  args_eq : b'.routine.args = b.routine.args

namespace Grows

/-- A builder has everything that it has. -/
theorem refl (b : Builder) : b.Grows b where
  keeps _ _ := rfl
  size_le := Nat.le_refl _
  temps_le := Nat.le_refl _
  addrs_le := Nat.le_refl _
  pool := List.prefix_refl _
  locals := ⟨[], rfl, fun _ h => absurd h List.not_mem_nil⟩
  start_eq := rfl
  args_eq := rfl

/-- Growth is put together. -/
theorem trans (h₁ : b₀.Grows b₁) (h₂ : b₁.Grows b₂) : b₀.Grows b₂ where
  keeps id hid := by
    rw [h₂.keeps id (Nat.lt_of_lt_of_le hid h₁.size_le), h₁.keeps id hid]
  size_le := Nat.le_trans h₁.size_le h₂.size_le
  temps_le := Nat.le_trans h₁.temps_le h₂.temps_le
  addrs_le := Nat.le_trans h₁.addrs_le h₂.addrs_le
  pool := h₁.pool.trans h₂.pool
  locals := by
    obtain ⟨newer₁, he₁, hn₁⟩ := h₁.locals
    obtain ⟨newer₂, he₂, hn₂⟩ := h₂.locals
    refine ⟨newer₂ ++ newer₁, by rw [he₂, he₁, List.append_assoc], fun entry hentry => ?_⟩
    have hle₁ := h₁.temps_le
    have hle₂ := h₂.temps_le
    rcases List.mem_append.mp hentry with hmem | hmem
    · have := hn₂ entry hmem
      omega
    · have := hn₁ entry hmem
      omega
  start_eq := h₂.start_eq.trans h₁.start_eq
  args_eq := h₂.args_eq.trans h₁.args_eq

/-- Adding an instruction leaves the others as they were. -/
theorem push (h : b₀.Grows b) (kind : InstKind) : b₀.Grows (b.push kind) where
  keeps id hid := by
    rw [inst?_push_of_lt (Nat.lt_of_lt_of_le hid h.size_le), h.keeps id hid]
  size_le := by
    rw [size_push]
    exact Nat.le_succ_of_le h.size_le
  temps_le := h.temps_le
  addrs_le := h.addrs_le
  pool := h.pool
  locals := h.locals
  start_eq := h.start_eq
  args_eq := h.args_eq

/-- Setting an edge leaves what was there at the beginning as it was, if its source came later. -/
theorem link (h : b₀.Grows b) (hsource : b₀.size ≤ source) :
    b₀.Grows (b.link source target edge) where
  keeps id hid := by
    rw [inst?_link_of_ne (Nat.ne_of_lt (Nat.lt_of_lt_of_le hid hsource)), h.keeps id hid]
  size_le := by
    rw [size_link]
    exact h.size_le
  temps_le := h.temps_le
  addrs_le := h.addrs_le
  pool := h.pool
  locals := h.locals
  start_eq := h.start_eq
  args_eq := h.args_eq

/-- Taking a register adds to the registers. -/
theorem takeTemp (h : b₀.Grows b) : b₀.Grows b.takeTemp where
  keeps := h.keeps
  size_le := h.size_le
  temps_le := Nat.le_succ_of_le h.temps_le
  addrs_le := h.addrs_le
  pool := h.pool
  locals := by
    obtain ⟨newer, he, hn⟩ := h.locals
    exact ⟨newer, he, fun entry hentry =>
      ⟨(hn entry hentry).1, Nat.lt_succ_of_lt (hn entry hentry).2⟩⟩
  start_eq := h.start_eq
  args_eq := h.args_eq

/-- So it does for a register for addresses. -/
theorem takeAddr (h : b₀.Grows b) : b₀.Grows b.takeAddr where
  keeps := h.keeps
  size_le := h.size_le
  temps_le := h.temps_le
  addrs_le := Nat.le_succ_of_le h.addrs_le
  pool := h.pool
  locals := h.locals
  start_eq := h.start_eq
  args_eq := h.args_eq

/-- And for the result of a call, if there is one. -/
theorem takeResult (h : b₀.Grows b) (hasValue : Bool) : b₀.Grows (b.takeResult hasValue) := by
  cases hasValue
  · exact h
  · exact h.takeTemp

/-- A constant is added at the end of the pool, if at all. -/
theorem intern (h : b₀.Grows b) (constant : Constant) : b₀.Grows (b.intern constant) where
  keeps := h.keeps
  size_le := h.size_le
  temps_le := h.temps_le
  addrs_le := h.addrs_le
  pool := by
    obtain ⟨added, hadded⟩ := internConstant_extends b.constants constant
    exact h.pool.trans ⟨added, hadded.symm⟩
  locals := h.locals
  start_eq := h.start_eq
  args_eq := h.args_eq

/-- A local takes a register. -/
theorem bindNext (h : b₀.Grows b) (symbol : Symbol) : b₀.Grows (b.bindNext symbol) where
  keeps := h.keeps
  size_le := h.size_le
  temps_le := Nat.le_succ_of_le h.temps_le
  addrs_le := h.addrs_le
  pool := h.pool
  locals := by
    obtain ⟨newer, he, hn⟩ := h.locals
    refine ⟨(symbol.id, b.nextTemp) :: newer, congrArg _ he, fun entry hentry => ?_⟩
    rcases List.mem_cons.mp hentry with rfl | hmem
    · exact ⟨h.temps_le, Nat.lt_succ_self _⟩
    · exact ⟨(hn entry hmem).1, Nat.lt_succ_of_lt (hn entry hmem).2⟩
  start_eq := h.start_eq
  args_eq := h.args_eq

end Grows

/-! ## Open ends

The end of a chain has to be linked to what comes next, by whoever asked for the chain. Until then
it must have no successor, and it must be able to get one: it is no return. -/

/-- The instruction at a handle has no successor yet, and may get one. It is not a jump, which would
wait for two edges, and not a return, which must not have any. -/
def Open (b : Builder) (id : InstId) : Prop :=
  ∃ kind, b.inst? id = some { kind } ∧ kind.isJump = false ∧ kind.isReturn = false

namespace Open

/-- An open end is in the arena. -/
theorem lt_size (h : b.Open id) : id < b.size := by
  obtain ⟨kind, hinst, -⟩ := h
  exact Builder.lt_size hinst

/-- An instruction that was just added is open, unless it is a jump or a return. -/
theorem pushed {kind : InstKind} (hid : id = b.size) (hjump : kind.isJump = false)
    (hret : kind.isReturn = false) : (b.push kind).Open id := by
  subst hid
  exact ⟨kind, inst?_push_size kind, hjump, hret⟩

/-- Whether a place is open depends only on the instruction there. -/
theorem of_eq (h : b.Open id) (heq : b'.inst? id = b.inst? id) : b'.Open id := by
  obtain ⟨kind, hinst, hkind⟩ := h
  exact ⟨kind, heq.trans hinst, hkind⟩

/-- What is open stays open as the builder grows. -/
theorem grows (h : b.Open id) (hb : b.Grows b') : b'.Open id :=
  h.of_eq (hb.keeps id h.lt_size)

/-- Adding an instruction closes nothing. -/
theorem push (h : b.Open id) (kind : InstKind) : (b.push kind).Open id :=
  h.of_eq (inst?_push_of_lt h.lt_size)

/-- Setting an edge elsewhere closes nothing. -/
theorem link (h : b.Open id) (hne : id ≠ source) : (b.link source target edge).Open id :=
  h.of_eq (inst?_link_of_ne hne)

/-- After adding an instruction and linking an open end to it, the new instruction is the open end.
-/
theorem appended (h : b.Open source) {kind : InstKind} (hjump : kind.isJump = false)
    (hret : kind.isReturn = false) : ((b.push kind).link source target edge).Open b.size :=
  (pushed rfl hjump hret).link (Nat.ne_of_gt h.lt_size)

end Open

/-! ## Constructs under way

The invariant of a construct and its rules. Each rule is for one operation or for a few that always
come together, so that the lowering of a construct is read off its equation from left to right. -/

/-- An instruction is right as far as it goes: registers and constants exist, edges lead to what was
added from `floor` on or to `out`, only jumps have a true side, and returns lead nowhere. What is
missing for the whole truth is that a jump has both of its edges. -/
structure Admits (b : Builder) (floor : Nat) (out : Option InstId) (inst : Inst) : Prop where
  owned : ∀ r ∈ inst.kind.registers, b.routine.owns r = true
  pooled : ∀ id : Nat, Operand.const id ∈ inst.kind.operands → id < b.constants.length
  targets : ∀ id : Nat, id ∈ inst.successors → (floor ≤ id ∧ id < b.size) ∨ out = some id
  branch : inst.onTrue.isSome = true → inst.kind.isJump = true
  final : inst.kind.isReturn = true → inst.next = none

/-- A register that exists stays. -/
theorem owns_mono (hb : b.Grows b') {r : Register} (h : b.routine.owns r = true) :
    b'.routine.owns r = true := by
  have ht := hb.temps_le
  have ha := hb.addrs_le
  cases r <;> simp only [Routine.owns, decide_eq_true_eq] at h ⊢ <;> omega

/-- What an instruction may do, it may still do when more was added. A target that was allowed
because it is `out` may by now be one of the new instructions. -/
theorem Admits.mono {floor floor' : Nat} {out out' : Option InstId} {inst : Inst}
    (h : b.Admits floor out inst) (hb : b.Grows b') (hfloor : floor' ≤ floor)
    (hout : ∀ id : Nat, out = some id → (floor' ≤ id ∧ id < b'.size) ∨ out' = some id) :
    b'.Admits floor' out' inst where
  owned r hr := owns_mono hb (h.owned r hr)
  pooled id hid := Nat.lt_of_lt_of_le (h.pooled id hid) hb.pool.length_le
  targets id hid := by
    have hsize := hb.size_le
    rcases h.targets id hid with ⟨hle, hlt⟩ | heq
    · exact .inl ⟨Nat.le_trans hfloor hle, Nat.lt_of_lt_of_le hlt hsize⟩
    · exact hout id heq
  branch := h.branch
  final := h.final

/-- From `b₀` a construct has got to `b`. The jumps in `pending` do not have their edges yet. At the
end of a construct nothing is pending, and what was added is as validation wants it but for the
arguments of calls. -/
structure Builds (b₀ : Builder) (out : Option InstId) (pending : List InstId) (b : Builder) :
    Prop where
  grows : b₀.Grows b
  admits : ∀ (id : Nat) inst, b₀.size ≤ id → b.inst? id = some inst → b.Admits b₀.size out inst
  complete : ∀ (id : Nat) inst, b₀.size ≤ id → b.inst? id = some inst → inst.kind.isJump = true →
    id ∉ pending → inst.next.isSome = true ∧ inst.onTrue.isSome = true

namespace Builds

variable {out out' : Option InstId} {pending : List InstId}

/-- Nothing has been built yet, and nothing is pending. -/
theorem refl (b : Builder) (out : Option InstId) : b.Builds out [] b where
  grows := .refl b
  admits _ _ hid hinst := absurd (Builder.lt_size hinst) (Nat.not_lt.mpr hid)
  complete _ _ hid hinst := absurd (Builder.lt_size hinst) (Nat.not_lt.mpr hid)

/-- A part of the construct that was built from `b₁` on. Its breaks may lead to an instruction that
the construct added before. -/
theorem trans (h₁ : b₀.Builds out pending b₁) (h₂ : b₁.Builds out' [] b₂)
    (hout : ∀ id : Nat, out' = some id → (b₀.size ≤ id ∧ id < b₁.size) ∨ out = some id) :
    b₀.Builds out pending b₂ where
  grows := h₁.grows.trans h₂.grows
  admits id inst hid hinst := by
    rcases Nat.lt_or_ge id b₁.size with hlt | hge
    · rw [h₂.grows.keeps id hlt] at hinst
      exact (h₁.admits id inst hid hinst).mono h₂.grows (Nat.le_refl _) fun id h => .inr h
    · refine (h₂.admits id inst hge hinst).mono (.refl b₂) h₁.grows.size_le fun id h => ?_
      rcases hout id h with ⟨hle, hlt⟩ | heq
      · exact .inl ⟨hle, Nat.lt_of_lt_of_le hlt h₂.grows.size_le⟩
      · exact .inr heq
  complete id inst hid hinst hjump hpending := by
    rcases Nat.lt_or_ge id b₁.size with hlt | hge
    · rw [h₂.grows.keeps id hlt] at hinst
      exact h₁.complete id inst hid hinst hjump hpending
    · exact h₂.complete id inst hge hinst hjump List.not_mem_nil

/-- A part without breaks of its own. -/
theorem andThen (h₁ : b₀.Builds out pending b₁) (h₂ : b₁.Builds none [] b₂) :
    b₀.Builds out pending b₂ :=
  h₁.trans h₂ fun _ h => nomatch h

/-- A part with the breaks of the construct. -/
theorem andThen' (h₁ : b₀.Builds out pending b₁) (h₂ : b₁.Builds out [] b₂) :
    b₀.Builds out pending b₂ :=
  h₁.trans h₂ fun _ h => .inr h

/-- Changes to the builder that leave the arena alone. -/
theorem of_grows (h : b₀.Builds out pending b) (hb : b.Grows b')
    (hsize : b'.size = b.size) : b₀.Builds out pending b' where
  grows := h.grows.trans hb
  admits id inst hid hinst := by
    have hlt : id < b.size := hsize ▸ Builder.lt_size hinst
    rw [hb.keeps id hlt] at hinst
    exact (h.admits id inst hid hinst).mono hb (Nat.le_refl _) fun _ h => .inr h
  complete id inst hid hinst := by
    have hlt : id < b.size := hsize ▸ Builder.lt_size hinst
    rw [hb.keeps id hlt] at hinst
    exact h.complete id inst hid hinst

/-- Taking a register leaves the arena alone. -/
theorem takeTemp (h : b₀.Builds out pending b) : b₀.Builds out pending b.takeTemp :=
  h.of_grows (Grows.refl b).takeTemp rfl

/-- So does taking one for an address. -/
theorem takeAddr (h : b₀.Builds out pending b) : b₀.Builds out pending b.takeAddr :=
  h.of_grows (Grows.refl b).takeAddr rfl

/-- So does taking one for a result. -/
theorem takeResult (h : b₀.Builds out pending b) (hasValue : Bool) :
    b₀.Builds out pending (b.takeResult hasValue) :=
  h.of_grows ((Grows.refl b).takeResult hasValue) (size_takeResult b hasValue)

/-- So does putting a constant in the pool. -/
theorem intern (h : b₀.Builds out pending b) (constant : Constant) :
    b₀.Builds out pending (b.intern constant) :=
  h.of_grows ((Grows.refl b).intern constant) rfl

/-- So does giving a local its register. -/
theorem bindNext (h : b₀.Builds out pending b) (symbol : Symbol) :
    b₀.Builds out pending (b.bindNext symbol) :=
  h.of_grows ((Grows.refl b).bindNext symbol) rfl

/-- A new instruction, whose registers and constants exist. If it is a jump it is now pending. -/
theorem pushAny (h : b₀.Builds out pending b) {kind : InstKind} {pending' : List InstId}
    (howned : ∀ r ∈ kind.registers, b.routine.owns r = true)
    (hpooled : ∀ id : Nat, Operand.const id ∈ kind.operands → id < b.constants.length)
    (hsub : ∀ id, id ∉ pending' → id ∉ pending)
    (hjump : kind.isJump = true → b.size ∈ pending') :
    b₀.Builds out pending' (b.push kind) where
  grows := h.grows.push kind
  admits id inst hid hinst := by
    rw [inst?_push] at hinst
    by_cases heq : id = b.size
    · rw [if_pos heq] at hinst
      obtain rfl := Option.some.inj hinst
      exact ⟨howned, hpooled, (fun _ h => nomatch h), (fun h => nomatch h), fun _ => rfl⟩
    · rw [if_neg heq] at hinst
      exact (h.admits id inst hid hinst).mono ((Grows.refl b).push kind) (Nat.le_refl _)
        fun _ h => .inr h
  complete id inst hid hinst hisJump hpending := by
    rw [inst?_push] at hinst
    by_cases heq : id = b.size
    · rw [if_pos heq] at hinst
      obtain rfl := Option.some.inj hinst
      exact absurd (heq ▸ hjump hisJump) hpending
    · rw [if_neg heq] at hinst
      exact h.complete id inst hid hinst hisJump (hsub id hpending)

/-- A new instruction that is neither a jump nor a literal. -/
theorem push (h : b₀.Builds out pending b) (kind : InstKind) (hjump : kind.isJump = false)
    (howned : ∀ r ∈ kind.registers, b.routine.owns r = true)
    (hconst : ∀ dst id, kind ≠ .copy dst (.const id)) :
    b₀.Builds out pending (b.push kind) := by
  refine h.pushAny howned (fun id hid => ?_) (fun _ hid => hid) fun hisJump => ?_
  · cases kind with
    | copy dst src =>
      obtain rfl := List.mem_singleton.mp hid
      exact absurd rfl (hconst dst id)
    | _ => simp [InstKind.operands] at hid
  · rw [hjump] at hisJump
    cases hisJump

/-- A place to come from and to go on to. -/
theorem pushNop (h : b₀.Builds out pending b) : b₀.Builds out pending (b.push .nop) :=
  h.push .nop rfl (fun _ h => nomatch h) nofun

/-- A literal, whose constant is in the pool by now. -/
theorem pushLiteral (h : b₀.Builds out pending b) {dst : Temp} {id : ConstId}
    (howned : b.routine.owns (.temp dst) = true) (hpooled : id < b.constants.length) :
    b₀.Builds out pending (b.push (.copy dst (.const id))) := by
  refine h.pushAny (fun r hr => ?_) (fun id' hid => ?_) (fun _ hid => hid) (fun h => nomatch h)
  · obtain rfl := List.mem_singleton.mp hr
    exact howned
  · cases List.mem_singleton.mp hid
    exact hpooled

/-- A jump, which now waits for its edges. The register it decides by has to exist. -/
theorem pushJump (h : b₀.Builds out pending b) {cond : Temp}
    (howned : b.routine.owns (.temp cond) = true) :
    b₀.Builds out (b.size :: pending) (b.push (.jump cond)) := by
  refine h.pushAny (fun r hr => ?_) (fun id hid => ?_) (fun id hid hmem => ?_) fun _ => ?_
  · obtain rfl := List.mem_singleton.mp hr
    exact howned
  · cases List.mem_singleton.mp hid
  · exact hid (List.mem_cons_of_mem _ hmem)
  · exact List.mem_cons_self

/-- Setting an edge of an instruction that was added by the construct. The instruction with the edge
has to be right again, and all others are what they were. -/
theorem linkAny (h : b₀.Builds out pending b)
    (hsource : b₀.size ≤ source)
    (hkind : ∀ inst, b.inst? source = some inst →
      inst.kind.isReturn = false ∧ (edge = .onTrue → inst.kind.isJump = true))
    (htarget : (b₀.size ≤ target ∧ target < b.size) ∨ out = some target) :
    b₀.Builds out pending (b.link source target edge) where
  grows := h.grows.link hsource
  admits id inst hid hinst := by
    rw [inst?_link] at hinst
    have hmono : ∀ inst, b.Admits b₀.size out inst →
        (b.link source target edge).Admits b₀.size out inst := by
      intro inst hadm
      refine ⟨hadm.owned, hadm.pooled, fun id hid => ?_, hadm.branch, hadm.final⟩
      rw [size_link]
      exact hadm.targets id hid
    by_cases heq : source = id
    · subst heq
      rw [if_pos rfl] at hinst
      obtain ⟨old, hold, rfl⟩ := Option.map_eq_some_iff.mp hinst
      have hadm := hmono old (h.admits source old hid hold)
      obtain ⟨hret, hedge⟩ := hkind old hold
      -- the new edge adds one successor, and the other edge is kept
      have hnew : ∀ t ∈ (old.link target edge).successors, t = target ∨ t ∈ old.successors := by
        intro t ht
        cases edge <;> simp only [Inst.link, Inst.successors, Option.toList_some,
          List.mem_append, List.mem_singleton] at ht ⊢
        · exact ht.imp_right .inr
        · rcases ht with hnext | heq
          · exact .inr (.inl hnext)
          · exact .inl heq
      refine ⟨?_, ?_, fun t ht => ?_, fun hsome => ?_, fun hisRet => ?_⟩
      · rw [Inst.kind_link]
        exact hadm.owned
      · rw [Inst.kind_link]
        exact hadm.pooled
      · rcases hnew t ht with rfl | hmem
        · rw [size_link]
          exact htarget
        · exact hadm.targets t hmem
      · rw [Inst.kind_link]
        cases edge
        · exact hadm.branch hsome
        · exact hedge rfl
      · rw [Inst.kind_link, hret] at hisRet
        cases hisRet
    · rw [if_neg heq] at hinst
      exact hmono inst (h.admits id inst hid hinst)
  complete id inst hid hinst hjump hpending := by
    rw [inst?_link] at hinst
    by_cases heq : source = id
    · rw [if_pos heq] at hinst
      obtain ⟨old, hold, rfl⟩ := Option.map_eq_some_iff.mp hinst
      rw [Inst.kind_link] at hjump
      obtain ⟨hnext, htrue⟩ := h.complete id old hid hold hjump hpending
      cases edge
      · exact ⟨rfl, htrue⟩
      · exact ⟨hnext, rfl⟩
    · rw [if_neg heq] at hinst
      exact h.complete id inst hid hinst hjump hpending

/-- Linking an open end. -/
theorem link (h : b₀.Builds out pending b) (target : Nat) (hopen : b.Open source)
    (hsource : b₀.size ≤ source)
    (htarget : (b₀.size ≤ target ∧ target < b.size) ∨ out = some target) :
    b₀.Builds out pending (b.link source target .next) := by
  obtain ⟨kind, hinst, -, hret⟩ := hopen
  refine h.linkAny hsource (fun inst hi => ?_) htarget
  rw [hinst] at hi
  obtain rfl := Option.some.inj hi
  exact ⟨hret, fun h => nomatch h⟩

/-- A new instruction that follows an open end. -/
theorem append (h : b₀.Builds out pending b) (hopen : b.Open source) (hsource : b₀.size ≤ source)
    (kind : InstKind) (hjump : kind.isJump = false)
    (howned : ∀ r ∈ kind.registers, b.routine.owns r = true)
    (hconst : ∀ dst id, kind ≠ .copy dst (.const id)) :
    b₀.Builds out pending ((b.push kind).link source b.size .next) :=
  (h.push kind hjump howned hconst).link b.size (hopen.push kind) hsource
    (.inl ⟨h.grows.size_le, by simp⟩)

/-- Setting both edges of a jump, in either order: it is no longer pending. Whichever edge is set
second, the first one is still there. -/
theorem fork {jump : Nat} {cond : Temp} {edge edge' : Edge}
    (h : b₀.Builds out (jump :: pending) b) (first second : Nat) (hne : edge ≠ edge')
    (hjump : b₀.size ≤ jump) (hinst : b.inst? jump = some { kind := .jump cond })
    (hfirst : b₀.size ≤ first ∧ first < b.size) (hsecond : b₀.size ≤ second ∧ second < b.size) :
    b₀.Builds out pending ((b.link jump first edge).link jump second edge') := by
  have hlinked : b₀.Builds out (jump :: pending)
      ((b.link jump first edge).link jump second edge') := by
    refine (h.linkAny hjump (fun inst hi => ?_) (.inl hfirst)).linkAny hjump (fun inst hi => ?_)
      (.inl (by simpa using hsecond))
    · rw [hinst] at hi
      obtain rfl := Option.some.inj hi
      exact ⟨rfl, fun _ => rfl⟩
    · rw [inst?_link_self, hinst] at hi
      obtain rfl := Option.some.inj hi
      rw [Inst.kind_link]
      exact ⟨rfl, fun _ => rfl⟩
  refine ⟨hlinked.grows, hlinked.admits, fun id inst hid hi hisJump hpending => ?_⟩
  by_cases heq : id = jump
  · subst heq
    rw [inst?_link_self, inst?_link_self, hinst] at hi
    obtain rfl := Option.some.inj hi
    -- the two edges differ, so each is set by one of the links
    cases edge <;> cases edge' <;> first | exact absurd rfl hne | exact ⟨rfl, rfl⟩
  · refine hlinked.complete id inst hid hi hisJump fun hmem => ?_
    rcases List.mem_cons.mp hmem with hid' | hmem
    · exact heq hid'
    · exact hpending hmem

end Builds

end Builder

end WordLang
