import WordLang.Proofs.Lowering.Growth

/-!
# Closed chains

What lowering a construct does to the arena, whatever it starts from: nothing that was there is
changed, and what is added is a chain that only its exit leads out of. The one other way out is a
break, which leads to `out`, where it was told to lead. Nothing is asked of the builder here, not
even that its locals have registers of the routine.

A construct is followed with `b₀.Encloses out b`, from the builder `b₀` that it started from. A
chain that is done is `b.Chained out entry exit b'`; how chains are put together is said once for
each construct.

That nothing is asked makes this the weakest of the invariants of lowering, and the one that holds
most widely: of trees with any symbols in their slots, and of builders in any state. It says nothing
of registers, and it does not say that a jump has both edges. What it says of edges is enough to see
that a chain can be entered and left only at its ends, so that whoever asked for it can link it
without looking inside.

The rules have the same names as those for growth in a regular way, and are used in the same order;
the recursion on the tree at the end is the same as well.
-/

namespace WordLang

/-- An edge that was set is the only successor that may be new. -/
theorem Inst.mem_successors_link {inst : Inst} {target id : InstId} {edge : Edge}
    (h : id ∈ (inst.link target edge).successors) : id = target ∨ id ∈ inst.successors := by
  obtain ⟨kind, next, onTrue⟩ := inst
  cases edge with
  | next =>
    rcases List.mem_cons.mp h with heq | hmem
    · exact .inl heq
    · exact .inr (List.mem_append_right _ hmem)
  | onTrue =>
    rcases List.mem_append.mp h with hmem | hmem
    · exact .inr (List.mem_append_left _ hmem)
    · exact .inl (List.mem_singleton.mp hmem)

namespace Builder

/-- What was added since `b₀` satisfies `p`. The property may depend on the handle, so that
instructions which are still to be linked can be exempted. -/
def Since (b₀ : Builder) (p : InstId → Inst → Prop) (b : Builder) : Prop :=
  ∀ (id : Nat) inst, b₀.size ≤ id → b.inst? id = some inst → p id inst

variable {b b₀ b₁ b₂ : Builder} {source target : Nat} {edge : Edge} {kind : InstKind}

namespace Since

variable {p p' : InstId → Inst → Prop}

/-- Nothing was added yet. -/
theorem refl (b : Builder) (p : InstId → Inst → Prop) : b.Since p b :=
  fun _ _ hid hinst => absurd (Builder.lt_size hinst) (Nat.not_lt.mpr hid)

/-- What holds of an instruction may be weakened. -/
theorem imp (h : b₀.Since p b) (himp : ∀ id inst, p id inst → p' id inst) : b₀.Since p' b :=
  fun id inst hid hinst => himp id inst (h id inst hid hinst)

/-- A part that was built from `b₁` on. -/
theorem trans (h₁ : b₀.Since p b₁) (h₂ : b₁.Since p b₂) (hb : b₁.Grows b₂) : b₀.Since p b₂ := by
  intro id inst hid hinst
  rcases Nat.lt_or_ge id b₁.size with hlt | hge
  · rw [hb.keeps id hlt] at hinst
    exact h₁ id inst hid hinst
  · exact h₂ id inst hge hinst

/-- An instruction that is added has to satisfy what is asked, without successors at first. -/
theorem push (h : b₀.Since p b) (hnew : p b.size { kind }) : b₀.Since p (b.push kind) := by
  intro id inst hid hinst
  rw [inst?_push] at hinst
  by_cases heq : id = b.size
  · rw [if_pos heq] at hinst
    obtain rfl := Option.some.inj hinst
    exact heq ▸ hnew
  · rw [if_neg heq] at hinst
    exact h id inst hid hinst

/-- A link may change what is asked of the others, as it takes its source off the open ends. That is
why the property after it is another one, `p'`. -/
theorem link (h : b₀.Since p b)
    (hsource : ∀ inst, p source inst → p' source (inst.link target edge))
    (hothers : ∀ id inst, id ≠ source → p id inst → p' id inst) :
    b₀.Since p' (b.link source target edge) := by
  intro id inst hid hinst
  rw [inst?_link] at hinst
  by_cases heq : source = id
  · rw [if_pos heq] at hinst
    obtain ⟨old, hold, rfl⟩ := Option.map_eq_some_iff.mp hinst
    exact heq ▸ hsource old (heq ▸ h id old hid hold)
  · rw [if_neg heq] at hinst
    exact hothers id inst (Ne.symm heq) (h id inst hid hinst)

end Since

/-! ## Constructs under way

Between the operations of a construct. Only setting an edge asks for something: where it comes from
and where it leads to. -/

/-- Everything of `b₀` is unchanged in `b`, and the edges of what was added lead to what was added,
or to `out`. Nothing is said of instructions from before, which may lead anywhere. -/
structure Encloses (b₀ : Builder) (out : Option InstId) (b : Builder) : Prop where
  grows : b₀.Grows b
  inside : b₀.Since (fun _ inst => ∀ target ∈ inst.successors,
    (b₀.size ≤ target ∧ target < b.size) ∨ out = some target) b

namespace Encloses

variable {out out' : Option InstId}

/-- Nothing was added, so nothing was changed. -/
theorem refl (b : Builder) (out : Option InstId) : b.Encloses out b :=
  ⟨.refl b, .refl b _⟩

/-- A part that was built from `b₁` on. Its breaks may lead to an instruction that the construct
added before. -/
theorem trans (h₁ : b₀.Encloses out b₁) (h₂ : b₁.Encloses out' b₂)
    (hout : ∀ target : Nat, out' = some target →
      (b₀.size ≤ target ∧ target < b₁.size) ∨ out = some target) : b₀.Encloses out b₂ := by
  have hsize₁ := h₁.grows.size_le
  have hsize₂ := h₂.grows.size_le
  refine ⟨h₁.grows.trans h₂.grows, .trans (h₁.inside.imp ?_) (h₂.inside.imp ?_) h₂.grows⟩
  · intro id inst hinst target htarget
    exact (hinst target htarget).imp_left fun hnew => ⟨hnew.1, Nat.lt_of_lt_of_le hnew.2 hsize₂⟩
  · intro id inst hinst target htarget
    rcases hinst target htarget with hnew | hbreak
    · exact .inl ⟨Nat.le_trans hsize₁ hnew.1, hnew.2⟩
    · exact (hout target hbreak).imp_left fun hnew => ⟨hnew.1, Nat.lt_of_lt_of_le hnew.2 hsize₂⟩

/-- A part without breaks of its own. -/
theorem andThen (h₁ : b₀.Encloses out b₁) (h₂ : b₁.Encloses none b₂) : b₀.Encloses out b₂ :=
  h₁.trans h₂ fun _ h => nomatch h

/-- A part with the breaks of the construct. -/
theorem andThen' (h₁ : b₀.Encloses out b₁) (h₂ : b₁.Encloses out b₂) : b₀.Encloses out b₂ :=
  h₁.trans h₂ fun _ h => .inr h

/-- Changes to the builder that leave the arena alone. -/
theorem of_insts_eq (h : b₀.Encloses out b) (hb : b₀.Grows b')
    (heq : b'.routine.insts = b.routine.insts) : b₀.Encloses out b' := by
  have hsize : b'.size = b.size := congrArg Array.size heq
  refine ⟨hb, fun id inst hid hinst => ?_⟩
  rw [inst?, heq] at hinst
  rw [hsize]
  exact h.inside id inst hid hinst

/-- Taking a register does not touch the arena. -/
theorem takeTemp (h : b₀.Encloses out b) : b₀.Encloses out b.takeTemp :=
  h.of_insts_eq h.grows.takeTemp rfl

/-- Nor does taking one for an address. -/
theorem takeAddr (h : b₀.Encloses out b) : b₀.Encloses out b.takeAddr :=
  h.of_insts_eq h.grows.takeAddr rfl

/-- Nor does taking one for a result. -/
theorem takeResult (h : b₀.Encloses out b) (hasValue : Bool) :
    b₀.Encloses out (b.takeResult hasValue) := by
  cases hasValue with
  | false => exact h
  | true => exact h.takeTemp

/-- A new instruction leads nowhere yet. -/
theorem push (h : b₀.Encloses out b) (kind : InstKind) : b₀.Encloses out (b.push kind) := by
  refine ⟨h.grows.push kind, .push (h.inside.imp fun id inst hinst target htarget => ?_) ?_⟩
  · rw [size_push]
    exact (hinst target htarget).imp_left fun hnew => ⟨hnew.1, Nat.lt_succ_of_lt hnew.2⟩
  · exact fun _ htarget => nomatch htarget

/-- An edge of something that was added, to something that was added or to `out`. -/
theorem link (h : b₀.Encloses out b) (source target : Nat) (edge : Edge)
    (hsource : b₀.size ≤ source)
    (htarget : (b₀.size ≤ target ∧ target < b.size) ∨ out = some target) :
    b₀.Encloses out (b.link source target edge) := by
  refine ⟨h.grows.link hsource, h.inside.link ?_ ?_⟩
  · intro inst hinst id hid
    rw [size_link]
    rcases Inst.mem_successors_link hid with rfl | hmem
    · exact htarget
    · exact hinst id hmem
  · intro id inst _ hinst
    rw [size_link]
    exact hinst

end Encloses

/-! ## Chains

Constructs that are done, and the rules for putting them together. The exit of a chain is open: it
has no successor until the chain is linked. -/

/-- From `b` to `b'` a chain was added that is entered at `entry` and left at `exit`. The exit has
no edge yet, which is what makes it the exit. -/
structure Chained (b : Builder) (out : Option InstId) (entry exit : Nat) (b' : Builder) : Prop where
  encloses : b.Encloses out b'
  entry_ge : b.size ≤ entry
  entry_lt : entry < b'.size
  exit_ge : b.size ≤ exit
  exit_open : b'.Open exit

namespace Chained

variable {b b' b₁ b₂ b₃ b₄ mid : Builder} {out : Option InstId} {kind kind' : InstKind}
variable {entry exit entry' exit' exit₁ exit₂ entry₃ exit₃ : Nat}

/-- A chain only adds to the arena. -/
theorem grows (h : b.Chained out entry exit b') : b.Grows b' :=
  h.encloses.grows

/-- Its exit is in the arena. -/
theorem exit_lt (h : b.Chained out entry exit b') : exit < b'.size :=
  h.exit_open.lt_size

/-- Where the ends of a chain are. -/
theorem bounds (h : b.Chained out entry exit b') :
    (b.size ≤ entry ∧ entry < b'.size) ∧ b.size ≤ exit ∧ exit < b'.size :=
  ⟨⟨h.entry_ge, h.entry_lt⟩, h.exit_ge, h.exit_lt⟩

/-- A chain without breaks has none that lead elsewhere. -/
theorem weaken (h : b.Chained none entry exit b') (out : Option InstId) :
    b.Chained out entry exit b' :=
  ⟨(Encloses.refl b out).andThen h.encloses, h.entry_ge, h.entry_lt, h.exit_ge, h.exit_open⟩

/-- A chain of one instruction. -/
theorem single (h : b.Encloses out b₁) (hsize : b₁.size = b.size) (hjump : kind.isJump = false)
    (hret : kind.isReturn = false) : b.Chained out b.size b.size (b₁.push kind) :=
  ⟨h.push kind, Nat.le_refl _, by simp [hsize], Nat.le_refl _, .pushed hsize.symm hjump hret⟩

/-- A `nop` is a chain by itself. -/
theorem nop {id : Nat} (hid : id = b.size) : b.Chained out id id (b.push .nop) := by
  subst hid
  exact single (.refl b out) rfl rfl rfl

/-- One chain after another. The exit of the first gets its one edge, to the entry of the second. -/
theorem follow (h : b.Chained out entry exit b₁) (h' : b₁.Chained out entry' exit' b') :
    b.Chained out entry exit' (b'.link exit entry' .next) := by
  have hbounds := h.bounds
  have hbounds' := h'.bounds
  have hlinked := (h.encloses.andThen' h'.encloses).link _ entry' .next h.exit_ge
    (.inl ⟨show b.size ≤ entry' by omega, h'.entry_lt⟩)
  exact ⟨hlinked, h.entry_ge, by simp; omega, by omega, h'.exit_open.link (by omega)⟩

/-- A new instruction at the end of a chain. -/
theorem append (h : b.Chained out entry exit b') (kind : InstKind)
    (hjump : kind.isJump = false) (hret : kind.isReturn = false) :
    b.Chained out entry b'.size ((b'.push kind).link exit b'.size .next) := by
  have hbounds := h.bounds
  have hlinked := (h.encloses.push kind).link _ b'.size .next h.exit_ge
    (.inl (by simp; omega))
  exact ⟨hlinked, h.entry_ge, by simp; omega, by omega, h.exit_open.appended hjump hret⟩

/-- A register that is taken afterwards changes nothing about a chain. -/
theorem takeTemp (h : b.Chained out entry exit b') : b.Chained out entry exit b'.takeTemp :=
  ⟨h.encloses.takeTemp, h.entry_ge, h.entry_lt, h.exit_ge, h.exit_open⟩

/-- Nor does one for an address. -/
theorem takeAddr (h : b.Chained out entry exit b') : b.Chained out entry exit b'.takeAddr :=
  ⟨h.encloses.takeAddr, h.entry_ge, h.entry_lt, h.exit_ge, h.exit_open⟩

/-- Nor does one for a result. -/
theorem takeResult (h : b.Chained out entry exit b') (hasValue : Bool) :
    b.Chained out entry exit (b'.takeResult hasValue) := by
  cases hasValue with
  | false => exact h
  | true => exact h.takeTemp

/-- Two new instructions at the end of a chain. -/
theorem appendTwo (h : b.Chained out entry exit b₁) (hjump : kind'.isJump = false)
    (hret : kind'.isReturn = false) :
    b.Chained out entry (b₁.size + 1)
      ((((b₁.push kind).push kind').link exit b₁.size .next).link b₁.size (b₁.size + 1) .next) := by
  have hbounds := h.bounds
  have hfirst := ((h.encloses.push kind).push kind').link _ b₁.size .next h.exit_ge
    (.inl (by simp; omega))
  have hlinked := hfirst.link b₁.size (b₁.size + 1) .next (by omega)
    (.inl (by simp; omega))
  exact ⟨hlinked, h.entry_ge, by simp; omega, by omega,
    ((Open.pushed (by simp) hjump hret).link (by omega)).link (by omega)⟩

/-- Two chains, one after the other, and a new instruction. -/
theorem combine (h₁ : b.Chained out entry exit b₁) (h₂ : b₁.Chained out entry' exit' b₂)
    (hjump : kind.isJump = false) (hret : kind.isReturn = false) :
    b.Chained out entry b₂.size
      (((b₂.push kind).link exit entry' .next).link exit' b₂.size .next) := by
  have hbounds₁ := h₁.bounds
  have hbounds₂ := h₂.bounds
  have hjoined := ((h₁.encloses.andThen' h₂.encloses).push kind).link _ entry' .next
    h₁.exit_ge (.inl (by simp; omega))
  have hlinked := hjoined.link exit' b₂.size .next (by omega)
    (.inl (by simp; omega))
  exact ⟨hlinked, h₁.entry_ge, by simp; omega, by omega,
    ((Open.pushed rfl hjump hret).link (by omega)).link (by omega)⟩

/-- A connective: `mid` is the builder after the copy of the left value, from which the right
operand starts. Which edge of the jump is which does not matter, nor what the two copies are. -/
theorem connect {left src src' : InstKind} {edge edge' : Edge}
    (h₁ : b.Chained none entry exit b₁)
    (hmid : mid = ((b₁.push left).link exit b₁.size .next).takeTemp.push src)
    (h₂ : mid.Chained none entry' exit' b₂) :
    b.Chained none entry (b₂.size + 1)
      (((((((b₂.push src').push .nop).link b₁.size (b₁.size + 1) edge).link
        b₁.size entry' edge').link (b₁.size + 1) (b₂.size + 1) .next).link
        exit' b₂.size .next).link b₂.size (b₂.size + 1) .next) := by
  have hbounds₁ := h₁.bounds
  have hbounds₂ := h₂.bounds
  have hsize : mid.size = b₁.size + 2 := by simp [hmid]
  have hstart : b.Encloses none mid := by
    have hjump := (h₁.encloses.push left).link _ b₁.size .next h₁.exit_ge
      (.inl (by simp; omega))
    rw [hmid]
    exact hjump.takeTemp.push src
  have hsides := ((hstart.andThen h₂.encloses).push src').push .nop
  have hkeep := hsides.link b₁.size (b₁.size + 1) edge (by omega)
    (.inl (by simp; omega))
  have hright := hkeep.link b₁.size entry' edge' (by omega)
    (.inl (by simp; omega))
  have hkept := hright.link (b₁.size + 1) (b₂.size + 1) .next (by omega)
    (.inl (by simp; omega))
  have htaken := hkept.link exit' b₂.size .next (by omega)
    (.inl (by simp; omega))
  have hdone := htaken.link b₂.size (b₂.size + 1) .next (by omega)
    (.inl (by simp; omega))
  have hjoin : ((b₂.push src').push .nop).Open (b₂.size + 1) := .pushed (by simp) rfl rfl
  exact ⟨hdone, h₁.entry_ge, by simp; omega, by omega,
    ((((hjoin.link (by omega)).link (by omega)).link (by omega)).link (by omega)).link (by omega)⟩

/-- The address of an element is taken before the value is computed that goes there: `mid` is the
builder with the address, from which the value starts. -/
theorem storeAt {address store : InstKind} (h₁ : b.Chained none entry exit b₁)
    (hmid : mid = b₁.takeAddr.push address) (h₂ : mid.Chained none entry' exit' b₂)
    (hjump : store.isJump = false) (hret : store.isReturn = false) :
    b.Chained none entry b₂.size
      ((((b₂.push store).link exit b₁.size .next).link b₁.size entry' .next).link
        exit' b₂.size .next) := by
  have hbounds₁ := h₁.bounds
  have hbounds₂ := h₂.bounds
  have hsize : mid.size = b₁.size + 1 := by simp [hmid]
  have hstart : b.Encloses none mid := by
    rw [hmid]
    exact h₁.encloses.takeAddr.push address
  have hplaced := ((hstart.andThen h₂.encloses).push store).link _ b₁.size .next
    h₁.exit_ge (.inl (by simp; omega))
  have hvalued := hplaced.link b₁.size entry' .next (by omega)
    (.inl (by simp; omega))
  have hdone := hvalued.link exit' b₂.size .next (by omega)
    (.inl (by simp; omega))
  exact ⟨hdone, h₁.entry_ge, by simp; omega, by omega,
    (((Open.pushed rfl hjump hret).link (by omega)).link (by omega)).link (by omega)⟩

/-- What follows a break, or a return, hangs off a `nop` of its own. -/
theorem detach (h : b.Encloses out b₁) (hge : b.size ≤ entry) (hlt : entry < b₁.size) :
    b.Chained out entry b₁.size (b₁.push .nop) :=
  ⟨h.push .nop, hge, by simp; omega, h.grows.size_le, .pushed rfl rfl rfl⟩

/-- A break: it leads to where it was told, and what follows hangs off an instruction of its own. -/
theorem leave (b : Builder) (target : Nat) :
    b.Chained (some target) b.size (b.size + 1)
      (((b.push .nop).link b.size target .next).push .nop) := by
  have hnop := ((Encloses.refl b (some target)).push .nop).link _ target .next
    (Nat.le_refl b.size)
    (.inr rfl)
  have hdone := detach hnop (Nat.le_refl b.size) (by simp)
  rwa [size_link, size_push] at hdone

/-- A return: it leads nowhere, and what follows hangs off an instruction of its own. -/
theorem ret (h : b.Chained none entry exit b₁) (kind : InstKind) (out : Option InstId) :
    b.Chained out entry (b₁.size + 1)
      (((b₁.push kind).link exit b₁.size .next).push .nop) := by
  have hbounds := h.bounds
  have hret := ((h.weaken out).encloses.push kind).link _ b₁.size .next h.exit_ge
    (.inl (by simp; omega))
  have hdone := detach hret h.entry_ge (by simp; omega)
  rwa [size_link, size_push] at hdone

/-- A conditional: `mid` is the builder after the jump, from which the first block starts. -/
theorem branch {jump : InstKind} (h : b.Chained none entry exit b₁)
    (hmid : mid = (b₁.push jump).link exit b₁.size .next)
    (h₁ : mid.Chained out (b₁.size + 1) exit₁ b₂) (h₂ : b₂.Chained out b₂.size exit₂ b₃) :
    b.Chained out entry b₃.size
      (((((b₃.push .nop).link b₁.size (b₁.size + 1) .onTrue).link b₁.size b₂.size .next).link
        exit₁ b₃.size .next).link exit₂ b₃.size .next) := by
  have hbounds := h.bounds
  have hbounds₁ := h₁.bounds
  have hbounds₂ := h₂.bounds
  have hsize : mid.size = b₁.size + 1 := by simp [hmid]
  have hstart : b.Encloses out mid := by
    rw [hmid]
    exact ((h.weaken out).encloses.push jump).link _ b₁.size .next h.exit_ge
      (.inl (by simp; omega))
  have hblocks := ((hstart.andThen' h₁.encloses).andThen' h₂.encloses).push .nop
  have htrue := hblocks.link b₁.size (b₁.size + 1) .onTrue (by omega)
    (.inl (by simp; omega))
  have hfalse := htrue.link b₁.size b₂.size .next (by omega)
    (.inl (by simp; omega))
  have hjoined := hfalse.link exit₁ b₃.size .next (by omega)
    (.inl (by simp; omega))
  have hdone := hjoined.link exit₂ b₃.size .next (by omega)
    (.inl (by simp; omega))
  exact ⟨hdone, h.entry_ge, by simp; omega, by omega,
    ((((Open.pushed rfl rfl rfl).link (by omega)).link (by omega)).link (by omega)).link
      (by omega)⟩

/-- A loop. Its end is in the arena before its body is, so that a break can lead there: `mid` is the
builder from which the body starts. For the body that end is outside, and for the loop it is its
exit; so the loop has no breaks. -/
theorem loop {jump : InstKind} (h : b.Chained none entry exit b₁)
    (h₁ : b₁.Chained none entry' exit₁ b₂)
    (hmid : mid = (((b₂.push jump).push .nop).link exit entry' .next).link exit₁ b₂.size .next)
    (h₂ : mid.Chained (some (b₂.size + 1)) (b₂.size + 2) exit₂ b₃)
    (h₃ : b₃.Chained none entry₃ exit₃ b₄) (out : Option InstId) :
    b.Chained out entry (b₂.size + 1)
      ((((b₄.link b₂.size (b₂.size + 2) .onTrue).link b₂.size (b₂.size + 1) .next).link
        exit₂ entry₃ .next).link exit₃ entry' .next) := by
  have hbounds := h.bounds
  have hbounds₁ := h₁.bounds
  have hbounds₂ := h₂.bounds
  have hbounds₃ := h₃.bounds
  have hsize : mid.size = b₂.size + 2 := by simp [hmid]
  have hend : mid.Open (b₂.size + 1) := by
    rw [hmid]
    exact ((Open.pushed (by simp) rfl rfl).link (by omega)).link (by omega)
  have hstart : b.Encloses out mid := by
    have hhead := ((((h.weaken out).encloses.andThen h₁.encloses).push jump).push .nop).link
      _ entry' .next h.exit_ge (.inl (by simp; omega))
    rw [hmid]
    exact hhead.link exit₁ b₂.size .next (by omega) (.inl (by simp; omega))
  -- the breaks of the body lead to an instruction of the loop
  have hbody := (hstart.trans h₂.encloses (by rintro target ⟨⟩; omega)).andThen h₃.encloses
  have htrue := hbody.link b₂.size (b₂.size + 2) .onTrue (by omega)
    (.inl (by omega))
  have hfalse := htrue.link b₂.size (b₂.size + 1) .next (by omega)
    (.inl (by simp; omega))
  have hstep := hfalse.link exit₂ entry₃ .next (by omega)
    (.inl (by simp; omega))
  have hdone := hstep.link exit₃ entry' .next (by omega)
    (.inl (by simp; omega))
  exact ⟨hdone, h.entry_ge, by simp; omega, by omega,
    (((((hend.grows h₂.grows).grows h₃.grows).link (by omega)).link (by omega)).link
      (by omega)).link (by omega)⟩

end Chained

end Builder

/-! ## Expressions

By recursion on the expression. There is nothing to ask for, so each case is just its rule. -/

section

variable {b b' : Builder} {chain : Chain}

/-- A literal is a chain of one instruction. -/
theorem Lower.chained_literal {constant : Constant}
    (h : Lower.literal constant b = .ok (chain, b')) :
    b.Chained none chain.entry chain.exit b' := by
  obtain ⟨rfl, rfl⟩ := Lower.literal_eq_ok.mp h
  have hpool : b.Encloses none (b.intern constant) :=
    (Builder.Encloses.refl b none).of_insts_eq ((Builder.Grows.refl b).intern constant) rfl
  exact .single hpool.takeTemp rfl rfl rfl

/-- The value of a name is a chain of one or two. -/
theorem Lower.chained_varValue {ident : Ident} (h : Lower.varValue ident b = .ok (chain, b')) :
    b.Chained none chain.entry chain.exit b' := by
  obtain ⟨symbol, -, ⟨temp, -, rfl, rfl⟩ | ⟨-, rfl, rfl⟩⟩ := Lower.varValue_eq_ok.mp h
  · exact .nop rfl
  · have haddress : b.Chained none b.size b.size
        (b.takeAddr.push (.addressAt b.nextAddr symbol none)) :=
      .single (Builder.Encloses.refl b none).takeAddr rfl rfl rfl
    have hload := haddress.takeTemp.append (.load b.nextTemp b.nextAddr) rfl rfl
    rwa [Builder.size_takeTemp, Builder.size_push, Builder.size_takeAddr] at hload

end

mutual

/-- The chain of an expression is closed, and no break leads out of it. -/
theorem Expr.chained_of_lower : ∀ (expr : Expr) {b b' : Builder} {chain : Chain},
    expr.lower b = .ok (chain, b') → b.Chained none chain.entry chain.exit b'
  | .int _ _, _, _, _, h => Lower.chained_literal h
  | .bool _ _, _, _, _, h => Lower.chained_literal h
  | .var _ _, _, _, _, h => Lower.chained_varValue h
  | .index _ _ position, _, _, _, h => by
    obtain ⟨symbol, -, index, b₁, hindex, offset, -, rfl, rfl⟩ := Expr.lower_index_eq_ok.mp h
    exact (Expr.chained_of_lower position hindex).takeAddr.takeTemp.appendTwo rfl rfl
  | .unary _ _ operand, _, _, _, h => by
    obtain ⟨left, b₁, hoperand, value, -, -, rfl, rfl⟩ := Expr.lower_unary_eq_ok.mp h
    exact (Expr.chained_of_lower operand hoperand).takeTemp.append _ rfl rfl
  | .binary _ .negate left _, _, _, _, h => by
    obtain ⟨l, b₁, hl, value, -, rfl, rfl⟩ := Expr.lower_negate_eq_ok.mp h
    exact (Expr.chained_of_lower left hl).takeTemp.append _ rfl rfl
  | .binary _ (.arith _) left right, _, _, _, h => by
    obtain ⟨l, b₁, hl, _, -, r, b₂, hr, _, -, rfl, rfl⟩ := Expr.lower_arith_eq_ok.mp h
    exact (Expr.chained_of_lower left hl).combine (Expr.chained_of_lower right hr).takeTemp rfl rfl
  | .binary _ (.compare _) left right, _, _, _, h => by
    obtain ⟨l, b₁, hl, _, -, r, b₂, hr, _, -, rfl, rfl⟩ := Expr.lower_compare_eq_ok.mp h
    exact (Expr.chained_of_lower left hl).combine (Expr.chained_of_lower right hr).takeTemp rfl rfl
  | .binary _ (.connect _) left right, _, _, _, h => by
    obtain ⟨l, b₁, hl, _, -, r, b₂, hr, _, -, rfl, rfl⟩ := Expr.lower_connect_eq_ok.mp h
    exact (Expr.chained_of_lower left hl).connect rfl (Expr.chained_of_lower right hr)
  | .call _ _ args, _, _, _, h => by
    obtain ⟨symbol, -, params, ret, -, temps, exit, b₁, hargs, rfl, rfl⟩ :=
      Expr.lower_call_eq_ok.mp h
    have hcall :=
      ((Expr.chained_of_lowerArgs args (.nop rfl) hargs).takeResult (!ret.isVoid)).append
      (.call (b₁.result (!ret.isVoid)) symbol temps) rfl rfl
    rwa [Builder.size_takeResult] at hcall

/-- Arguments make a chain longer. -/
theorem Expr.chained_of_lowerArgs : ∀ (args : List Expr) {b₀ b b' : Builder}
    {entry exit last : InstId} {temps : List Temp}, b₀.Chained none entry exit b →
    Expr.lowerArgs exit args b = .ok ((temps, last), b') → b₀.Chained none entry last b'
  | [], _, _, _, _, _, _, _, hchained, h => by
    obtain ⟨rfl, rfl, rfl⟩ := Expr.lowerArgs_nil_eq_ok.mp h
    exact hchained
  | arg :: rest, _, _, _, _, _, _, _, hchained, h => by
    obtain ⟨first, b₁, hfirst, temp, -, others, hrest, rfl⟩ := Expr.lowerArgs_cons_eq_ok.mp h
    exact Expr.chained_of_lowerArgs rest (hchained.follow (Expr.chained_of_lower arg hfirst)) hrest

end

/-! ## Statements

By recursion on the statement. A break leads to the exit of the loop around it, which was added
before it, so the loop as a whole is a chain without that way out. -/

/-- The chain of an assignment is closed, and no break leads out of it. -/
theorem Assignment.chained_of_lower {assignment : Assignment} {b b' : Builder} {chain : Chain}
    (h : assignment.lower b = .ok (chain, b')) : b.Chained none chain.entry chain.exit b' := by
  obtain ⟨info, location, value⟩ := assignment
  rcases Assignment.location_of_lower_eq_ok h with
    ⟨place, ident, rfl⟩ | ⟨place, base, position, rfl⟩
  · obtain ⟨symbol, -, v, b₁, hv, src, -, ⟨dst, -, rfl, rfl⟩ | ⟨-, rfl, rfl⟩⟩ :=
      Assignment.lower_var_eq_ok.mp h
    · exact (value.chained_of_lower hv).append _ rfl rfl
    · exact (value.chained_of_lower hv).takeAddr.appendTwo rfl rfl
  · obtain ⟨symbol, -, index, b₁, hindex, offset, -, v, b₂, hv, src, -, rfl, rfl⟩ :=
      Assignment.lower_index_eq_ok.mp h
    exact (position.chained_of_lower hindex).storeAt rfl (value.chained_of_lower hv) rfl rfl

mutual

/-- The chain of a statement is closed but for breaks, which lead to `out` if there is a loop around
the statement. -/
theorem Stmt.chained_of_lower : ∀ (stmt : Stmt) {out : Option InstId} {b b' : Builder}
    {chain : Chain}, stmt.lower out b = .ok (chain, b') →
    b.Chained out chain.entry chain.exit b'
  | .declare _ _, out, b, _, _, h => by
    obtain ⟨symbol, -, rfl, rfl⟩ := Stmt.lower_declare_eq_ok.mp h
    have hbound : b.Encloses out (b.bindNext symbol) :=
      (Builder.Encloses.refl b out).of_insts_eq ((Builder.Grows.refl b).bindNext symbol) rfl
    exact .single hbound rfl rfl rfl
  | .assign _ _, out, _, _, _, h => by
    rw [Stmt.lower_assign] at h
    exact (Assignment.chained_of_lower h).weaken out
  | .call _ _ _, out, _, _, _, h => by
    rw [Stmt.lower_call] at h
    exact (Expr.chained_of_lower _ h).weaken out
  | .ifElse _ cond onTrue onFalse, _, _, _, _, h => by
    obtain ⟨c, b₁, hc, value, -, trueExit, b₂, htrue, falseExit, b₃, hfalse, rfl, rfl⟩ :=
      Stmt.lower_ifElse_eq_ok.mp h
    exact (cond.chained_of_lower hc).branch rfl
      (Stmt.chained_of_lowerAll onTrue.stmts (.nop (by simp)) htrue)
      (Stmt.chained_of_lowerAll onFalse.stmts (.nop rfl) hfalse)
  | .loop _ _ cond _ body, out, _, _, _, h => by
    obtain ⟨i, b₁, hi, c, b₂, hc, value, -, bodyExit, b₃, hbody, step, b₄, hstep, rfl, rfl⟩ :=
      Stmt.lower_loop_eq_ok.mp h
    exact (Assignment.chained_of_lower hi).loop (cond.chained_of_lower hc) rfl
      (Stmt.chained_of_lowerAll body.stmts (.nop (by simp)) hbody)
      (Assignment.chained_of_lower hstep) out
  | .leave _, _, b, _, _, h => by
    obtain ⟨target, rfl, rfl, rfl⟩ := Stmt.lower_leave_eq_ok.mp h
    exact .leave b target
  | .ret _ none, out, b, _, _, h => by
    obtain ⟨rfl, rfl⟩ := Stmt.lower_ret_none_eq_ok.mp h
    have hret := (Builder.Encloses.refl b out).push (.ret none)
    have hdone := Builder.Chained.detach hret (Nat.le_refl b.size) (by simp)
    rwa [Builder.size_push] at hdone
  | .ret _ (some value), out, _, _, _, h => by
    obtain ⟨v, b₁, hv, rfl, rfl⟩ := Stmt.lower_ret_some_eq_ok.mp h
    exact (value.chained_of_lower hv).ret (.ret v.value) out

/-- Statements make a chain longer. -/
theorem Stmt.chained_of_lowerAll : ∀ (stmts : List Stmt) {out : Option InstId} {b₀ b b' : Builder}
    {entry exit last : InstId}, b₀.Chained out entry exit b →
    Stmt.lowerAll out exit stmts b = .ok (last, b') → b₀.Chained out entry last b'
  | [], _, _, _, _, _, _, _, hchained, h => by
    obtain ⟨rfl, rfl⟩ := Stmt.lowerAll_nil_eq_ok.mp h
    exact hchained
  | stmt :: rest, _, _, _, _, _, _, _, hchained, h => by
    obtain ⟨first, b₁, hfirst, hrest⟩ := Stmt.lowerAll_cons_eq_ok.mp h
    exact Stmt.chained_of_lowerAll rest (hchained.follow (Stmt.chained_of_lower stmt hfirst)) hrest

end

end WordLang
