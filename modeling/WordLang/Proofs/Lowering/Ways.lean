import Mathlib.Order.Interval.Set.Defs
import WordLang.Proofs.Lowering.Ends
import WordLang.Proofs.Program.Reach
import WordLang.Proofs.Simulation.Statements
import WordLang.Typing

/-!
# Ways through chains

Whether a way leads through a statement depends on whether the statement returns on every path, as
type checking sees it. Outside of loops the two agree:

* if it does not, the exit of its chain is reached from the entry (`Stmt.reaches_of_lower`);
* if it does, the exit is sealed off from the entry, by a set of new instructions that no edge
  leaves (`Stmt.seals_of_lower`).

Inside of a loop a break leads elsewhere, to the end of the loop, and they do not agree. But
checking does not count what is inside of a loop, and the way past a loop is the one on which its
body never runs.

The two halves need different means. That an exit is reached is shown by giving a way: through each
part from its entry to its exit, and over the edges that link the parts. Such a way is still there
when the graph is finished. That an exit is not reached is shown by giving a set of instructions
with the entry in it and the exit not, which no edge leaves. That need not last: a later link could
lead out of the set. It does last because links are set at open ends, and the only open end of a
chain that can be linked later is its exit, which is outside of the set.
-/

namespace WordLang

open Relation

/-- A successor is what one of the two edges leads to. -/
theorem Inst.mem_successors_iff {inst : Inst} {target : InstId} :
    target ∈ inst.successors ↔ ∃ edge, inst.target edge = some target := by
  rw [Inst.successors, List.mem_append, Option.mem_toList, Option.mem_toList]
  constructor
  · rintro (h | h)
    · exact ⟨.next, h⟩
    · exact ⟨.onTrue, h⟩
  · rintro ⟨_ | _, h⟩
    · exact .inl h
    · exact .inr h

namespace Builder

variable {b b' b₀ g : Builder} {id id' source target entry exit : Nat} {edge : Edge}

/-- Control may go to what one of the edges leads to. -/
theorem links_iff : b.routine.Links id target ↔ ∃ edge, b.target? id edge = some target := by
  constructor
  · rintro ⟨inst, hinst, htarget⟩
    obtain ⟨edge, hedge⟩ := Inst.mem_successors_iff.mp htarget
    exact ⟨edge, Option.bind_eq_some_iff.mpr ⟨inst, hinst, hedge⟩⟩
  · rintro ⟨edge, h⟩
    obtain ⟨inst, hinst, hedge⟩ := Option.bind_eq_some_iff.mp h
    exact ⟨inst, hinst, Inst.mem_successors_iff.mpr ⟨edge, hedge⟩⟩

/-- In particular along a given edge. -/
theorem links_of_target? (h : b.target? id edge = some target) : b.routine.Links id target :=
  links_iff.mpr ⟨edge, h⟩

/-! ## Ways that lead through

Everything new is reached from the entry, down to the exit. In an expression there is hardly
anything to show, as all edges lead on. -/

/-- A way stays one when the graph is finished. -/
theorem Within.reaches (h : b.Within g) (hreaches : b.routine.Reaches id id') :
    g.routine.Reaches id id' := by
  refine ReflTransGen.mono (fun id target hlinks => ?_) id id' hreaches
  obtain ⟨edge, hedge⟩ := links_iff.mp hlinks
  exact links_of_target? (h.edges id edge target hedge)

/-- From everywhere in a chain that leads straight on, the exit is reached: edges lead to later
instructions of the chain, and all but the exit have one. By induction on how far it is to the end
of the arena. -/
theorem Straight.reaches (h : b.Straight [exit] b') (hchained : b.Chained none entry exit b')
    (hge : b.size ≤ id) (hlt : id < b'.size) : b'.routine.Reaches id exit := by
  induction hn : b'.size - id using Nat.strong_induction_on generalizing id with
  | _ n ih =>
    have hinst : b'.inst? id = some b'.routine.insts[id] := Array.getElem?_eq_getElem hlt
    have hstraight := h id _ hge hinst
    -- an edge leads to a later instruction, and there are fewer of those
    by_cases hleaf : (b'.routine.insts[id]).successors = []
    · obtain rfl := List.mem_singleton.mp (hstraight.goes hleaf)
      exact .refl
    · obtain ⟨target, htarget⟩ := List.exists_mem_of_ne_nil _ hleaf
      have hless := Nat.sub_lt_sub_left hlt (hstraight.forward target htarget)
      rcases hchained.encloses.inside id _ hge hinst target htarget with ⟨hge', hlt'⟩ | hout
      · exact .head ⟨_, hinst, htarget⟩ (ih (b'.size - target) (hn ▸ hless) hge' hlt' rfl)
      · cases hout

end Builder

section

variable {b b' b₀ g : Builder} {chain : Chain}

/-- The exit of an expression is reached from its entry. -/
theorem Expr.reaches_of_lower {expr : Expr} (h : expr.lower b = .ok (chain, b')) :
    b'.routine.Reaches chain.entry chain.exit :=
  have hchained := expr.chained_of_lower h
  (expr.straight_of_lower h).reaches hchained hchained.entry_ge hchained.entry_lt

/-- So is that of an assignment. -/
theorem Assignment.reaches_of_lower {assignment : Assignment}
    (h : assignment.lower b = .ok (chain, b')) : b'.routine.Reaches chain.entry chain.exit :=
  have hchained := Assignment.chained_of_lower h
  (Assignment.straight_of_lower h).reaches hchained hchained.entry_ge hchained.entry_lt

/-- Back over statements, to the stage before them. A block is in the finished graph, so its first
instruction is. -/
theorem Stmt.within_of_lowerAll {out : Option InstId} {entry exit last : Nat} (stmts : List Stmt)
    (hb : b.Settled) (hspans : b₀.Spans out entry exit b)
    (h : Stmt.lowerAll out exit stmts b = .ok (last, b')) (hw : b'.Within g) : b.Within g := by
  induction stmts generalizing b exit with
  | nil =>
    obtain ⟨rfl, rfl⟩ := Stmt.lowerAll_nil_eq_ok.mp h
    exact hw
  | cons stmt rest ih =>
    obtain ⟨first, b₁, hfirst, hrest⟩ := Stmt.lowerAll_cons_eq_ok.mp h
    have hstmt := Stmt.spans_of_lower stmt hb hfirst
    have hw₁ := ih ((hb.grows hstmt.grows).of_locals_eq (by simp) (by simp)) (hspans.follow hstmt)
      hrest
    exact (hw₁.of_link ((hspans.exit_open.grows hstmt.grows).unset .next)).of_grows hstmt.grows

mutual

/-- The exit of a statement that does not return on every path is reached from its entry. The way is
one of the finished graph `g`, in which the links of the conditional are set; and there is no break,
since the statement is not inside of a loop. -/
theorem Stmt.reaches_of_lower : ∀ (stmt : Stmt) {b b' : Builder} {chain : Chain},
    stmt.returns = false → b.Settled → stmt.lower none b = .ok (chain, b') → b'.Within g →
    g.routine.Reaches chain.entry chain.exit
  | .declare info decl, b, b', chain, _, _, h, _ => by
    obtain ⟨symbol, -, rfl, rfl⟩ := Stmt.lower_declare_eq_ok.mp h
    exact .refl
  | .assign info assignment, b, b', chain, _, hb, h, hw => by
    rw [Stmt.lower_assign] at h
    exact hw.reaches (Assignment.reaches_of_lower h)
  | .call info callee args, b, b', chain, _, hb, h, hw => by
    rw [Stmt.lower_call] at h
    exact hw.reaches (Expr.reaches_of_lower h)
  | .ifElse info cond onTrue onFalse, b, b', chain, hreturns, hb, h, hw => by
    obtain ⟨c, b₁, hc, value, -, trueExit, b₂, htrue, falseExit, b₃, hfalse, rfl, rfl⟩ :=
      Stmt.lower_ifElse_eq_ok.mp h
    have hcond := cond.evaluates_of_lower hb hc
    obtain ⟨hmid, hspansTrue, hb₂, hspansFalse⟩ := Stmt.spans_of_lower_ifElse hb hc htrue hfalse
    obtain ⟨hw₃, -, honTrue, honZero, hexitTrue, hexitFalse⟩ :=
      hw.unbranch hcond.exit_lt rfl hspansTrue hspansFalse
    have hw₂ := (Stmt.within_of_lowerAll onFalse.stmts hb₂ (.nop rfl) hfalse hw₃).of_push
    have hwMid := (Stmt.within_of_lowerAll onTrue.stmts hmid (.nop (by simp)) htrue hw₂).of_push
    obtain ⟨hnext, -, hw₁⟩ := hwMid.unappend hcond.exit_open
    have hjump : g.routine.Reaches c.entry b₁.size :=
      (hw₁.reaches (Expr.reaches_of_lower hc)).tail (Builder.links_of_target? hnext)
    -- one of the blocks can be got through, and both lead to the join
    rcases Bool.and_eq_false_iff.mp hreturns with hopen | hopen
    · have hblock := Stmt.reaches_of_lowerAll onTrue.stmts hopen hmid (.nop (by simp)) htrue hw₂
      exact ((hjump.tail (Builder.links_of_target? honTrue)).trans hblock).tail
        (Builder.links_of_target? hexitTrue)
    · have hblock := Stmt.reaches_of_lowerAll onFalse.stmts hopen hb₂ (.nop rfl) hfalse hw₃
      exact ((hjump.tail (Builder.links_of_target? honZero)).trans hblock).tail
        (Builder.links_of_target? hexitFalse)
  | .loop info init cond increment body, b, b', chain, _, hb, h, hw => by
    obtain ⟨i, b₁, hi, c, b₂, hc, value, -, bodyExit, b₃, hbody, step, b₄, hstep, rfl, rfl⟩ :=
      Stmt.lower_loop_eq_ok.mp h
    have hinit := (Assignment.spans_of_lower hb hi).1
    have hb₁ := hb.grows hinit.grows
    have hcond := cond.evaluates_of_lower hb₁ hc
    obtain ⟨hmid, hspansBody, hb₃, hspansStep⟩ := Stmt.spans_of_lower_loop hb₁ hc hbody hstep
    obtain ⟨hw₄, -, honZero, -, -⟩ := hw.unloop
      (Nat.lt_of_lt_of_le hinit.exit_lt hcond.grows.size_le) hcond.exit_lt rfl hspansBody hspansStep
    have hwMid := Stmt.within_of_lowerAll body.stmts hmid (.nop (by simp)) hbody
      (hw₄.of_grows hspansStep.grows)
    obtain ⟨hw₂, -, -, hfirst, hnext⟩ := hwMid.of_push.unloopHead hinit.exit_open hcond.exit_open
      hcond.exit_ge hcond.grows
    -- past the loop on the way where the condition does not hold at all
    have hentered : g.routine.Reaches i.entry c.entry :=
      ((hw₂.of_grows hcond.grows).reaches (Assignment.reaches_of_lower hi)).tail
        (Builder.links_of_target? hfirst)
    have hdecided : g.routine.Reaches c.entry b₂.size :=
      (hw₂.reaches (Expr.reaches_of_lower hc)).tail (Builder.links_of_target? hnext)
    exact (hentered.trans hdecided).tail (Builder.links_of_target? honZero)
  | .leave info, b, b', chain, _, _, h, _ => by
    obtain ⟨target, hout, -⟩ := Stmt.lower_leave_eq_ok.mp h
    cases hout

/-- So is the end of statements none of which returns on every path. -/
theorem Stmt.reaches_of_lowerAll : ∀ (stmts : List Stmt) {b₀ b b' : Builder}
    {entry exit last : Nat}, Stmt.anyReturns stmts = false → b.Settled →
    b₀.Spans none entry exit b → Stmt.lowerAll none exit stmts b = .ok (last, b') → b'.Within g →
    g.routine.Reaches exit last
  | [], b₀, b, b', entry, exit, last, _, _, _, h, _ => by
    obtain ⟨rfl, rfl⟩ := Stmt.lowerAll_nil_eq_ok.mp h
    exact .refl
  | stmt :: rest, b₀, b, b', entry, exit, last, hreturns, hb, hspans, h, hw => by
    obtain ⟨first, b₁, hfirst, hrest⟩ := Stmt.lowerAll_cons_eq_ok.mp h
    obtain ⟨hreturnsFirst, hreturnsRest⟩ := Bool.or_eq_false_iff.mp hreturns
    have hstmt := Stmt.spans_of_lower stmt hb hfirst
    have hb₁ : (b₁.link exit first.entry .next).Settled :=
      (hb.grows hstmt.grows).of_locals_eq (by simp) (by simp)
    have hothers := Stmt.reaches_of_lowerAll rest hreturnsRest hb₁ (hspans.follow hstmt) hrest hw
    have hexit := hspans.exit_open.grows hstmt.grows
    obtain ⟨hnext, hw₁⟩ := (Stmt.within_of_lowerAll rest hb₁ (hspans.follow hstmt) hrest hw).unlink
      hexit.lt_size (hexit.unset .next)
    exact (ReflTransGen.head (Builder.links_of_target? hnext)
      (Stmt.reaches_of_lower stmt hreturnsFirst hb hfirst hw₁)).trans hothers

end

end

/-! ## Ways that are sealed off

A set that no edge leaves, and the operations that keep it so. Such a set is never made smaller: it
is the union of those of the parts, with what comes before them. -/

namespace Builder

variable {b b' b₀ : Builder} {source target entry exit : Nat} {edge : Edge} {kind : InstKind}
  {s : Set InstId}

/-- A new instruction leads nowhere, so there is no new way. -/
theorem links_push {id : Nat} (h : (b.push kind).routine.Links id target) :
    b.routine.Links id target := by
  obtain ⟨inst, hinst, htarget⟩ := h
  have hinst' : (b.push kind).inst? id = some inst := hinst
  rw [inst?_push] at hinst'
  split at hinst'
  · obtain rfl := Option.some.inj hinst'
    cases htarget
  · exact ⟨inst, hinst', htarget⟩

/-- An edge that is set is the only new way. -/
theorem links_link {id target' : Nat} (h : (b.link source target edge).routine.Links id target') :
    id = source ∧ target' = target ∨ b.routine.Links id target' := by
  obtain ⟨inst, hinst, htarget⟩ := h
  have hinst' : (b.link source target edge).inst? id = some inst := hinst
  rw [inst?_link] at hinst'
  split at hinst'
  · next heq =>
    obtain ⟨old, hold, rfl⟩ := Option.map_eq_some_iff.mp hinst'
    rcases Inst.mem_successors_link htarget with rfl | hmem
    · exact .inl ⟨heq.symm, rfl⟩
    · exact .inr ⟨old, hold, hmem⟩
  · exact .inr ⟨inst, hinst', htarget⟩

end Builder

namespace Routine.Closed

variable {b b' b₀ : Builder} {source target : Nat} {edge : Edge} {kind : InstKind} {s : Set InstId}

/-- A part of a graph that has no breaks is closed. -/
theorem of_builds {pending : List InstId} (h : b₀.Builds none pending b) :
    b.routine.Closed (Set.Ico b₀.size b.size) := by
  rintro id ⟨hge, -⟩ target ⟨inst, hinst, htarget⟩
  rcases (h.admits id inst hge hinst).targets target htarget with hmem | hout
  · exact hmem
  · cases hout

/-- What is closed stays closed as long as no edge is set at its members. Growth sets none at an
instruction that has been there, except at open ends, and then it does so by links. -/
theorem grows (h : b.routine.Closed s) (hs : ∀ id ∈ s, id < b.size) (hb : b.Grows b') :
    b'.routine.Closed s := by
  rintro id hid target ⟨inst, hinst, htarget⟩
  refine h id hid target ⟨inst, ?_, htarget⟩
  exact (hb.keeps id (hs id hid)).symm.trans hinst

/-- A new instruction outside changes nothing. -/
theorem push (h : b.routine.Closed s) (kind : InstKind) : (b.push kind).routine.Closed s :=
  fun id hid target hlinks => h id hid target (Builder.links_push hlinks)

/-- A part that is closed stays so with one more instruction, which leads nowhere yet. -/
theorem pushLast {floor : Nat} (h : b.routine.Closed (Set.Ico floor b.size)) (kind : InstKind) :
    (b.push kind).routine.Closed (Set.Ico floor (b.size + 1)) := by
  rintro id ⟨hge, -⟩ target hlinks
  have hlinks := Builder.links_push hlinks
  have hmem := h id ⟨hge, hlinks.lt_size⟩ target hlinks
  exact ⟨hmem.1, Nat.lt_succ_of_lt hmem.2⟩

/-- Nor does an edge that does not lead out. -/
theorem link (h : b.routine.Closed s) (source target : Nat) (edge : Edge)
    (hs : source ∈ s → target ∈ s) : (b.link source target edge).routine.Closed s := by
  intro id hid target' hlinks
  rcases Builder.links_link hlinks with ⟨rfl, rfl⟩ | hold
  · exact hs hid
  · exact h id hid target' hold

end Routine.Closed

namespace Builder

/-- No way leads from `entry` to `exit`, nor out of what was added since `b`. The witness is a set
of new instructions, and every way from the entry stays in it. -/
def Seals (b : Builder) (entry exit : Nat) (b' : Builder) : Prop :=
  ∃ s ⊆ Set.Ico b.size b'.size, entry ∈ s ∧ exit ∉ s ∧ b'.routine.Closed s

namespace Seals

variable {b b₀ b₁ b₂ b₃ mid : Builder} {entry exit entry' exit' : Nat}

/-- What comes after a sealed part hangs off its exit, and the entry stays sealed off from it. The
set is the same, because it has no part of what is new. -/
theorem follow (h : b₀.Seals entry exit b) (h' : b.Spans none entry' exit' b₁) :
    b₀.Seals entry exit' (b₁.link exit entry' .next) := by
  obtain ⟨s, hs, hentry, hexit, hclosed⟩ := h
  have hlt : ∀ id ∈ s, id < b.size := fun id hid => (hs hid).2
  refine ⟨s, fun id hid => ⟨(hs hid).1, ?_⟩, hentry, fun hmem => ?_, ?_⟩
  · rw [size_link]
    exact Nat.lt_of_lt_of_le (hlt id hid) h'.grows.size_le
  · exact absurd (hlt exit' hmem) (Nat.not_lt.mpr h'.exit_ge)
  · exact (hclosed.grows hlt h'.grows).link exit entry' .next fun hmem => absurd hmem hexit

/-- A sealed part after another one seals both. The set has all of the first part in it, whose exit
leads into the second. -/
theorem precede (h : b₀.Spans none entry exit b) (h' : b.Seals entry' exit' b₁)
    (hb₁ : b.Grows b₁) (hexit' : b.size ≤ exit') :
    b₀.Seals entry exit' (b₁.link exit entry' .next) := by
  obtain ⟨s, hs, hentry, hexit, hclosed⟩ := h'
  have hpart := (Routine.Closed.of_builds h.builds).grows (fun id hid => hid.2) hb₁
  refine ⟨Set.Ico b₀.size b.size ∪ s, ?_, .inl ⟨h.entry_ge, h.entry_lt⟩, ?_, ?_⟩
  · rw [size_link]
    rintro id (hid | hid)
    · exact ⟨hid.1, Nat.lt_of_lt_of_le hid.2 hb₁.size_le⟩
    · exact ⟨Nat.le_trans h.grows.size_le (hs hid).1, (hs hid).2⟩
  · rintro (hmem | hmem)
    · exact absurd hmem.2 (Nat.not_lt.mpr hexit')
    · exact hexit hmem
  · exact (hpart.union hclosed).link exit entry' .next fun _ => .inr hentry

/-- A return, at the end of the part that evaluates its value. -/
theorem ret (h : b.Spans none entry exit b₁) (value : Option Temp) :
    b.Seals entry (b₁.size + 1) (((b₁.push (.ret value)).link exit b₁.size .next).push .nop) := by
  refine ⟨Set.Ico b.size (b₁.size + 1), ?_, ⟨h.entry_ge, Nat.lt_succ_of_lt h.entry_lt⟩, ?_, ?_⟩
  · simp only [size_push, size_link]
    exact fun id hid => ⟨hid.1, Nat.lt_succ_of_lt hid.2⟩
  · exact fun hmem => Nat.lt_irrefl _ hmem.2
  · refine (((Routine.Closed.of_builds h.builds).pushLast (.ret value)).link exit b₁.size .next
      fun _ => ?_).push .nop
    exact ⟨h.grows.size_le, Nat.lt_succ_self _⟩

/-- A conditional both of whose blocks are sealed: `mid` is the builder after the jump, from which
the first block starts. The set has the condition, the jump, and the sets of both blocks; the join
is outside, and so are the exits from which it is linked. -/
theorem branch {exit₁ exit₂ : Nat} {value : Temp} (h : b.Spans none entry exit b₁)
    (hmid : mid = (b₁.push (.jump value)).link exit b₁.size .next)
    (h₁ : mid.Spans none (b₁.size + 1) exit₁ b₂) (hseals₁ : mid.Seals (b₁.size + 1) exit₁ b₂)
    (h₂ : b₂.Spans none b₂.size exit₂ b₃) (hseals₂ : b₂.Seals b₂.size exit₂ b₃) :
    b.Seals entry b₃.size
      (((((b₃.push .nop).link b₁.size (b₁.size + 1) .onTrue).link b₁.size b₂.size .next).link
        exit₁ b₃.size .next).link exit₂ b₃.size .next) := by
  have hmids : mid.size = b₁.size + 1 := by simp [hmid]
  have hsize : b.size ≤ mid.size := hmids ▸ Nat.le_succ_of_le h.grows.size_le
  have hentry : entry < mid.size := hmids ▸ Nat.lt_succ_of_lt h.entry_lt
  -- the condition and the jump
  have hclosed : mid.routine.Closed (Set.Ico b.size mid.size) := by
    rw [hmid, size_link, size_push]
    exact ((Routine.Closed.of_builds h.builds).pushLast (.jump value)).link exit b₁.size .next
      fun _ => ⟨h.grows.size_le, Nat.lt_succ_self _⟩
  obtain ⟨s₁, hs₁, hentry₁, hexit₁, hclosed₁⟩ := hseals₁
  obtain ⟨s₂, hs₂, hentry₂, hexit₂, hclosed₂⟩ := hseals₂
  have hrange : Set.Ico b.size mid.size ∪ s₁ ⊆ Set.Ico b.size b₂.size := by
    rintro id (hid | hid)
    · exact ⟨hid.1, Nat.lt_of_lt_of_le hid.2 h₁.grows.size_le⟩
    · exact ⟨Nat.le_trans hsize (hs₁ hid).1, (hs₁ hid).2⟩
  -- neither exit is in the set, so the links to the join do not leave it
  have hsealed₁ : exit₁ ∉ Set.Ico b.size mid.size ∪ s₁ ∪ s₂ := by
    rintro ((hmem | hmem) | hmem)
    · exact absurd hmem.2 (Nat.not_lt.mpr h₁.exit_ge)
    · exact hexit₁ hmem
    · exact absurd (hs₂ hmem).1 (Nat.not_le.mpr h₁.exit_lt)
  have hsealed₂ : exit₂ ∉ Set.Ico b.size mid.size ∪ s₁ ∪ s₂ := by
    rintro (hmem | hmem)
    · exact absurd (hrange hmem).2 (Nat.not_lt.mpr h₂.exit_ge)
    · exact hexit₂ hmem
  have hall : b₃.routine.Closed (Set.Ico b.size mid.size ∪ s₁ ∪ s₂) :=
    ((((hclosed.grows (fun id hid => hid.2) h₁.grows).union hclosed₁).grows
      (fun id hid => (hrange hid).2) h₂.grows).union hclosed₂)
  refine ⟨Set.Ico b.size mid.size ∪ s₁ ∪ s₂, ?_, .inl (.inl ⟨h.entry_ge, hentry⟩), ?_, ?_⟩
  · simp only [size_link, size_push]
    rintro id (hid | hid)
    · exact ⟨(hrange hid).1, Nat.lt_succ_of_lt (Nat.lt_of_lt_of_le (hrange hid).2 h₂.grows.size_le)⟩
    · exact ⟨Nat.le_trans (Nat.le_trans hsize h₁.grows.size_le) (hs₂ hid).1,
        Nat.lt_succ_of_lt (hs₂ hid).2⟩
  · rintro (hmem | hmem)
    · exact absurd (hrange hmem).2 (Nat.not_lt.mpr h₂.grows.size_le)
    · exact absurd (hs₂ hmem).2 (Nat.lt_irrefl _)
  · have htrue := (hall.push .nop).link b₁.size (b₁.size + 1) .onTrue fun _ => .inl (.inr hentry₁)
    have hfalse := htrue.link b₁.size b₂.size .next fun _ => .inr hentry₂
    have hdone := hfalse.link exit₁ b₃.size .next fun hmem => absurd hmem hsealed₁
    exact hdone.link exit₂ b₃.size .next fun hmem => absurd hmem hsealed₂

end Seals

end Builder

/-- Statements after a sealed part change nothing about that. -/
theorem Stmt.seals_of_lowerAll_of_seals {b₀ b b' : Builder} {entry exit last : Nat}
    (stmts : List Stmt) (hb : b.Settled) (hseals : b₀.Seals entry exit b)
    (h : Stmt.lowerAll none exit stmts b = .ok (last, b')) : b₀.Seals entry last b' := by
  induction stmts generalizing b exit with
  | nil =>
    obtain ⟨rfl, rfl⟩ := Stmt.lowerAll_nil_eq_ok.mp h
    exact hseals
  | cons stmt rest ih =>
    obtain ⟨first, b₁, hfirst, hrest⟩ := Stmt.lowerAll_cons_eq_ok.mp h
    have hstmt := Stmt.spans_of_lower stmt hb hfirst
    exact ih ((hb.grows hstmt.grows).of_locals_eq (by simp) (by simp)) (hseals.follow hstmt) hrest

mutual

/-- The exit of a statement that returns on every path is sealed off from its entry. Only returns
and conditionals can do so, hence there are no other cases. -/
theorem Stmt.seals_of_lower : ∀ (stmt : Stmt) {b b' : Builder} {chain : Chain},
    stmt.returns = true → b.Settled → stmt.lower none b = .ok (chain, b') →
    b.Seals chain.entry chain.exit b'
  | .ifElse info cond onTrue onFalse, b, b', chain, hreturns, hb, h => by
    obtain ⟨c, b₁, hc, value, -, trueExit, b₂, htrue, falseExit, b₃, hfalse, rfl, rfl⟩ :=
      Stmt.lower_ifElse_eq_ok.mp h
    obtain ⟨hreturnsTrue, hreturnsFalse⟩ := Bool.and_eq_true_iff.mp hreturns
    have hcond := cond.evaluates_of_lower hb hc
    obtain ⟨hmid, hspansTrue, hb₂, hspansFalse⟩ := Stmt.spans_of_lower_ifElse hb hc htrue hfalse
    exact .branch hcond.toSpans rfl hspansTrue
      (Stmt.seals_of_lowerAll onTrue.stmts hreturnsTrue hmid (.nop (by simp)) htrue) hspansFalse
      (Stmt.seals_of_lowerAll onFalse.stmts hreturnsFalse hb₂ (.nop rfl) hfalse)
  | .ret info none, b, b', chain, _, _, h => by
    obtain ⟨rfl, rfl⟩ := Stmt.lower_ret_none_eq_ok.mp h
    refine ⟨{b.size}, ?_, rfl, Nat.succ_ne_self b.size, ?_⟩
    · rintro id rfl
      refine ⟨Nat.le_refl _, ?_⟩
      rw [Builder.size_push, Builder.size_push]
      exact Nat.lt_succ_of_lt (Nat.lt_succ_self _)
    · rintro id rfl target hlinks
      exact absurd (Builder.links_push (Builder.links_push hlinks)).lt_size (Nat.lt_irrefl _)
  | .ret info (some expr), b, b', chain, _, hb, h => by
    obtain ⟨v, b₁, hv, rfl, rfl⟩ := Stmt.lower_ret_some_eq_ok.mp h
    exact .ret (expr.evaluates_of_lower hb hv).toSpans v.value

/-- So is what follows statements one of which returns on every path: the first one seals off what
comes after it, or a later one does, with this one before it. -/
theorem Stmt.seals_of_lowerAll : ∀ (stmts : List Stmt) {b₀ b b' : Builder} {entry exit last : Nat},
    Stmt.anyReturns stmts = true → b.Settled → b₀.Spans none entry exit b →
    Stmt.lowerAll none exit stmts b = .ok (last, b') → b₀.Seals entry last b'
  | stmt :: rest, b₀, b, b', entry, exit, last, hreturns, hb, hspans, h => by
    obtain ⟨first, b₁, hfirst, hrest⟩ := Stmt.lowerAll_cons_eq_ok.mp h
    have hstmt := Stmt.spans_of_lower stmt hb hfirst
    have hb₁ : (b₁.link exit first.entry .next).Settled :=
      (hb.grows hstmt.grows).of_locals_eq (by simp) (by simp)
    -- the first statement that returns seals off what comes after it
    rcases Bool.or_eq_true_iff.mp hreturns with hfirstReturns | hrestReturns
    · have hseals := Stmt.seals_of_lower stmt hfirstReturns hb hfirst
      exact Stmt.seals_of_lowerAll_of_seals rest hb₁
        (.precede hspans hseals hstmt.grows hstmt.exit_ge) hrest
    · exact Stmt.seals_of_lowerAll rest hrestReturns hb₁ (hspans.follow hstmt) hrest

end

end WordLang
