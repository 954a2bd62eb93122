import WordLang.Proofs.Coverage
import WordLang.Proofs.Program.Ready

/-!
# Lowering writes registers before it reads them

A chain is looked at from its end: if nothing is missing where its exit leads, once its value has
been written, then nothing is missing at its entry (`Provides`). So what a construct reads is
settled where the construct is put together from its parts, and branches and loops need nothing
more: both sides of a connective write its register, an address waits in its register while the
value to store there is evaluated, and so do arguments until the call. Between statements no
register has to wait, apart from those of the parameters and locals, which count as written from the
start.

That nothing is missing at a place is said with a number of steps: along every path of so many steps
from there, whatever is read has been written (`Routine.Ready`). The number makes loops easy. Going
around a loop takes at least one step, so what has to be known about the next round is about fewer
steps, and an induction on the number is all that is needed (`Provides.ready_loop`).

Which registers have been written is a list. It only ever gets longer along a path, so a construct
may forget what it needs no more (`ReadyAfter.mono`).

The result does not depend on checking. It holds of every tree that can be lowered, since a chain
reads only registers that its own parts have written, and those of parameters and locals.
-/

namespace WordLang

namespace Builder

/-- The registers of the parameters and locals. They are granted from the start: a local that is
read before it is assigned to is the program's own affair. -/
def homes (g : Builder) : Set Register :=
  { r | ∃ entry ∈ g.locals, r = .temp entry.2 }

/-- Nothing is missing where an instruction leads on. An instruction that has no edge yet leads
nowhere, and then there is nothing to ask. -/
def ReadyAfter (g : Builder) (steps : Nat) (written : Set Register) (id : InstId) : Prop :=
  ∀ target, g.target? id .next = some target → g.routine.Ready steps written target

variable {g b b₁ b₂ : Builder} {constants : List Constant} {steps steps' : Nat}
  {written written' : Set Register} {id target : InstId} {kind : InstKind}

/-! ## Steps

What an instruction reads and writes, and what that means for the place before it. -/

/-- It does no harm if more has been written. -/
theorem ReadyAfter.mono (h : g.ReadyAfter steps written id) (hsub : written ⊆ written') :
    g.ReadyAfter steps written' id :=
  fun target htarget => (h target htarget).mono hsub

/-- Nor if fewer steps are asked for. -/
theorem ReadyAfter.fewer (h : g.ReadyAfter steps written id) (hle : steps' ≤ steps) :
    g.ReadyAfter steps' written id :=
  fun target htarget => (h target htarget).fewer hle

/-- From where an edge leads, to its source. -/
theorem ReadyAfter.goes (hnext : g.target? id .next = some target)
    (h : g.routine.Ready steps written target) : g.ReadyAfter steps written id := by
  intro other hother
  obtain rfl := Option.some.inj (hnext.symm.trans hother)
  exact h

/-- An instruction that leads on with one more register written. This is the step of the whole
development: what it reads has been written, and what comes after it may rely on what it writes. -/
theorem Has.ready (hhas : g.Has id kind) (hg : g.routine.Sound constants)
    (hjump : kind.isJump = false) (hreads : ∀ r ∈ kind.reads, r ∈ written)
    (hnext : g.ReadyAfter steps (adding written kind.dst) id) :
    g.routine.Ready steps written id := by
  cases steps with
  | zero => trivial
  | succ steps =>
    obtain ⟨inst, hinst, rfl⟩ := Option.map_eq_some_iff.mp hhas
    intro other hother
    obtain rfl := Option.some.inj (hinst.symm.trans hother)
    refine ⟨hreads, fun target htarget => ?_⟩
    obtain ⟨edge, hedge⟩ := Inst.mem_successors_iff.mp htarget
    cases edge with
    | next =>
      exact (hnext target (Option.bind_eq_some_iff.mpr ⟨inst, hinst, hedge⟩)).fewer (by omega)
    | onTrue =>
      have htrue : inst.onTrue = some target := hedge
      have hbranch := (hg.insts id inst hinst).branch (by rw [htrue]; rfl)
      rw [hjump] at hbranch
      cases hbranch

/-- A jump, from which both sides take one step less. It writes nothing. -/
theorem Has.ready_jump {cond : Temp} (hhas : g.Has id (.jump cond)) (hcond : .temp cond ∈ written)
    (hnext : g.ReadyAfter steps written id)
    (htrue : ∀ target, g.target? id .onTrue = some target → g.routine.Ready steps written target) :
    g.routine.Ready (steps + 1) written id := by
  obtain ⟨inst, hinst, hkind⟩ := Option.map_eq_some_iff.mp hhas
  intro other hother
  obtain rfl := Option.some.inj (hinst.symm.trans hother)
  refine ⟨fun r hr => ?_, fun target htarget => ?_⟩
  · rw [hkind] at hr
    obtain rfl := List.mem_singleton.mp hr
    exact hcond
  · obtain ⟨edge, hedge⟩ := Inst.mem_successors_iff.mp htarget
    have hgoes : g.target? id edge = some target := Option.bind_eq_some_iff.mpr ⟨inst, hinst, hedge⟩
    refine Routine.Ready.mono ?_ subset_adding
    cases edge with
    | next => exact hnext target hgoes
    | onTrue => exact htrue target hgoes

/-- A jump whose sides are both known. Connectives use the two edges the one way or the other, so it
is stated for any naming of them. -/
theorem Has.ready_fork {cond : Temp} {edge edge' : Edge} {target' : InstId}
    (hhas : g.Has id (.jump cond)) (hcond : .temp cond ∈ written) (hne : edge' ≠ edge)
    (hedge : g.target? id edge = some target) (hedge' : g.target? id edge' = some target')
    (h : g.routine.Ready steps written target) (h' : g.routine.Ready steps written target') :
    g.routine.Ready steps written id := by
  have hside :
    ∀ side other, g.target? id side = some other → g.routine.Ready steps written other := by
    intro side other hother
    have hcases : side = edge ∨ side = edge' := by
      cases side <;> cases edge <;> cases edge' <;> simp_all
    rcases hcases with rfl | rfl
    · obtain rfl := Option.some.inj (hedge.symm.trans hother)
      exact h
    · obtain rfl := Option.some.inj (hedge'.symm.trans hother)
      exact h'
  cases steps with
  | zero => trivial
  | succ steps =>
    exact hhas.ready_jump hcond
      (fun other hother => (hside .next other hother).fewer (Nat.le_succ steps))
      (fun other hother => (hside .onTrue other hother).fewer (Nat.le_succ steps))

/-- A return leads nowhere. -/
theorem Has.ready_ret {value : Option Temp} (hhas : g.Has id (.ret value))
    (hg : g.routine.Sound constants) (hvalue : ∀ t, value = some t → .temp t ∈ written) :
    g.routine.Ready steps written id := by
  refine hhas.ready hg rfl (fun r hr => ?_) (fun target htarget => ?_)
  · cases value with
    | none => cases hr
    | some t =>
      obtain rfl := List.mem_singleton.mp hr
      exact hvalue t rfl
  · obtain ⟨inst, hinst, hedge⟩ := Option.bind_eq_some_iff.mp htarget
    obtain ⟨other, hother, hkind⟩ := Option.map_eq_some_iff.mp hhas
    obtain rfl := Option.some.inj (hinst.symm.trans hother)
    have hnone := (hg.insts id inst hinst).final (by rw [hkind]; rfl)
    have hmem := Inst.mem_successors_iff.mpr ⟨.next, hedge⟩
    rw [hnone] at hmem
    cases hmem

/-- A `nop` reads and writes nothing. -/
theorem Has.ready_nop (hhas : g.Has id .nop) (hg : g.routine.Sound constants)
    (hnext : g.ReadyAfter steps written id) : g.routine.Ready steps written id :=
  hhas.ready hg rfl nofun (hnext.mono subset_adding)

end Builder

/-! ## Expressions

Going backwards through an expression: what its operator reads is what its operands have written. -/

/-- Nothing is missing at the entry of a chain, if nothing is where its exit leads with its value
written. -/
def Provides (g : Builder) (chain : Chain) : Prop :=
  ∀ steps written, g.homes ⊆ written →
    g.ReadyAfter steps (adding written (chain.value.map .temp)) chain.exit →
      g.routine.Ready steps written chain.entry

/-- From where `exit` leads nothing is missing, if nothing is where `last` leads with the given
registers written. -/
def ProvidesAll (g : Builder) (exit last : InstId) (temps : List Temp) : Prop :=
  ∀ steps written, g.homes ⊆ written →
    g.ReadyAfter steps (written ∪ { r | ∃ t ∈ temps, r = .temp t }) last →
      g.ReadyAfter steps written exit

section

variable {g b b' b₁ b₂ : Builder} {chain : Chain} {constants : List Constant}

/-- A register that is found for a name is one of those that count as written. -/
theorem Builder.Within.homes_of_lookup {id : SymbolId} {t : Temp} (h : b.Within g)
    (hlookup : b.locals.lookup id = some t) : .temp t ∈ g.homes :=
  ⟨_, h.mem_locals (Builder.mem_of_lookup hlookup), rfl⟩

/-- On from a chain whose value is wanted. -/
theorem Provides.goes {t : Temp} {steps : Nat} {written : Set Register} {target : InstId}
    (h : Provides g chain) (ht : chain.value = some t) (hhomes : g.homes ⊆ written)
    (hnext : g.target? chain.exit .next = some target)
    (htarget : g.routine.Ready steps (adding written (some (.temp t))) target) :
    g.routine.Ready steps written chain.entry := by
  refine h steps written hhomes (.goes hnext ?_)
  rw [ht]
  exact htarget

/-- A literal reads nothing and writes its register. -/
theorem Lower.provides_literal {constant : Constant} (hg : g.routine.Sound constants)
    (h : Lower.literal constant b = .ok (chain, b')) (hw : b'.Within g) : Provides g chain := by
  obtain ⟨rfl, rfl⟩ := Lower.literal_eq_ok.mp h
  intro steps written _ hafter
  exact hw.has.ready hg rfl nofun hafter

/-- A variable in a register is there; one in memory is loaded. The register of a local is among
those that are granted. -/
theorem Lower.provides_varValue {ident : Ident} (hg : g.routine.Sound constants)
    (h : Lower.varValue ident b = .ok (chain, b')) (hw : b'.Within g) : Provides g chain := by
  obtain ⟨symbol, -, ⟨t, hlookup, rfl, rfl⟩ | ⟨-, rfl, rfl⟩⟩ := Lower.varValue_eq_ok.mp h
  · intro steps written hhomes hafter
    refine hw.has.ready_nop hg (hafter.mono (adding_subset subset_rfl ?_))
    rintro _ ⟨⟩
    exact hhomes (hw.of_push.homes_of_lookup hlookup)
  · intro steps written _ hafter
    have hunset : ((b.takeAddr.push (.addressAt b.nextAddr symbol none)).takeTemp.push
        (.load b.nextTemp b.nextAddr)).Unset b.size .next :=
      (((Builder.Unset.of_size_le (Nat.le_refl _)).takeAddr.push _).takeTemp.push _)
    have hlt : b.size < ((b.takeAddr.push (.addressAt b.nextAddr symbol none)).takeTemp.push
        (.load b.nextTemp b.nextAddr)).size := by
      simp only [Builder.size_push, Builder.size_takeTemp, Builder.size_takeAddr]
      omega
    obtain ⟨hnext, hw⟩ := hw.unlink hlt hunset
    have hload : g.Has (b.size + 1) (.load b.nextTemp b.nextAddr) := by simpa using hw.has
    have haddress := hw.of_push.of_takeTemp.has
    refine haddress.ready hg rfl nofun (.goes hnext (hload.ready hg rfl ?_ (hafter.mono ?_)))
    · exact List.forall_mem_singleton.mpr mem_adding_self
    · exact adding_mono subset_adding

namespace Provides

/-- An array element: the index is read for the address, and the address for the load. -/
theorem index {symbol : Symbol} {offset : Temp} (hg : g.routine.Sound constants)
    (h : b₁.Within g → Provides g chain) (hopen : b₁.Open chain.exit)
    (hoffset : chain.value = some offset)
    (hw : ((((b₁.takeAddr.push (.addressAt b₁.nextAddr symbol (some offset))).takeTemp.push
      (.load b₁.nextTemp b₁.nextAddr)).link chain.exit b₁.size .next).link
        b₁.size (b₁.size + 1) .next).Within g) :
    Provides g ⟨chain.entry, b₁.size + 1, some b₁.nextTemp⟩ := by
  obtain ⟨hnext, haddress, hlast, hload, hw⟩ :=
    Builder.Within.unappendBoth (b := b₁.takeAddr.takeTemp) hopen hw
  intro steps written hhomes hafter
  refine (h hw.of_takeTemp.of_takeAddr).goes hoffset hhomes hnext ?_
  refine haddress.ready hg rfl ?_ (.goes hlast (hload.ready hg rfl ?_ (hafter.mono ?_)))
  · exact List.forall_mem_singleton.mpr mem_adding_self
  · exact List.forall_mem_singleton.mpr mem_adding_self
  · exact adding_mono (subset_adding.trans subset_adding)

/-- A negation reads its operand. -/
theorem negate {t : Temp} (hg : g.routine.Sound constants) (h : b₁.Within g → Provides g chain)
    (hopen : b₁.Open chain.exit) (ht : chain.value = some t)
    (hw : ((b₁.takeTemp.push (.not b₁.nextTemp t)).link chain.exit b₁.size .next).Within g) :
    Provides g ⟨chain.entry, b₁.size, some b₁.nextTemp⟩ := by
  obtain ⟨hnext, hnot, hw⟩ := Builder.Within.unappend (b := b₁.takeTemp) hw hopen
  intro steps written hhomes hafter
  refine (h hw.of_takeTemp).goes ht hhomes hnext (hnot.ready hg rfl ?_ (hafter.mono ?_))
  · exact List.forall_mem_singleton.mpr mem_adding_self
  · exact adding_mono subset_adding

/-- Two operands one after the other, and then an operation that reads their values. -/
theorem combine {l r : Chain} {lt rt : Temp} {kind : InstKind} (hg : g.routine.Sound constants)
    (h₁ : b₁.Within g → Provides g l) (h₂ : b₂.Within g → Provides g r)
    (hl : b.Spans none l.entry l.exit b₁) (hr : b₁.Spans none r.entry r.exit b₂)
    (hlt : l.value = some lt) (hrt : r.value = some rt) (hjump : kind.isJump = false)
    (hreads : kind.reads = [.temp lt, .temp rt]) (hdst : kind.dst = some (.temp b₂.nextTemp))
    (hw : (((b₂.takeTemp.push kind).link l.exit r.entry .next).link
      r.exit b₂.size .next).Within g) :
    Provides g ⟨l.entry, b₂.size, some b₂.nextTemp⟩ := by
  obtain ⟨hnext, hlast, hhas, hw₂⟩ := (Builder.Within.of_takeTemp
    (b := ((b₂.push kind).link l.exit r.entry .next).link r.exit b₂.size .next) hw).uncombine hl hr
  have hw₁ := hw₂.of_grows hr.grows
  intro steps written hhomes hafter
  refine (h₁ hw₁).goes hlt hhomes hnext ?_
  refine (h₂ hw₂).goes hrt (hhomes.trans subset_adding) hlast ?_
  refine hhas.ready hg hjump ?_ ?_
  · rw [hreads, List.forall_mem_cons, List.forall_mem_singleton]
    exact ⟨subset_adding mem_adding_self, mem_adding_self⟩
  · rw [hdst]
    exact hafter.mono (adding_mono (subset_adding.trans subset_adding))

/-- Both sides of a connective write its register. So it is written where they meet, whichever of
them was gone through, and that is all that is known there. -/
theorem connect {mid : Builder} {l r : Chain} {lt rt : Temp} {edge edge' : Edge}
    (hg : g.routine.Sound constants)
    (hmid : mid = ((b₁.push (.jump lt)).link l.exit b₁.size .next).takeTemp.push
      (.copy b₁.nextTemp (.temp lt)))
    (h₁ : b₁.Within g → Provides g l) (h₂ : b₂.Within g → Provides g r)
    (hl : b₁.Open l.exit) (hr : mid.Evaluates r.entry r.exit r.value b₂)
    (hlt : l.value = some lt) (hrt : r.value = some rt) (hedge : edge' ≠ edge)
    (hw : (((((((b₂.push (.copy b₁.nextTemp (.temp rt))).push .nop).link
      b₁.size (b₁.size + 1) edge).link b₁.size r.entry edge').link
      (b₁.size + 1) (b₂.size + 1) .next).link r.exit b₂.size .next).link
      b₂.size (b₂.size + 1) .next).Within g) :
    Provides g ⟨l.entry, b₂.size + 1, some b₁.nextTemp⟩ := by
  obtain ⟨⟨hw₁, hnext, hjump⟩, ⟨hdecided, hcopy₁, hjoin₁⟩,
    ⟨hw₂, hundecided, htaken, hcopy₂, hjoin₂⟩, hnop⟩ := Computes.unconnect hmid hl hr hedge hw
  intro steps written hhomes hafter
  have hready : ∀ written', written ⊆ written' →
      g.routine.Ready steps (adding written' (some (.temp b₁.nextTemp))) (b₂.size + 1) :=
    fun written' hsub => hnop.ready_nop hg (hafter.mono (adding_mono hsub))
  refine (h₁ hw₁).goes hlt hhomes hnext ?_
  refine hjump.ready_fork mem_adding_self hedge hdecided hundecided ?_ ?_
  · refine hcopy₁.ready hg rfl ?_ (.goes hjoin₁ (hready _ subset_adding))
    exact List.forall_mem_singleton.mpr mem_adding_self
  · refine (h₂ hw₂).goes hrt (hhomes.trans subset_adding) htaken ?_
    refine hcopy₂.ready hg rfl ?_ (.goes hjoin₂ (hready _ (subset_adding.trans subset_adding)))
    exact List.forall_mem_singleton.mpr mem_adding_self

/-- Arguments stay in their registers until the call. It reads all of them, and writes one if there
is a result. -/
theorem call {symbol : Symbol} {temps : List Temp} {last : Nat} {hasValue : Bool}
    (hg : g.routine.Sound constants)
    (h : b₁.Within g → (b.push .nop).Within g ∧ ProvidesAll g b.size last temps)
    (hlast : b₁.Open last)
    (hw : (((b₁.takeResult hasValue).push (.call (b₁.result hasValue) symbol temps)).link
      last b₁.size .next).Within g) :
    Provides g ⟨b.size, b₁.size, b₁.result hasValue⟩ := by
  have htake := (Builder.Grows.refl b₁).takeResult hasValue
  obtain ⟨hnext, hcall, hw⟩ := Builder.Within.unappend
    (by rwa [Builder.size_takeResult]) (hlast.grows htake)
  rw [Builder.size_takeResult] at hnext hcall
  obtain ⟨hnop, hargs⟩ := h (hw.of_grows htake)
  intro steps written hhomes hafter
  refine hnop.has.ready_nop hg (hargs steps written hhomes (.goes hnext ?_))
  refine hcall.ready hg rfl (fun r hr => ?_) (hafter.mono (adding_mono fun _ => .inl))
  obtain ⟨operand, hoperand, hregister⟩ := List.mem_filterMap.mp hr
  obtain ⟨t, ht, rfl⟩ := List.mem_map.mp hoperand
  exact .inr ⟨t, ht, (Option.some.inj hregister).symm⟩

end Provides

namespace ProvidesAll

/-- Without arguments nothing is read. -/
theorem nil {exit : InstId} : ProvidesAll g exit exit [] := by
  intro steps written hhomes hafter
  refine hafter.mono (Set.union_subset subset_rfl ?_)
  rintro r ⟨t, ht, -⟩
  cases ht

/-- The first argument writes its register, which waits while the others are evaluated. They may
write more, and take nothing away. -/
theorem cons {first : Chain} {exit last : InstId} {t : Temp} {temps : List Temp}
    (h : Provides g first) (ht : first.value = some t)
    (hrest : ProvidesAll g first.exit last temps)
    (hnext : g.target? exit .next = some first.entry) :
    ProvidesAll g exit last (t :: temps) := by
  intro steps written hhomes hafter
  refine .goes hnext (h steps written hhomes ?_)
  rw [ht]
  refine hrest steps _ (hhomes.trans subset_adding) (hafter.mono ?_)
  rintro r (hr | ⟨other, hother, rfl⟩)
  · exact .inl (.inl hr)
  · rcases List.mem_cons.mp hother with rfl | hmem
    · exact .inl mem_adding_self
    · exact .inr ⟨other, hmem, rfl⟩

end ProvidesAll

end

section

variable {g : Builder} {constants : List Constant}

mutual

/-- The chain of an expression reads nothing before it was written, and writes the value. Nothing is
assumed about types or names; it is enough that the expression was lowered. -/
theorem Expr.provides (hg : g.routine.Sound constants) : ∀ (expr : Expr) {b b' : Builder}
    {chain : Chain}, b.Settled → expr.lower b = .ok (chain, b') → b'.Within g → Provides g chain
  | .int info value, b, b', chain, _, h, hw => by
    rw [Expr.lower] at h
    exact Lower.provides_literal hg h hw
  | .bool info value, b, b', chain, _, h, hw => by
    rw [Expr.lower] at h
    exact Lower.provides_literal hg h hw
  | .var info ident, b, b', chain, _, h, hw => by
    rw [Expr.lower] at h
    exact Lower.provides_varValue hg h hw
  | .index info base position, b, b', chain, hb, h, hw => by
    obtain ⟨symbol, -, index, b₁, hposition, offset, hoffset, rfl, rfl⟩ :=
      Expr.lower_index_eq_ok.mp h
    exact .index hg (Expr.provides hg position hb hposition)
      (position.evaluates_of_lower hb hposition).exit_open hoffset hw
  | .unary info op operand, b, b', chain, hb, h, hw => by
    obtain ⟨left, b₁, hoperand, value, hvalue, rfl, rfl, rfl⟩ := Expr.lower_unary_eq_ok.mp h
    exact .negate hg (Expr.provides hg operand hb hoperand)
      (operand.evaluates_of_lower hb hoperand).exit_open hvalue hw
  | .binary info .negate left right, b, b', chain, hb, h, hw => by
    obtain ⟨l, b₁, hl, value, hvalue, rfl, rfl⟩ := Expr.lower_negate_eq_ok.mp h
    exact .negate hg (Expr.provides hg left hb hl)
      (left.evaluates_of_lower hb hl).exit_open hvalue hw
  | .binary info (.arith op) left right, b, b', chain, hb, h, hw => by
    obtain ⟨l, b₁, hl, lt, hlt, r, b₂, hr, rt, hrt, rfl, rfl⟩ := Expr.lower_arith_eq_ok.mp h
    have hleft := left.evaluates_of_lower hb hl
    have hb₁ := hb.grows hleft.grows
    exact .combine hg (Expr.provides hg left hb hl) (Expr.provides hg right hb₁ hr) hleft.toSpans
      (right.evaluates_of_lower hb₁ hr).toSpans hlt hrt rfl rfl rfl hw
  | .binary info (.compare op) left right, b, b', chain, hb, h, hw => by
    obtain ⟨l, b₁, hl, lt, hlt, r, b₂, hr, rt, hrt, rfl, rfl⟩ := Expr.lower_compare_eq_ok.mp h
    have hleft := left.evaluates_of_lower hb hl
    have hb₁ := hb.grows hleft.grows
    exact .combine hg (Expr.provides hg left hb hl) (Expr.provides hg right hb₁ hr) hleft.toSpans
      (right.evaluates_of_lower hb₁ hr).toSpans hlt hrt rfl rfl rfl hw
  | .binary info (.connect op) left right, b, b', chain, hb, h, hw => by
    obtain ⟨l, b₁, hl, lt, hlt, r, b₂, hr, rt, hrt, rfl, rfl⟩ := Expr.lower_connect_eq_ok.mp h
    have hleft := left.evaluates_of_lower hb hl
    -- the right operand is appended after the jump and the copy of the left one
    have hmid : (((b₁.push (.jump lt)).link l.exit b₁.size .next).takeTemp.push
        (.copy b₁.nextTemp (.temp lt))).Settled :=
      (hb.grows hleft.grows).of_locals_eq (by simp) (by simp)
    have hedges : (Lower.connectiveEdges op).2 ≠ (Lower.connectiveEdges op).1 := by
      cases op <;> decide
    exact .connect hg rfl (Expr.provides hg left hb hl) (Expr.provides hg right hmid hr)
      hleft.exit_open (right.evaluates_of_lower hmid hr) hlt hrt hedges hw
  | .call info callee args, b, b', chain, hb, h, hw => by
    obtain ⟨symbol, -, params, ret, -, temps, exit, b₁, hargs, rfl, rfl⟩ :=
      Expr.lower_call_eq_ok.mp h
    have hnop : (b.push .nop).Settled := hb.of_locals_eq (by simp) (by simp)
    exact .call hg (Expr.providesAll hg args hnop (.nop rfl) hargs)
      (Expr.passes_of_lowerArgs args hnop (.nop rfl) hargs).exit_open hw

/-- The chains of arguments do so one after the other. -/
theorem Expr.providesAll (hg : g.routine.Sound constants) : ∀ (args : List Expr)
    {b₀ b b' : Builder} {entry exit last : Nat} {temps : List Temp}, b.Settled →
    b₀.Spans none entry exit b → Expr.lowerArgs exit args b = .ok ((temps, last), b') →
    b'.Within g → b.Within g ∧ ProvidesAll g exit last temps
  | [], b₀, b, b', entry, exit, last, temps, hb, hspans, h, hw => by
    obtain ⟨rfl, rfl, rfl⟩ := Expr.lowerArgs_nil_eq_ok.mp h
    exact ⟨hw, .nil⟩
  | arg :: rest, b₀, b, b', entry, exit, last, temps, hb, hspans, h, hw => by
    obtain ⟨first, b₁, hfirst, t, ht, others, hrest, rfl⟩ := Expr.lowerArgs_cons_eq_ok.mp h
    have harg := arg.evaluates_of_lower hb hfirst
    have hb₁ : (b₁.link exit first.entry .next).Settled :=
      (hb.grows harg.grows).of_locals_eq (by simp) (by simp)
    obtain ⟨hw₁, hothers⟩ := Expr.providesAll hg rest hb₁ (hspans.follow harg.toSpans) hrest hw
    have hexit := hspans.exit_open.grows harg.grows
    obtain ⟨hnext, hw₁⟩ := hw₁.unlink hexit.lt_size (hexit.unset .next)
    exact ⟨hw₁.of_grows harg.grows,
      .cons (Expr.provides hg arg hb hfirst hw₁) ht hothers hnext⟩

end

end

/-! ## Assignments

What is assigned is read last. An address for it may have been computed before, and waits. -/

section

variable {g b b' b₁ b₂ : Builder} {chain : Chain} {constants : List Constant}

namespace Provides

/-- To a local: its register is written, which counts as written anyway. -/
theorem copy {dst src : Temp} (hg : g.routine.Sound constants) (h : b₁.Within g → Provides g chain)
    (hopen : b₁.Open chain.exit) (hsrc : chain.value = some src)
    (hw : ((b₁.push (.copy dst (.temp src))).link chain.exit b₁.size .next).Within g) :
    Provides g ⟨chain.entry, b₁.size, none⟩ := by
  obtain ⟨hnext, hcopy, hw⟩ := hw.unappend hopen
  intro steps written hhomes hafter
  refine (h hw).goes hsrc hhomes hnext (hcopy.ready hg rfl ?_ (hafter.mono ?_))
  · exact List.forall_mem_singleton.mpr mem_adding_self
  · exact adding_subset (subset_adding.trans subset_adding) nofun

/-- To a global: the value waits while the address is computed. -/
theorem store {symbol : Symbol} {src : Temp} (hg : g.routine.Sound constants)
    (h : b₁.Within g → Provides g chain) (hopen : b₁.Open chain.exit)
    (hsrc : chain.value = some src)
    (hw : ((((b₁.takeAddr.push (.addressAt b₁.nextAddr symbol none)).push
      (.store src b₁.nextAddr)).link chain.exit b₁.size .next).link
        b₁.size (b₁.size + 1) .next).Within g) :
    Provides g ⟨chain.entry, b₁.size + 1, none⟩ := by
  obtain ⟨hnext, haddress, hlast, hstore, hw⟩ :=
    Builder.Within.unappendBoth (b := b₁.takeAddr) hopen hw
  intro steps written hhomes hafter
  refine (h hw.of_takeAddr).goes hsrc hhomes hnext ?_
  refine haddress.ready hg rfl nofun (.goes hlast (hstore.ready hg rfl ?_ (hafter.mono ?_)))
  · exact List.forall_mem_cons.mpr
      ⟨subset_adding mem_adding_self, List.forall_mem_singleton.mpr mem_adding_self⟩
  · exact adding_mono (subset_adding.trans subset_adding)

/-- The address of an element waits in its register while the value is evaluated. -/
theorem storeAt {mid : Builder} {symbol : Symbol} {index value : Chain} {offset src : Temp}
    (hg : g.routine.Sound constants)
    (hmid : mid = b₁.takeAddr.push (.addressAt b₁.nextAddr symbol (some offset)))
    (h₁ : b₁.Within g → Provides g index) (h₂ : b₂.Within g → Provides g value)
    (hindex : b.Spans none index.entry index.exit b₁.takeAddr)
    (hvalue : mid.Spans none value.entry value.exit b₂) (hoffset : index.value = some offset)
    (hsrc : value.value = some src)
    (hw : ((((b₂.push (.store src b₁.nextAddr)).link index.exit b₁.size .next).link
      b₁.size value.entry .next).link value.exit b₂.size .next).Within g) :
    Provides g ⟨index.entry, b₂.size, none⟩ := by
  obtain ⟨⟨hnext, haddress, hw₁⟩, hentry, hlast, hstore, hw₂⟩ :=
    Builder.Within.unstoreAt hindex hmid hvalue hw
  intro steps written hhomes hafter
  refine (h₁ hw₁.of_takeAddr).goes hoffset hhomes hnext ?_
  refine haddress.ready hg rfl ?_ (.goes hentry ?_)
  · exact List.forall_mem_singleton.mpr mem_adding_self
  refine (h₂ hw₂).goes hsrc (hhomes.trans (subset_adding.trans subset_adding)) hlast ?_
  refine hstore.ready hg rfl ?_ (hafter.mono ?_)
  · exact List.forall_mem_cons.mpr
      ⟨mem_adding_self, List.forall_mem_singleton.mpr (subset_adding mem_adding_self)⟩
  · exact adding_mono (subset_adding.trans (subset_adding.trans subset_adding))

end Provides

/-- The chain of an assignment reads nothing before it was written. -/
theorem Assignment.provides {assignment : Assignment} (hg : g.routine.Sound constants)
    (hb : b.Settled) (h : assignment.lower b = .ok (chain, b')) (hw : b'.Within g) :
    Provides g chain := by
  obtain ⟨info, location, value⟩ := assignment
  rcases Assignment.location_of_lower_eq_ok h with
    ⟨place, ident, rfl⟩ | ⟨place, base, position, rfl⟩
  · obtain ⟨symbol, -, v, b₁, hv, src, hsrc, ⟨dst, -, rfl, rfl⟩ | ⟨-, rfl, rfl⟩⟩ :=
      Assignment.lower_var_eq_ok.mp h
    · exact .copy hg (value.provides hg hb hv) (value.evaluates_of_lower hb hv).exit_open hsrc hw
    · exact .store hg (value.provides hg hb hv) (value.evaluates_of_lower hb hv).exit_open hsrc hw
  · obtain ⟨symbol, -, index, b₁, hindex, offset, hoffset, v, b₂, hv, src, hsrc, rfl, rfl⟩ :=
      Assignment.lower_index_eq_ok.mp h
    have hposition := position.evaluates_of_lower hb hindex
    have hmid : (b₁.takeAddr.push (.addressAt b₁.nextAddr symbol (some offset))).Settled :=
      (hb.grows hposition.grows).of_locals_eq (by simp) (by simp)
    exact .storeAt hg rfl (position.provides hg hb hindex) (value.provides hg hmid hv)
      hposition.toSpans.takeAddr (value.evaluates_of_lower hmid hv).toSpans hoffset hsrc hw

/-! ## Statements

From here on two ends have to be ready: the exit, and the end of the loop around. -/

/-- Nothing is missing at the entry of a chain, if nothing is where its exit leads, nor at the end
of the loop around it. -/
def Runs (g : Builder) (out : Option InstId) (chain : Chain) : Prop :=
  ∀ steps written, g.homes ⊆ written → g.ReadyAfter steps written chain.exit →
    (∀ target, out = some target → g.routine.Ready steps written target) →
      g.routine.Ready steps written chain.entry

/-- From where `exit` leads nothing is missing, if nothing is where `last` leads, nor at the end of
the loop around it. -/
def RunsAll (g : Builder) (out : Option InstId) (exit last : InstId) : Prop :=
  ∀ steps written, g.homes ⊆ written → g.ReadyAfter steps written last →
    (∀ target, out = some target → g.routine.Ready steps written target) →
      g.ReadyAfter steps written exit

/-- A chain without breaks. -/
theorem Provides.runs (h : Provides g chain) (out : Option InstId) : Runs g out chain :=
  fun steps written hhomes hafter _ => h steps written hhomes (hafter.mono subset_adding)

/-- An empty block. -/
theorem RunsAll.nil {out : Option InstId} {exit : InstId} : RunsAll g out exit exit :=
  fun _ _ _ hafter _ => hafter

/-- The first statement, and then the others. -/
theorem RunsAll.cons {out : Option InstId} {exit last : InstId} {first : Chain}
    (h : Runs g out first) (hrest : RunsAll g out first.exit last)
    (hnext : g.target? exit .next = some first.entry) : RunsAll g out exit last := by
  intro steps written hhomes hafter hout
  exact .goes hnext (h steps written hhomes (hrest steps written hhomes hafter hout) hout)

/-- A block that starts with a `nop` and leads to a given place. -/
theorem RunsAll.block {out : Option InstId} {entry exit join : InstId} {steps : Nat}
    {written : Set Register} (h : RunsAll g out entry exit) (hg : g.routine.Sound constants)
    (hentry : g.Has entry .nop) (hexit : g.target? exit .next = some join)
    (hhomes : g.homes ⊆ written) (hjoin : g.routine.Ready steps written join)
    (hout : ∀ target, out = some target → g.routine.Ready steps written target) :
    g.routine.Ready steps written entry :=
  hentry.ready_nop hg (h steps written hhomes (.goes hexit hjoin) hout)

/-- Once around a loop takes a step at least, that of its jump. By induction on the number of steps:
the next round has fewer of them left, and starts with at least as much written as this one. -/
theorem Provides.ready_loop {c step : Chain} {t : Temp} {jump done bodyEntry bodyExit : InstId}
    {steps : Nat} {written : Set Register} (hg : g.routine.Sound constants) (hcond : Provides g c)
    (ht : c.value = some t) (hjump : g.Has jump (.jump t)) (hdone : g.Has done .nop)
    (hentry : g.Has bodyEntry .nop) (hbody : RunsAll g (some done) bodyEntry bodyExit)
    (hstep : Provides g step) (hgoes₁ : g.target? c.exit .next = some jump)
    (hgoes₂ : g.target? jump .next = some done) (hgoes₃ : g.target? jump .onTrue = some bodyEntry)
    (hgoes₄ : g.target? bodyExit .next = some step.entry)
    (hgoes₅ : g.target? step.exit .next = some c.entry) (hhomes : g.homes ⊆ written)
    (hafter : g.ReadyAfter steps written done) : g.routine.Ready steps written c.entry := by
  induction steps generalizing written with
  | zero => trivial
  | succ steps ih =>
    have hsub : written ⊆ adding written (some (.temp t)) := subset_adding
    have hafter' := (hafter.fewer (Nat.le_succ steps)).mono hsub
    have hhomes' := hhomes.trans hsub
    have hready := hdone.ready_nop hg hafter'
    refine hcond.goes ht hhomes hgoes₁ ?_
    refine hjump.ready_jump mem_adding_self (.goes hgoes₂ hready) fun target htarget => ?_
    obtain rfl := Option.some.inj (hgoes₃.symm.trans htarget)
    -- the body and the increment lead back to the condition
    refine hbody.block hg hentry hgoes₄ hhomes' ?_ fun other hother => ?_
    · refine hstep steps _ hhomes' (.goes hgoes₅ ?_)
      exact (ih hhomes' hafter').mono subset_adding
    · obtain rfl := Option.some.inj hother
      exact hready

end

section

variable {g : Builder} {constants : List Constant}

mutual

/-- The chain of a statement reads nothing before it was written. A branch that was not taken does
not count: after a conditional nothing more is known to be written than before it. -/
theorem Stmt.runs (hg : g.routine.Sound constants) : ∀ (stmt : Stmt) {out : Option InstId}
    {b b' : Builder} {chain : Chain}, b.Settled → stmt.lower out b = .ok (chain, b') →
    b'.Within g → Runs g out chain
  | .declare info decl, out, b, b', chain, hb, h, hw => by
    obtain ⟨symbol, -, rfl, rfl⟩ := Stmt.lower_declare_eq_ok.mp h
    intro steps written _ hafter _
    exact hw.has.ready_nop hg hafter
  | .assign info assignment, out, b, b', chain, hb, h, hw => by
    rw [Stmt.lower_assign] at h
    exact (Assignment.provides hg hb h hw).runs out
  | .call info callee args, out, b, b', chain, hb, h, hw => by
    rw [Stmt.lower_call] at h
    exact (Expr.provides hg _ hb h hw).runs out
  | .ifElse info cond onTrue onFalse, out, b, b', chain, hb, h, hw => by
    obtain ⟨c, b₁, hc, value, hvalue, trueExit, b₂, htrue, falseExit, b₃, hfalse, rfl, rfl⟩ :=
      Stmt.lower_ifElse_eq_ok.mp h
    have hcond := cond.evaluates_of_lower hb hc
    -- the edges at the join are taken off first, then each branch from the arena it was appended to
    obtain ⟨hmid, hspansTrue, hb₂, hspansFalse⟩ := Stmt.spans_of_lower_ifElse hb hc htrue hfalse
    obtain ⟨hw₃, hjoin, honTrue, honZero, hexitTrue, hexitFalse⟩ :=
      hw.unbranch hcond.exit_lt rfl hspansTrue hspansFalse
    obtain ⟨hw₂, hblockFalse⟩ := Stmt.runsAll hg onFalse.stmts hb₂ (.nop rfl) hfalse hw₃
    obtain ⟨hwMid, hblockTrue⟩ :=
      Stmt.runsAll hg onTrue.stmts hmid (.nop (by simp)) htrue hw₂.of_push
    have hentryTrue : g.Has (b₁.size + 1) .nop := by simpa using hwMid.has
    obtain ⟨hnext, hjump, hw₁⟩ := hwMid.of_push.unappend hcond.exit_open
    intro steps written hhomes hafter hout
    -- what was written before the condition is still written in both branches
    have hsub : written ⊆ adding written (some (.temp value)) := subset_adding
    have hhomes' := hhomes.trans hsub
    have hjoined := hjoin.ready_nop hg (hafter.mono hsub)
    refine (cond.provides hg hb hc hw₁).goes hvalue hhomes hnext ?_
    refine hjump.ready_fork mem_adding_self (by decide) honZero honTrue ?_ ?_
    · exact hblockFalse.block hg hw₂.has hexitFalse hhomes' hjoined
        fun target htarget => (hout target htarget).mono hsub
    · exact hblockTrue.block hg hentryTrue hexitTrue hhomes' hjoined
        fun target htarget => (hout target htarget).mono hsub
  | .loop info init cond increment body, out, b, b', chain, hb, h, hw => by
    obtain ⟨i, b₁, hi, c, b₂, hc, value, hvalue, bodyExit, b₃, hbody, step, b₄, hstep, rfl, rfl⟩ :=
      Stmt.lower_loop_eq_ok.mp h
    have hinit := (Assignment.spans_of_lower hb hi).1
    have hb₁ := hb.grows hinit.grows
    have hcond := cond.evaluates_of_lower hb₁ hc
    obtain ⟨hmid, hspansBody, hb₃, hspansStep⟩ := Stmt.spans_of_lower_loop hb₁ hc hbody hstep
    obtain ⟨hw₄, honTrue, honZero, hexitBody, hagain⟩ := hw.unloop
      (Nat.lt_of_lt_of_le hinit.exit_lt hcond.grows.size_le) hcond.exit_lt rfl hspansBody hspansStep
    obtain ⟨hwMid, hblock⟩ := Stmt.runsAll hg body.stmts hmid (.nop (by simp)) hbody
      (hw₄.of_grows hspansStep.grows)
    have hentry : g.Has (b₂.size + 2) .nop := by simpa using hwMid.has
    obtain ⟨hw₂, hjump, hdone, hfirst, hnext⟩ := hwMid.of_push.unloopHead hinit.exit_open
      hcond.exit_open hcond.exit_ge hcond.grows
    intro steps written hhomes hafter _
    -- the start of the round is entered with what the initial assignment has written
    refine Assignment.provides hg hb hi (hw₂.of_grows hcond.grows) steps written hhomes ?_
    refine .goes hfirst (Routine.Ready.mono ?_ subset_adding)
    exact (cond.provides hg hb₁ hc hw₂).ready_loop hg hvalue hjump hdone hentry hblock
      (Assignment.provides hg hb₃ hstep hw₄) hnext honZero honTrue hexitBody hagain hhomes hafter
  | .leave info, out, b, b', chain, hb, h, hw => by
    obtain ⟨target, rfl, rfl, rfl⟩ := Stmt.lower_leave_eq_ok.mp h
    obtain ⟨hgoes, hw⟩ := hw.of_push.unlink (by simp)
      ((Builder.Unset.of_size_le (Nat.le_refl _)).push _)
    intro steps written _ _ hout
    exact hw.has.ready_nop hg (.goes hgoes (hout target rfl))
  | .ret info none, out, b, b', chain, hb, h, hw => by
    obtain ⟨rfl, rfl⟩ := Stmt.lower_ret_none_eq_ok.mp h
    intro steps written _ _ _
    exact hw.of_push.has.ready_ret hg nofun
  | .ret info (some value), out, b, b', chain, hb, h, hw => by
    obtain ⟨v, b₁, hv, rfl, rfl⟩ := Stmt.lower_ret_some_eq_ok.mp h
    have hpart := value.evaluates_of_lower hb hv
    obtain ⟨hnext, hret, hw⟩ := hw.of_push.unappend hpart.exit_open
    intro steps written hhomes _ _
    refine value.provides hg hb hv hw steps written hhomes (.goes hnext (hret.ready_ret hg ?_))
    intro t ht
    rw [ht]
    exact mem_adding_self

/-- The chains of statements do so one after the other. -/
theorem Stmt.runsAll (hg : g.routine.Sound constants) : ∀ (stmts : List Stmt) {out : Option InstId}
    {b₀ b b' : Builder} {entry exit last : Nat}, b.Settled → b₀.Spans out entry exit b →
    Stmt.lowerAll out exit stmts b = .ok (last, b') → b'.Within g →
    b.Within g ∧ RunsAll g out exit last
  | [], out, b₀, b, b', entry, exit, last, hb, hspans, h, hw => by
    obtain ⟨rfl, rfl⟩ := Stmt.lowerAll_nil_eq_ok.mp h
    exact ⟨hw, .nil⟩
  | stmt :: rest, out, b₀, b, b', entry, exit, last, hb, hspans, h, hw => by
    obtain ⟨first, b₁, hfirst, hrest⟩ := Stmt.lowerAll_cons_eq_ok.mp h
    have hstmt := Stmt.spans_of_lower stmt hb hfirst
    have hb₁ : (b₁.link exit first.entry .next).Settled :=
      (hb.grows hstmt.grows).of_locals_eq (by simp) (by simp)
    obtain ⟨hw₁, hothers⟩ := Stmt.runsAll hg rest hb₁ (hspans.follow hstmt) hrest hw
    have hexit := hspans.exit_open.grows hstmt.grows
    obtain ⟨hnext, hw₁⟩ := hw₁.unlink hexit.lt_size (hexit.unset .next)
    exact ⟨hw₁.of_grows hstmt.grows, .cons (Stmt.runs hg stmt hb hfirst hw₁) hothers hnext⟩

end

end

/-! ## Functions and programs

A routine starts with its parameters written, and the locals are granted. So every path from its
start reads only what has been written. -/

/-- Lowering the function leaves this builder. The builder knows which registers are those of
locals, and its routine is the one that ends up in the program. -/
def FunDef.LowersTo (definition : FunDef) (builder : Builder) : Prop :=
  ∃ constants symbol, definition.ident.resolved = .ok symbol ∧
    definition.lowerBody.run (.start constants symbol.name definition.ty) = .ok ((), builder)

/-- A function that is lowered leaves a builder, whose routine is that of the function. -/
theorem FunDef.lowersTo_of_lower {definition : FunDef} {constants pool : List Constant}
    {routine : Routine} (h : definition.lower constants = .ok (routine, pool)) :
    ∃ builder, definition.LowersTo builder ∧ builder.routine = routine := by
  obtain ⟨symbol, hsymbol, args, b₁, hargs, last, b₂, hbody, rfl, rfl⟩ := FunDef.lower_eq_ok.mp h
  exact ⟨b₂, ⟨constants, symbol, hsymbol,
    FunDef.lowerBody_eq_ok.mpr ⟨args, b₁, hargs, last, hbody⟩⟩, rfl⟩

namespace FunDef.LowersTo

variable {definition : FunDef} {g : Builder}

/-- Each declaration of a function has a register of its own, and there are no other registers of
locals. -/
theorem declares (h : definition.LowersTo g) :
    g.ids = definition.scope ∧ (g.locals.map (·.2)).Nodup := by
  obtain ⟨constants, symbol, -, hrun⟩ := h
  obtain ⟨args, b₁, hargs, last, hstmts⟩ := FunDef.lowerBody_eq_ok.mp hrun
  obtain ⟨hids, hseparated⟩ := (FunDef.lowersBody_of_params hargs hstmts).declares
  exact ⟨hids, hseparated.nodup⟩

/-- From the start of a function nothing is missing, if its parameters and locals are not. -/
theorem ready (h : definition.LowersTo g) (steps : Nat) :
    g.routine.Ready steps g.homes g.routine.start := by
  obtain ⟨constants, symbol, hsymbol, hrun⟩ := h
  obtain ⟨args, b₁, hargs, last, hstmts⟩ := FunDef.lowerBody_eq_ok.mp hrun
  obtain ⟨hsound, -⟩ := FunDef.sound_of_lower
    (FunDef.lower_eq_ok.mpr ⟨symbol, hsymbol, args, b₁, hargs, last, g, hstmts, rfl, rfl⟩)
  have hbody := FunDef.lowersBody_of_params hargs hstmts
  obtain ⟨hw, hruns⟩ := Stmt.runsAll hsound definition.body.stmts hbody.separated.settled
    hbody.spans_start hstmts (.refl g)
  have hentry : g.Has b₁.routine.start .nop := hw.has_start hbody.insts_eq hbody.start_eq
  have hlast : g.target? last .next = none := hbody.spans.exit_open.unset .next
  rw [hbody.start_kept]
  refine hentry.ready_nop hsound (hruns steps g.homes subset_rfl (fun target htarget => ?_) nofun)
  rw [hlast] at htarget
  cases htarget

end FunDef.LowersTo

/-- Whatever the tree, and whether or not it was checked: on every path from the start of a routine,
an instruction that reads a register comes after one that writes it, unless the register is that of
a parameter or a local. Every declaration of the function has one such register, which no other has.
-/
theorem Tree.written_before_read {tree : Tree} {program : Program} (h : tree.lower = .ok program) :
    List.Forall₂ (fun definition routine =>
        ∃ builder : Builder, definition.LowersTo builder ∧ builder.routine = routine ∧
          builder.locals.map (·.1) = definition.scope ∧ (builder.locals.map (·.2)).Nodup ∧
          ∀ before last inst register, routine.Path (before ++ [last]) →
            routine.insts[last]? = some inst → register ∈ inst.kind.reads →
            (∀ entry ∈ builder.locals, register ≠ .temp entry.2) →
            ∃ id ∈ before, ∃ earlier, routine.insts[id]? = some earlier ∧
              earlier.kind.dst = some register)
      tree.functions program.routines := by
  refine (Tree.forall₂_functions h).imp ?_
  rintro definition routine ⟨-, constants, pool, hlower, -⟩
  obtain ⟨builder, hbuilder, rfl⟩ := FunDef.lowersTo_of_lower hlower
  obtain ⟨hids, hnodup⟩ := hbuilder.declares
  refine ⟨builder, hbuilder, rfl, hids, hnodup, ?_⟩
  intro before last inst register hpath hinst hread hown
  -- as many steps as the path has
  have hready := hbuilder.ready (before.length + 1)
  rcases hready.written_before hpath.head?_eq hpath.chain hinst hread with hhome | hwritten
  · obtain ⟨entry, hentry, rfl⟩ := hhome
    exact absurd rfl (hown entry hentry)
  · exact hwritten

/-- A function that stores in an element. Its address is known before the value, which is that of a
connective. -/
def fillingTree : Tree :=
  let name (text : String) : Ident := { name := text }
  let readInt : Expr := .call {} (name "readInt") []
  { items :=
      [.global { ident := name "row", declared := .array .bool 4 },
        .function
          { ident := name "fill", params := [{ ident := name "flag", declared := .bool }],
            ret := .void
            body := { stmts :=
              [.assign {}
                { location := .index {} (name "row") readInt
                  value := .binary {} (.connect .and) (.var {} (name "flag"))
                    (.binary {} (.compare .gt) readInt (.int {} 0)) }] } }] }

/-- The two ways to the store, past the right operand of the connective and through it. -/
def fillingWays : List (List InstId) :=
  [[0, 1, 2, 3, 4, 5, 6, 12], [0, 1, 2, 3, 4, 5, 7, 8, 9, 10, 11, 12]]

/-- On both ways the store reads what was written before. -/
theorem Tree.written_before_read_filling :
    ∃ routine, (fillingTree.resolve 0).1.lower.map (·.routines) = .ok [routine] ∧
      ∀ before ∈ fillingWays, routine.Path (before ++ [13]) ∧
        routine.insts[13]? = some { kind := .store ⟨2⟩ ⟨0⟩ } ∧
        ∃ id ∈ before, ∃ earlier, routine.insts[id]? = some earlier ∧
          earlier.kind.dst = some (.addr ⟨0⟩) := by
  have hways : ((fillingTree.resolve 0).1.lower.toOption.any fun program =>
      program.routines.length == 1 && program.routines.all fun routine =>
        routine.insts[13]? == some { kind := .store ⟨2⟩ ⟨0⟩ } &&
          fillingWays.all fun before => routine.Path (before ++ [13])) = true := by decide +kernel
  rcases hlower : (fillingTree.resolve 0).1.lower with error | program
  · rw [hlower] at hways
    cases hways
  rw [hlower] at hways
  obtain ⟨hlength, hall⟩ := Bool.and_eq_true_iff.mp hways
  obtain ⟨routine, hroutines⟩ := List.length_eq_one_iff.mp (eq_of_beq hlength)
  have hwritten := Tree.written_before_read hlower
  rw [hroutines] at hall hwritten
  rw [List.all_cons, List.all_nil, Bool.and_true, Bool.and_eq_true, List.all_eq_true] at hall
  obtain ⟨hstore, hpaths⟩ := hall
  have hfunctions : ∃ definition, (fillingTree.resolve 0).1.functions = [definition] :=
    List.length_eq_one_iff.mp (by decide +kernel)
  obtain ⟨definition, hfunctions⟩ := hfunctions
  rw [hfunctions] at hwritten
  cases hwritten with
  | cons hfirst _ =>
    obtain ⟨builder, -, -, -, -, hwritten⟩ := hfirst
    refine ⟨routine, by rw [← hroutines]; rfl, fun before hbefore => ?_⟩
    have hpath := of_decide_eq_true (hpaths before hbefore)
    exact ⟨hpath, eq_of_beq hstore,
      hwritten before 13 _ (.addr ⟨0⟩) hpath (eq_of_beq hstore) (by decide) nofun⟩

end WordLang
