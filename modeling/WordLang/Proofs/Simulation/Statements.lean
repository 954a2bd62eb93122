import Mathlib.Data.List.Nodup
import WordLang.Proofs.Simulation.Expressions

/-!
# Statements do in a graph what they do in a tree

Between statements the run of a graph is tied to the execution of the tree by `At`: the run is at a
given place, the world outside is the same, and the registers of the locals hold what the locals do.
Other registers may hold anything; a statement reads only those that it has written itself. A
statement takes such a state to another one, as `Ends` says: to where its chain leads, to the end of
the loop around it, or to a return. A loop whose fuel is used up has kept the run going for at least
as many steps.

What is proved of a statement (`Performs`) speaks of a finished graph `g`, of which the statement's
chain is a part that later lowering has only linked further. So each case goes backwards first: from
the last builder over the links and pushes that came after a part, to see that the part is in `g` as
it was made and that its open end leads where it should. `Within.unbranch`, `Within.unloop` and
`Within.unloopHead` do that for the two statements with several parts. Then it goes forwards along
the execution.

Loops are the only place where fuel is spent. `Exec.follows_iterate` has the loop's invariant, which
is `At` at the entry of the condition, and is an induction on the fuel.
-/

namespace WordLang

open WordLang.Graph

/-- The run is at `pc`, and what it knows is what the store says: the same events and memory
outside, and in the register of each local the local's value. This is the invariant between
statements. -/
structure At (g : Builder) (pc : Option InstId) (store : Store) (s : State) : Prop where
  pc_eq : s.pc = pc
  outside_eq : s.outside = store.outside
  agrees : g.Agrees s.temps store.locals

/-- How a statement ends that leads to where `exit` does, inside a loop that ends at `out`. Going on
and leaving a loop are the same relation at different places. A return is one step before the end of
the run, since the instruction that returns has been reached but not yet carried out. -/
def Ends (world : World) (g : Builder) (exit : InstId) (out : Option InstId)
    (result : Signal × Store) (s : State) : Prop :=
  match result.1 with
  | .next => At g (g.target? exit .next) result.2 s
  | .leave => ∃ target, out = some target ∧ At g (some target) result.2 s
  | .ret value => g.step world s = .done (value, result.2.outside)

variable {world : World} {scope known : List SymbolId} {g b b' b₁ b₂ : Builder} {ok : Ty → Bool}
  {floor fuel : Nat} {s : State} {store : Store}

/-- The place can be changed without touching what is known. -/
theorem At.goto {pc : Option InstId} (h : At g pc store s) (pc' : Option InstId) :
    At g pc' store (s.goto pc') :=
  ⟨rfl, h.outside_eq, h.agrees⟩

/-- Past a `nop`. Blocks, joins and ends of loops are made of them, so this step is taken wherever
control comes together. -/
theorem At.nop {id : Nat} (h : At g (some id) store s) (hnop : g.Has id .nop) :
    ∃ s', g.step world s = .next s' ∧ At g (g.target? id .next) store s' :=
  ⟨_, Builder.step_nop hnop h.pc_eq, h.goto _⟩

/-! ## Values and assignments

Values are computed in registers that are new, so what the locals have in theirs is kept. That
carries the lemmas on expressions over to `At`. -/

/-- An expression leaves the locals alone, and the registers that were given out before as well. The
outcome is at the chain's exit, with the value in the chain's register if there is one. -/
theorem Computes.exec {chain : Chain} {expr : Expr} (h : Computes world scope g b b₁ chain expr)
    (hpart : b.Evaluates chain.entry chain.exit chain.value b₁) (hb : b.Settled) (hw : b₁.Within g)
    (hs : At g (some chain.entry) store s) :
    Follows (g.step world) fuel s
      (Exec.eval (fun locals => expr.eval world scope locals) store)
      fun result s₁ => At g (g.target? chain.exit .next) result.2 s₁ ∧
        result.1 = chain.value.map s₁.temps ∧
        result.2.locals = store.locals ∧
        s.Keeps b.routine.temps b₁.routine.temps b.routine.addrs s₁ := by
  rw [Exec.eval, ← hs.outside_eq]
  refine (h fuel s store.locals hs.pc_eq hs.agrees).andThen ?_
  intro result s₁ h₁
  have hagrees := hs.agrees.keeps h₁.keeps hb hw hpart.locals_eq
  exact .here ⟨⟨h₁.pc, h₁.outside, hagrees⟩, h₁.value, rfl, h₁.keeps⟩

/-- The value of an expression, when it is wanted and there is one, followed by whatever uses it.
This is how conditions, indices and assigned values are run. -/
theorem Computes.exec_value {α : Type} {chain : Chain} {expr : Expr} {t : Temp}
    {f : Word → Exec α} {post : α × Store → State → Prop}
    (h : Computes world scope g b b₁ chain expr)
    (hpart : b.Evaluates chain.entry chain.exit chain.value b₁) (ht : chain.value = some t)
    (hb : b.Settled) (hw : b₁.Within g) (hs : At g (some chain.entry) store s)
    (hf : ∀ s₁ store₁, At g (g.target? chain.exit .next) store₁ s₁ →
      store₁.locals = store.locals →
      s.Keeps b.routine.temps b₁.routine.temps b.routine.addrs s₁ →
      Follows (g.step world) fuel s₁ (f (s₁.temps t) store₁) post) :
    Follows (g.step world) fuel s ((Exec.value world scope expr >>= f) store) post := by
  rw [Exec.value, bind_assoc]
  refine (h.exec hpart hb hw hs).bind ?_
  rintro value store₁ s₁ ⟨hs₁, hvalue, hlocals, hkeeps⟩
  have hwanted : wanted value = .ok (s₁.temps t) := by
    rw [show value = chain.value.map s₁.temps from hvalue, ht]
    rfl
  exact .lift hwanted (hf s₁ store₁ hs₁ hlocals hkeeps)

/-- Writing the register of a local is assigning to the local. It needs that no two locals share a
register, which is part of hosting them. -/
theorem Builder.Agrees.update {temps : Temp → Word} {locals : SymbolId → Word} {id : SymbolId}
    {dst : Temp} (h : g.Agrees temps locals) (hg : g.Hosts floor scope)
    (hmem : (id, dst) ∈ g.locals) (value : Word) :
    g.Agrees (Function.update temps dst value) (Function.update locals id value) := by
  intro entry hentry
  by_cases heq : entry = (id, dst)
  · subst heq
    rw [Function.update_self, Function.update_self]
  · have htemp : entry.2 ≠ dst := fun htemp =>
      heq (List.inj_on_of_nodup_map hg.temps hentry hmem htemp)
    have hid : entry.1 ≠ id := fun hid => heq (List.inj_on_of_nodup_map hg.ids hentry hmem hid)
    rw [Function.update_of_ne htemp, Function.update_of_ne hid]
    exact h entry hentry

/-- The graph carries out an assignment, between `entry` and where `exit` leads. Assignments are
statements, but also the head and the step of a loop, where they stand for themselves. -/
def Assigns (world : World) (scope : List SymbolId) (g : Builder) (chain : Chain)
    (assignment : Assignment) : Prop :=
  ∀ (fuel : Nat) (s : State) (store : Store), At g (some chain.entry) store s →
    Follows (g.step world) fuel s (assignment.exec world scope store)
      fun result s' => At g (g.target? chain.exit .next) result.2 s'

/-- An assignment to a variable: the value, and then a copy or a store. Which of the two was chosen
when the graph was made depends on the builder's locals, and which one is meant depends on the
scope; `Builder.local_or_global` says that these agree. -/
theorem Assignment.assigns_var {info place : Info} {ident : Ident} {value : Expr} {chain : Chain}
    (hg : g.Hosts floor scope) (hb : b.Settled) (hknown : b.Knows known)
    (huses : ident.Uses ok floor known) (hvalue : value.Scoped ok floor known)
    (h : (Assignment.mk info (.var place ident) value).lower b = .ok (chain, b'))
    (hw : b'.Within g) : Assigns world scope g chain ⟨info, .var place ident, value⟩ := by
  intro fuel s store hs
  obtain ⟨symbol, hsymbol, v, b₁, hv, src, hsrc, hcases⟩ := Assignment.lower_var_eq_ok.mp h
  have hpart := value.evaluates_of_lower hb hv
  have hlt := hpart.exit_lt
  have hresolved := (Ident.resolved_eq_ok.mp hsymbol).1
  rw [Assignment.exec]
  refine .lift (Ident.meaning_eq hsymbol) ?_
  rcases hcases with ⟨dst, hlookup, rfl, rfl⟩ | ⟨hlookup, rfl, rfl⟩
  · obtain ⟨hnext, hcopy, hw⟩ := hw.unappend hpart.exit_open
    have hw₀ := hw.of_grows hpart.grows
    obtain ⟨t, -, hmem⟩ := (Builder.local_or_global huses hresolved hknown hw₀ hg).resolve_right
      fun hnone => by simp [hlookup] at hnone
    -- a local is a register, a global a place in memory
    refine (value.computes hg hb hknown hvalue hv hw).exec_value hpart hsrc hb hw hs ?_
    intro s₁ store₁ hs₁ _ _
    rw [if_pos hmem]
    refine ⟨_, .single (Builder.step_copy_temp hcopy (hs₁.pc_eq.trans hnext)), rfl,
      hs₁.outside_eq, ?_⟩
    exact hs₁.agrees.update hg (hw₀.mem_locals (Builder.mem_of_lookup hlookup)) _
  · obtain ⟨hnext, haddress, hlast, hstore, hw⟩ :=
      Builder.Within.unappendBoth (b := b₁.takeAddr) hpart.exit_open hw
    have hw := hw.of_takeAddr
    obtain ⟨-, hmem⟩ := (Builder.local_or_global huses hresolved hknown (hw.of_grows hpart.grows)
      hg).resolve_left fun hsome => by simp [hlookup] at hsome
    refine (value.computes hg hb hknown hvalue hv hw).exec_value hpart hsrc hb hw hs ?_
    intro s₁ store₁ hs₁ _ _
    rw [if_neg hmem]
    refine ⟨_, (Leads.single (Builder.step_store hstore hlast)).head
      (Builder.step_addressAt haddress (hs₁.pc_eq.trans hnext)), rfl, ?_, hs₁.agrees⟩
    simp [hs₁.outside_eq]

/-- An assignment to an array element: its address is taken before the value is evaluated. The index
is therefore evaluated first, as in the tree, and the register with the address has to survive the
value. -/
theorem Assignment.assigns_index {info place : Info} {base : Ident} {position value : Expr}
    {chain : Chain} (hg : g.Hosts floor scope) (hb : b.Settled) (hknown : b.Knows known)
    (hposition : position.Scoped ok floor known) (hvalue : value.Scoped ok floor known)
    (h : (Assignment.mk info (.index place base position) value).lower b = .ok (chain, b'))
    (hw : b'.Within g) : Assigns world scope g chain ⟨info, .index place base position, value⟩ := by
  intro fuel s store hs
  obtain ⟨symbol, hsymbol, index, b₁, hindex, offset, hoffset, v, b₂, hv, src, hsrc, rfl, rfl⟩ :=
    Assignment.lower_index_eq_ok.mp h
  have hpart₁ := position.evaluates_of_lower hb hindex
  have hmid : (b₁.takeAddr.push (.addressAt b₁.nextAddr symbol (some offset))).Settled :=
    (hb.grows hpart₁.grows).of_locals_eq (by simp) (by simp)
  have hpart₂ := value.evaluates_of_lower hmid hv
  have hspans : b.Spans none index.entry index.exit b₁.takeAddr := hpart₁.toSpans.takeAddr
  obtain ⟨⟨hnext, haddress, hw₁⟩, hentry, hlast, hstore, hw₂⟩ :=
    Builder.Within.unstoreAt hspans rfl hpart₂.toSpans hw
  have hw₁ := hw₁.of_takeAddr
  rw [Assignment.exec]
  refine .lift (Ident.meaning_eq hsymbol) ?_
  refine (position.computes hg hb hknown hposition hindex hw₁).exec_value hpart₁
    hoffset hb hw₁ hs ?_
  intro s₁ store₁ hs₁ _ _
  refine .after (.single (Builder.step_addressAt haddress (hs₁.pc_eq.trans hnext))) ?_
  refine (value.computes hg hmid (hknown.of_locals_eq (by simp [hpart₁.locals_eq])) hvalue hv
    hw₂).exec_value hpart₂ hsrc hmid hw₂ ⟨hentry, hs₁.outside_eq, hs₁.agrees⟩ ?_
  intro s₂ store₂ hs₂ _ hkeeps
  -- evaluating the value has not touched the address
  have hkept := hkeeps.addrs b₁.nextAddr (Nat.lt_succ_self _)
  refine ⟨_, .single (Builder.step_store hstore (hs₂.pc_eq.trans hlast)), rfl, ?_, hs₂.agrees⟩
  rw [State.outside_goto, State.outside_setOutside, hkept, hs₂.outside_eq]
  simp

/-- The chain of an assignment carries it out. -/
theorem Assignment.assigns {assignment : Assignment} {chain : Chain} (hg : g.Hosts floor scope)
    (hb : b.Settled) (hknown : b.Knows known) (hscoped : assignment.Scoped ok floor known)
    (h : assignment.lower b = .ok (chain, b')) (hw : b'.Within g) :
    Assigns world scope g chain assignment := by
  obtain ⟨info, location, value⟩ := assignment
  rcases Assignment.location_of_lower_eq_ok h with
    ⟨place, ident, rfl⟩ | ⟨place, base, position, rfl⟩
  · exact Assignment.assigns_var hg hb hknown hscoped.location hscoped.value h hw
  · exact Assignment.assigns_index hg hb hknown hscoped.location.2 hscoped.value h hw

/-! ## Blocks and branches

A block is entered at a `nop` and has its statements after it. What is true of all of them is said
from where an exit leads, because that is where the next statement is linked. -/

/-- The graph executes a statement from `entry` on, up to where `exit` leads. Fuel is the same on
both sides, and counts steps of the run where the execution has no answer for want of it. -/
def Performs (world : World) (scope : List SymbolId) (g : Builder) (out : Option InstId)
    (chain : Chain) (stmt : Stmt) : Prop :=
  ∀ (fuel : Nat) (s : State) (store : Store), At g (some chain.entry) store s →
    Follows (g.step world) fuel s (stmt.exec world scope fuel store) (Ends world g chain.exit out)

/-- From where `exit` leads, the graph executes statements, up to where `last` leads. -/
def PerformsAll (world : World) (scope : List SymbolId) (g : Builder) (out : Option InstId)
    (exit last : InstId) (stmts : List Stmt) : Prop :=
  ∀ (fuel : Nat) (s : State) (store : Store), At g (g.target? exit .next) store s →
    Follows (g.step world) fuel s (Stmt.execAll world scope fuel stmts store)
      (Ends world g last out)

/-- No statements end where they begin. -/
theorem PerformsAll.nil {out : Option InstId} {exit : InstId} :
    PerformsAll world scope g out exit exit [] := by
  intro fuel s store hs
  rw [Stmt.execAll]
  exact .here hs

/-- The next statement begins where the exit before it leads. If it leaves a loop or returns, the
others are not run. -/
theorem PerformsAll.cons {out : Option InstId} {exit last : InstId} {first : Chain} {stmt : Stmt}
    {rest : List Stmt} (h : Performs world scope g out first stmt)
    (hrest : PerformsAll world scope g out first.exit last rest)
    (hnext : g.target? exit .next = some first.entry) :
    PerformsAll world scope g out exit last (stmt :: rest) := by
  intro fuel s store hs
  rw [hnext] at hs
  rw [Stmt.execAll]
  refine (h fuel s store hs).bind ?_
  intro signal store₁ s₁ h₁
  match signal, h₁ with
  | .next, h₁ => exact hrest fuel s₁ store₁ h₁
  | .leave, h₁ => exact .here h₁
  | .ret value, h₁ => exact .here h₁

/-- A block that starts with a `nop` and ends before one. The join after it is passed only if the
block was run to its end. -/
theorem PerformsAll.block {out : Option InstId} {entry exit join : Nat} {stmts : List Stmt}
    (h : PerformsAll world scope g out entry exit stmts) (hentry : g.Has entry .nop)
    (hexit : g.target? exit .next = some join) (hjoin : g.Has join .nop)
    (hs : At g (some entry) store s) :
    Follows (g.step world) fuel s (Stmt.execAll world scope fuel stmts store)
      (Ends world g join out) := by
  obtain ⟨s₁, hstep, hs₁⟩ := hs.nop hentry
  refine .after (.single hstep) ((h fuel s₁ store hs₁).further ?_)
  rintro ⟨signal, store₂⟩ s₂ h₂
  match signal, h₂ with
  | .next, h₂ =>
    have hs₂ : At g (some join) store₂ s₂ := hexit ▸ h₂
    obtain ⟨s₃, hstep₃, hs₃⟩ := hs₂.nop hjoin
    exact ⟨s₃, .single hstep₃, hs₃⟩
  | .leave, h₂ => exact ⟨s₂, .refl s₂, h₂⟩
  | .ret value, h₂ => exact ⟨s₂, .refl s₂, h₂⟩

/-- Where a jump leads: to the false side exactly if the register holds zero. -/
theorem At.jump {id onZero onTrue : Nat} {t : Temp} (h : At g (some id) store s)
    (hjump : g.Has id (.jump t)) (hzero : g.target? id .next = some onZero)
    (htrue : g.target? id .onTrue = some onTrue) :
    ∃ s', g.step world s = .next s' ∧
      At g (some (if s.temps t = 0 then onZero else onTrue)) store s' := by
  refine ⟨_, Builder.step_jump hjump h.pc_eq, ?_⟩
  rw [hzero, htrue, ← apply_ite some]
  exact h.goto _

/-! ## Loops

The graph of a loop is a ring: condition, jump, body, step, and back. The condition's entry is where
it is entered and where it is come back to. -/

section Loop

variable {c i step : Chain} {cond : Expr} {increment : Assignment} {t : Temp} {body : Exec Signal}
  {jump bodyEntry bodyExit done : Nat}

/-- Every time around, a loop takes at least the step of its jump. So when `count` rounds have not
ended it, the run has made `count` steps and not ended either; and otherwise it ends at `done`, or
returns from the body. -/
theorem Exec.follows_iterate {out : Option InstId}
    (hcond : Computes world scope g b b₁ c cond)
    (hpart : b.Evaluates c.entry c.exit c.value b₁) (ht : c.value = some t) (hb : b.Settled)
    (hw : b₁.Within g) (hjump : g.Has jump (.jump t)) (hdone : g.Has done .nop)
    (hbodyEntry : g.Has bodyEntry .nop)
    (hbody : ∀ s store, At g (g.target? bodyEntry .next) store s →
      Follows (g.step world) fuel s (body store) (Ends world g bodyExit (some done)))
    (hstep : Assigns world scope g step increment)
    (hgoes₁ : g.target? c.exit .next = some jump) (hgoes₂ : g.target? jump .next = some done)
    (hgoes₃ : g.target? jump .onTrue = some bodyEntry)
    (hgoes₄ : g.target? bodyExit .next = some step.entry)
    (hgoes₅ : g.target? step.exit .next = some c.entry) :
    ∀ count ≤ fuel, ∀ s store, At g (some c.entry) store s →
      Follows (g.step world) count s
        (Exec.iterate (Exec.value world scope cond) body (increment.exec world scope) count store)
        (Ends world g done out) := by
  intro count hcount
  induction count with
  | zero =>
    intro s store hs
    exact Lasts.zero s
  | succ count ih =>
    intro s store hs
    rw [Exec.iterate]
    refine hcond.exec_value hpart ht hb hw hs ?_
    intro s₁ store₁ hs₁ _ _
    rw [hgoes₁] at hs₁
    obtain ⟨s₂, hstep₂, hs₂⟩ := hs₁.jump hjump hgoes₂ hgoes₃
    -- the jump pays for this round
    refine .next hstep₂ ?_
    by_cases hzero : s₁.temps t = 0
    · rw [if_pos hzero] at hs₂ ⊢
      obtain ⟨s₃, hstep₃, hs₃⟩ := hs₂.nop hdone
      exact ⟨s₃, .single hstep₃, hs₃⟩
    · rw [if_neg hzero] at hs₂ ⊢
      obtain ⟨s₃, hstep₃, hs₃⟩ := hs₂.nop hbodyEntry
      refine .after (.single hstep₃) (((hbody s₃ store₁ hs₃).fewer (by omega)).bind ?_)
      intro signal store₄ s₄ h₄
      match signal, h₄ with
      | .next, h₄ =>
        have hs₄ : At g (some step.entry) store₄ s₄ := hgoes₄ ▸ h₄
        refine (hstep count s₄ store₄ hs₄).bind ?_
        intro _ store₅ s₅ h₅
        rw [hgoes₅] at h₅
        exact ih (by omega) s₅ store₅ h₅
      | .leave, ⟨target, htarget, hs₄⟩ =>
        obtain rfl := Option.some.inj htarget
        obtain ⟨s₅, hstep₅, hs₅⟩ := hs₄.nop hdone
        exact ⟨s₅, .single hstep₅, hs₅⟩
      | .ret value, h₄ => exact .here h₄

end Loop

/-! ## Where the parts of branches and loops are

The graph is made from the front to the back and gets its links at the end. Read from the finished
graph, each link is there and can be taken off, because the edge was unset before; what is left is
the builder at the time when the part was done. -/

namespace Builder

variable {b₃ b₄ mid : Builder} {out : Option InstId} {value : Temp}

/-- Locals that are declared are known afterwards, with those from before. -/
theorem Knows.declares {ids : List SymbolId} (h : b.Knows known) (hdeclares : b.Declares b' ids) :
    b'.Knows (ids ++ known) := by
  intro id hid
  rw [hdeclares.ids_eq]
  rcases List.mem_append.mp hid with hnew | hold
  · exact List.mem_append_left _ hnew
  · exact List.mem_append_right _ (h id hold)

/-- Back over the links of a conditional, whose first block starts from `mid`. There are four: from
the jump to both blocks, and from the ends of both blocks to the join. -/
theorem Within.unbranch {exit exit₁ exit₂ : Nat} (hexit : exit < b₁.size)
    (hmid : mid = (b₁.push (.jump value)).link exit b₁.size .next)
    (h₁ : mid.Spans out (b₁.size + 1) exit₁ b₂) (h₂ : b₂.Spans out b₂.size exit₂ b₃)
    (hw : (((((b₃.push .nop).link b₁.size (b₁.size + 1) .onTrue).link b₁.size b₂.size .next).link
      exit₁ b₃.size .next).link exit₂ b₃.size .next).Within g) :
    b₃.Within g ∧ g.Has b₃.size .nop ∧ g.target? b₁.size .onTrue = some (b₁.size + 1) ∧
      g.target? b₁.size .next = some b₂.size ∧ g.target? exit₁ .next = some b₃.size ∧
      g.target? exit₂ .next = some b₃.size := by
  have hsize : mid.size = b₁.size + 1 := by simp [hmid]
  have hjump : ∀ edge, mid.Unset b₁.size edge := fun edge => hmid ▸
    ((Unset.of_size_le (Nat.le_refl _)).push _).link (.inl (by omega))
  have hsize₁ := h₁.grows.size_le
  have hsize₂ := h₂.grows.size_le
  have hexit₁ := h₁.exit_ge
  have hexit₁' := h₁.exit_lt
  have hexit₂ := h₂.exit_ge
  have hexit₂' := h₂.exit_lt
  have hjump' : ∀ edge, (b₃.push .nop).Unset b₁.size edge := fun edge =>
    (((hjump edge).grows (by omega) h₁.grows).grows (by omega) h₂.grows).push _
  have hunset₁ := ((h₁.exit_open.grows h₂.grows).unset .next).push .nop
  have hunset₂ := (h₂.exit_open.unset .next).push .nop
  obtain ⟨hfalse, hw⟩ := hw.unlink (by simp; omega)
    (((hunset₂.link (.inl (by omega))).link (.inl (by omega))).link (.inl (by omega)))
  obtain ⟨htrue, hw⟩ := hw.unlink (by simp; omega)
    ((hunset₁.link (.inl (by omega))).link (.inl (by omega)))
  obtain ⟨honZero, hw⟩ := hw.unlink (by simp; omega) ((hjump' _).link (.inr (by decide)))
  obtain ⟨honTrue, hw⟩ := hw.unlink (by simp; omega) (hjump' _)
  exact ⟨hw.of_push, hw.has, honTrue, honZero, htrue, hfalse⟩

/-- Back over the links that close a loop, whose body starts from `mid`: from the jump into the body
and out of the loop, from the body's end to the step, and from there back to the condition. -/
theorem Within.unloop {exit exit₁ exit₂ entry₁ entry₃ exit₃ : Nat} (hexit : exit < b₂.size)
    (hexit₁ : exit₁ < b₂.size)
    (hmid : mid = (((b₂.push (.jump value)).push .nop).link exit entry₁ .next).link
      exit₁ b₂.size .next)
    (h₂ : mid.Spans (some (b₂.size + 1)) (b₂.size + 2) exit₂ b₃)
    (h₃ : b₃.Spans none entry₃ exit₃ b₄)
    (hw : ((((b₄.link b₂.size (b₂.size + 2) .onTrue).link b₂.size (b₂.size + 1) .next).link
      exit₂ entry₃ .next).link exit₃ entry₁ .next).Within g) :
    b₄.Within g ∧ g.target? b₂.size .onTrue = some (b₂.size + 2) ∧
      g.target? b₂.size .next = some (b₂.size + 1) ∧ g.target? exit₂ .next = some entry₃ ∧
      g.target? exit₃ .next = some entry₁ := by
  have hsize : mid.size = b₂.size + 2 := by simp [hmid]
  have hjump : ∀ edge, mid.Unset b₂.size edge := fun edge => hmid ▸
    ((((Unset.of_size_le (Nat.le_refl _)).push _).push _).link (.inl (by omega))).link
      (.inl (by omega))
  have hsize₂ := h₂.grows.size_le
  have hsize₃ := h₃.grows.size_le
  have hexit₂ := h₂.exit_ge
  have hexit₂' := h₂.exit_lt
  have hexit₃ := h₃.exit_ge
  have hexit₃' := h₃.exit_lt
  have hjump' : ∀ edge, b₄.Unset b₂.size edge := fun edge =>
    ((hjump edge).grows (by omega) h₂.grows).grows (by omega) h₃.grows
  have hunset₂ := (h₂.exit_open.grows h₃.grows).unset .next
  have hunset₃ := h₃.exit_open.unset .next
  -- the edges come off in the opposite order, each unset before it was linked
  obtain ⟨hagain, hw⟩ := hw.unlink (by simp; omega)
    (((hunset₃.link (.inl (by omega))).link (.inl (by omega))).link (.inl (by omega)))
  obtain ⟨hstep, hw⟩ := hw.unlink (by simp; omega)
    ((hunset₂.link (.inl (by omega))).link (.inl (by omega)))
  obtain ⟨honZero, hw⟩ := hw.unlink (by simp; omega) ((hjump' _).link (.inr (by decide)))
  obtain ⟨honTrue, hw⟩ := hw.unlink (by omega) (hjump' _)
  exact ⟨hw, honTrue, honZero, hstep, hagain⟩

/-- Back over the head of a loop: its jump, its end, and the way from the first assignment to the
condition. -/
theorem Within.unloopHead {i c : Chain} (hi : b₁.Open i.exit) (hc : b₂.Open c.exit)
    (hge : b₁.size ≤ c.exit) (hb : b₁.Grows b₂)
    (hw : ((((b₂.push (.jump value)).push .nop).link i.exit c.entry .next).link
      c.exit b₂.size .next).Within g) :
    b₂.Within g ∧ g.Has b₂.size (.jump value) ∧ g.Has (b₂.size + 1) .nop ∧
      g.target? i.exit .next = some c.entry ∧ g.target? c.exit .next = some b₂.size := by
  have hexit := hi.lt_size
  have hexit' := hc.lt_size
  have hi := hi.grows hb
  have hlt := hi.lt_size
  obtain ⟨hjump, hw⟩ := hw.unlink (by simp; omega)
    ((((hc.unset .next).push _).push _).link (.inl (by omega)))
  obtain ⟨hcond, hw⟩ := hw.unlink (by simp; omega) (((hi.unset .next).push _).push _)
  have hdone : g.Has (b₂.size + 1) .nop := by simpa using hw.has
  exact ⟨hw.of_push.of_push, hw.of_push.has, hdone, hcond, hjump⟩

end Builder

/-! ## Every statement

One case for each construct. The declared names grow along a row of statements and into blocks, as
they do when the graph is made. -/

mutual

/-- The chain of a statement executes it. Locals are in separate registers before, the names that
the statement uses are known, and nothing that was made up to the end of the chain is missing in
`g`. -/
theorem Stmt.performs (hg : g.Hosts floor scope) : ∀ (stmt : Stmt) {known : List SymbolId}
    {out : Option InstId} {b b' : Builder} {chain : Chain}, b.Separated → b.Knows known →
    stmt.Scoped ok floor known → stmt.lower out b = .ok (chain, b') → b'.Within g →
    Performs world scope g out chain stmt
  | .declare info decl, _, out, b, b', chain, _, _, _, h, hw => by
    obtain ⟨symbol, -, rfl, rfl⟩ := Stmt.lower_declare_eq_ok.mp h
    intro fuel s store hs
    obtain ⟨s', hstep, hs'⟩ := hs.nop hw.has
    rw [Stmt.exec]
    exact ⟨s', .single hstep, hs'⟩
  | .assign info assignment, _, out, b, b', chain, hb, hknown, hscoped, h, hw => by
    rw [Stmt.lower_assign] at h
    intro fuel s store hs
    rw [Stmt.exec]
    refine (Assignment.assigns hg hb.settled hknown hscoped h hw fuel s store hs).bind ?_
    intro _ store₁ s₁ hs₁
    exact .here hs₁
  | .call info callee args, _, out, b, b', chain, hb, hknown, hscoped, h, hw => by
    rw [Stmt.lower_call] at h
    intro fuel s store hs
    have hcall : Computes world scope g b b' chain (.call info callee args) :=
      Expr.computes hg _ hb.settled hknown hscoped h hw
    rw [Stmt.exec]
    refine (hcall.exec (Expr.evaluates_of_lower _ hb.settled h) hb.settled hw hs).bind ?_
    rintro _ store₁ s₁ ⟨hs₁, -⟩
    exact .here hs₁
  | .ifElse info cond onTrue onFalse, known, out, b, b', chain, hb, hknown, hscoped, h, hw => by
    obtain ⟨c, b₁, hc, value, hvalue, trueExit, b₂, htrue, falseExit, b₃, hfalse, rfl, rfl⟩ :=
      Stmt.lower_ifElse_eq_ok.mp h
    obtain ⟨hscoped, hscopedTrue, hscopedFalse⟩ := hscoped
    have hcond := cond.evaluates_of_lower hb.settled hc
    have hmid : (((b₁.push (.jump value)).link c.exit b₁.size .next).push .nop).Separated :=
      hb.of_locals_eq (by simp [hcond.locals_eq]) (by simpa using hcond.grows.temps_le)
    have hknownMid : (((b₁.push (.jump value)).link c.exit b₁.size .next).push .nop).Knows known :=
      hknown.of_locals_eq (by simp [hcond.locals_eq])
    have hdeclares := Stmt.declaresAll_of_lowerAll onTrue.stmts hmid htrue
    have hb₂ : (b₂.push .nop).Separated := hdeclares.separated.of_locals_eq (by simp) (by simp)
    have hspansTrue := Stmt.spans_of_lowerAll onTrue.stmts hmid.settled (.nop (by simp)) htrue
    have hspansFalse := Stmt.spans_of_lowerAll onFalse.stmts hb₂.settled (.nop rfl) hfalse
    -- backwards from the finished graph: the links, the block for false, the block for true, and
    -- the jump
    obtain ⟨hw₃, hjoin, honTrue, honZero, hexitTrue, hexitFalse⟩ :=
      hw.unbranch hcond.exit_lt rfl hspansTrue hspansFalse
    obtain ⟨hw₂, hblockFalse⟩ := Stmt.performsAll hg onFalse.stmts hb₂
      ((hknownMid.declares hdeclares).of_locals_eq (by simp)) hscopedFalse (.nop rfl) hfalse hw₃
    obtain ⟨hwMid, hblockTrue⟩ := Stmt.performsAll hg onTrue.stmts hmid hknownMid hscopedTrue
      (.nop (by simp)) htrue hw₂.of_push
    have hentryTrue : g.Has (b₁.size + 1) .nop := by simpa using hwMid.has
    obtain ⟨hnext, hjump, hw₁⟩ := hwMid.of_push.unappend hcond.exit_open
    intro fuel s store hs
    rw [Stmt.exec]
    -- forwards along the execution
    refine (cond.computes hg hb.settled hknown hscoped hc hw₁).exec_value hcond hvalue hb.settled
      hw₁ hs ?_
    intro s₁ store₁ hs₁ _ _
    rw [hnext] at hs₁
    obtain ⟨s₂, hstep₂, hs₂⟩ := hs₁.jump hjump honZero honTrue
    refine .after (.single hstep₂) ?_
    by_cases hzero : s₁.temps value = 0
    · rw [if_pos hzero] at hs₂ ⊢
      exact hblockFalse.block hw₂.has hexitFalse hjoin hs₂
    · rw [if_neg hzero] at hs₂ ⊢
      exact hblockTrue.block hentryTrue hexitTrue hjoin hs₂
  | .loop info init cond increment body, known, out, b, b', chain, hb, hknown, hscoped, h, hw => by
    obtain ⟨i, b₁, hi, c, b₂, hc, value, hvalue, bodyExit, b₃, hbody, step, b₄, hstep, rfl, rfl⟩ :=
      Stmt.lower_loop_eq_ok.mp h
    obtain ⟨hscopedInit, hscopedCond, hscopedStep, hscopedBody⟩ := hscoped
    obtain ⟨hinit, hlocals₁⟩ := Assignment.spans_of_lower hb.settled hi
    have hb₁ := hb.of_locals_eq hlocals₁ hinit.grows.temps_le
    have hknown₁ := hknown.of_locals_eq hlocals₁
    have hcond := cond.evaluates_of_lower hb₁.settled hc
    have hmid : (((((b₂.push (.jump value)).push .nop).link i.exit c.entry .next).link
        c.exit b₂.size .next).push .nop).Separated :=
      hb₁.of_locals_eq (by simp [hcond.locals_eq]) (by simpa using hcond.grows.temps_le)
    have hknownMid : (((((b₂.push (.jump value)).push .nop).link i.exit c.entry .next).link
        c.exit b₂.size .next).push .nop).Knows known :=
      hknown₁.of_locals_eq (by simp [hcond.locals_eq])
    -- the step of the loop is lowered after the body, whose locals it does not know
    have hdeclares := Stmt.declaresAll_of_lowerAll body.stmts hmid hbody
    have hknown₃ : b₃.Knows known := fun id hid =>
      hknownMid.declares hdeclares id (List.mem_append_right _ hid)
    have hspansBody := Stmt.spans_of_lowerAll body.stmts hmid.settled (.nop (by simp)) hbody
    have hspansStep := (Assignment.spans_of_lower hdeclares.separated.settled hstep).1
    obtain ⟨hw₄, honTrue, honZero, hexitBody, hagain⟩ := hw.unloop
      (Nat.lt_of_lt_of_le hinit.exit_lt hcond.grows.size_le) hcond.exit_lt rfl hspansBody hspansStep
    obtain ⟨hwMid, hblock⟩ := Stmt.performsAll hg body.stmts hmid hknownMid hscopedBody
      (.nop (by simp)) hbody (hw₄.of_grows hspansStep.grows)
    have hentry : g.Has (b₂.size + 2) .nop := by simpa using hwMid.has
    obtain ⟨hw₂, hjump, hdone, hfirst, hnext⟩ := hwMid.of_push.unloopHead hinit.exit_open
      hcond.exit_open hcond.exit_ge hcond.grows
    have hw₁ := hw₂.of_grows hcond.grows
    intro fuel s store hs
    rw [Stmt.exec]
    refine (Assignment.assigns hg hb.settled hknown hscopedInit hi hw₁ fuel s store hs).bind ?_
    intro _ store₁ s₁ hs₁
    rw [hfirst] at hs₁
    exact Exec.follows_iterate (cond.computes hg hb₁.settled hknown₁ hscopedCond hc hw₂) hcond
      hvalue
      hb₁.settled hw₂ hjump hdone hentry (hblock fuel)
      (Assignment.assigns hg hdeclares.separated.settled hknown₃ hscopedStep hstep hw₄)
      hnext honZero honTrue hexitBody hagain fuel (Nat.le_refl _) s₁ store₁ hs₁
  | .leave info, _, out, b, b', chain, hb, hknown, hscoped, h, hw => by
    obtain ⟨target, rfl, rfl, rfl⟩ := Stmt.lower_leave_eq_ok.mp h
    obtain ⟨hgoes, hw⟩ := hw.of_push.unlink (by simp)
      ((Builder.Unset.of_size_le (Nat.le_refl _)).push _)
    intro fuel s store hs
    obtain ⟨s', hstep, hs'⟩ := hs.nop hw.has
    rw [hgoes] at hs'
    rw [Stmt.exec]
    exact ⟨s', .single hstep, target, rfl, hs'⟩
  | .ret info none, _, out, b, b', chain, hb, hknown, hscoped, h, hw => by
    obtain ⟨rfl, rfl⟩ := Stmt.lower_ret_none_eq_ok.mp h
    intro fuel s store hs
    have hret : g.step world s = .done (none, store.outside) := by
      rw [Builder.step_ret hw.of_push.has hs.pc_eq, hs.outside_eq]
      rfl
    rw [Stmt.exec]
    exact .here hret
  | .ret info (some value), _, out, b, b', chain, hb, hknown, hscoped, h, hw => by
    obtain ⟨v, b₁, hv, rfl, rfl⟩ := Stmt.lower_ret_some_eq_ok.mp h
    have hpart := value.evaluates_of_lower hb.settled hv
    obtain ⟨hnext, hret, hw⟩ := hw.of_push.unappend hpart.exit_open
    intro fuel s store hs
    rw [Stmt.exec]
    refine ((value.computes hg hb.settled hknown hscoped hv hw).exec hpart hb.settled hw hs).bind ?_
    rintro result store₁ s₁ ⟨hs₁, hresult, -⟩
    have hstep : g.step world s₁ = .done (result, store₁.outside) := by
      rw [Builder.step_ret hret (hs₁.pc_eq.trans hnext), hs₁.outside_eq]
      exact congrArg (fun value => Progress.done (value, store₁.outside)) hresult.symm
    exact .here hstep

/-- The chains of statements execute them one after the other. That the first of them is in `g` is
known only after those behind it, so the recursion gives it along with the result. -/
theorem Stmt.performsAll (hg : g.Hosts floor scope) : ∀ (stmts : List Stmt) {known : List SymbolId}
    {out : Option InstId} {b₀ b b' : Builder} {entry exit last : Nat}, b.Separated →
    b.Knows known → Stmt.ScopedAll ok floor known stmts → b₀.Spans out entry exit b →
    Stmt.lowerAll out exit stmts b = .ok (last, b') → b'.Within g →
    b.Within g ∧ PerformsAll world scope g out exit last stmts
  | [], _, out, b₀, b, b', entry, exit, last, hb, hknown, hscoped, hspans, h, hw => by
    obtain ⟨rfl, rfl⟩ := Stmt.lowerAll_nil_eq_ok.mp h
    exact ⟨hw, .nil⟩
  | stmt :: rest, _, out, b₀, b, b', entry, exit, last, hb, hknown, hscoped, hspans, h, hw => by
    obtain ⟨first, b₁, hfirst, hrest⟩ := Stmt.lowerAll_cons_eq_ok.mp h
    have hstmt := Stmt.spans_of_lower stmt hb.settled hfirst
    have hdeclares := Stmt.declares_of_lower stmt hb hfirst
    have hb₁ : (b₁.link exit first.entry .next).Separated :=
      hdeclares.separated.of_locals_eq (by simp) (by simp)
    obtain ⟨hw₁, hothers⟩ := Stmt.performsAll hg rest hb₁
      ((hknown.declares hdeclares).of_locals_eq (by simp)) hscoped.2 (hspans.follow hstmt) hrest hw
    have hexit := hspans.exit_open.grows hstmt.grows
    obtain ⟨hnext, hw₁⟩ := hw₁.unlink hexit.lt_size (hexit.unset .next)
    exact ⟨hw₁.of_grows hstmt.grows,
      .cons (Stmt.performs hg stmt hb hknown hscoped.1 hfirst hw₁) hothers hnext⟩

end

end WordLang
