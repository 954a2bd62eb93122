import WordLang.Proofs.Semantics.Tracking
import WordLang.Proofs.Simulation.Placement

/-!
# Expressions do in a graph what they do in a tree

From the entry of its chain an expression is evaluated with the same events, and ends where the exit
leads, with its value in the register of the chain. On the way only registers change that were taken
for it, so the locals keep what they hold, and so do the operands that were evaluated before.

The statement about an expression (`Computes`) is about its chain in the finished graph, and about
every state in which the registers of the locals hold what the locals do. It has three parts: what
the tree does the graph does, and where the tree traps the graph traps; the value is in the register
of the chain; and the registers that may have changed lie between two bounds, those of the builder
before and after (`Keeps`).

The bounds are what makes it possible to go on. The value of a left operand was put in a register
below the bound from which the right operand takes its own, so it is still there when both are
needed. The registers of locals lie below all of them, or were taken elsewhere; no expression takes
one.

Operators that decide which operand to look at have jumps in the graph. Where such a jump leads is
known from its edges (`connective_target`), and both ways end in the same register.
-/

namespace WordLang

open WordLang.Graph

/-! ## Registers that stay as they are

Registers for values are bounded on both sides, as later ones may hold locals that are declared
later. For addresses a lower bound is enough: none of them outlives the construct it was taken for.
-/

/-- From one state to another, only value registers between two bounds and address registers from a
bound on may have changed. The bounds are those of the builder, before and after the construct that
was run. -/
structure Graph.State.Keeps (low high addrs : Nat) (s s' : State) : Prop where
  temps : ∀ t : Temp, t.index < low ∨ high ≤ t.index → s'.temps t = s.temps t
  addrs : ∀ a : Addr, a.index < addrs → s'.addrs a = s.addrs a

namespace Graph.State.Keeps

variable {low high addrs low' high' addrs' : Nat} {s s' s'' : State}

/-- Nothing has changed. -/
theorem refl (s : State) : s.Keeps low high addrs s :=
  ⟨fun _ _ => rfl, fun _ _ => rfl⟩

/-- What stays in both steps stays. -/
theorem trans (h₁ : s.Keeps low high addrs s') (h₂ : s'.Keeps low high addrs s'') :
    s.Keeps low high addrs s'' :=
  ⟨fun t ht => (h₂.temps t ht).trans (h₁.temps t ht),
    fun a ha => (h₂.addrs a ha).trans (h₁.addrs a ha)⟩

/-- The bounds may be made wider. -/
theorem widen (h : s.Keeps low' high' addrs' s') (hlow : low ≤ low') (hhigh : high' ≤ high)
    (haddrs : addrs ≤ addrs') : s.Keeps low high addrs s' := by
  refine ⟨fun t ht => h.temps t ?_, fun a ha => h.addrs a (Nat.lt_of_lt_of_le ha haddrs)⟩
  rcases ht with hlt | hle
  · exact .inl (Nat.lt_of_lt_of_le hlt hlow)
  · exact .inr (Nat.le_trans hhigh hle)

/-- Going on changes no register. -/
theorem goto (h : s.Keeps low high addrs s') (pc : Option InstId) :
    s.Keeps low high addrs (s'.goto pc) :=
  ⟨h.temps, h.addrs⟩

/-- Nor does what happens outside. -/
theorem setOutside (h : s.Keeps low high addrs s') (outside : Outside) :
    s.Keeps low high addrs (s'.setOutside outside) :=
  ⟨h.temps, h.addrs⟩

/-- A register between the bounds was written. -/
theorem setTemp (h : s.Keeps low high addrs s') {dst : Temp} (hlow : low ≤ dst.index)
    (hhigh : dst.index < high) (value : Word) : s.Keeps low high addrs (s'.setTemp dst value) := by
  refine ⟨fun t ht => ?_, h.addrs⟩
  have hne : t ≠ dst := by
    rintro rfl
    omega
  exact (Function.update_of_ne hne _ _).trans (h.temps t ht)

/-- So was a register for an address. -/
theorem setAddr (h : s.Keeps low high addrs s') {dst : Addr} (hdst : addrs ≤ dst.index)
    (address : Word) : s.Keeps low high addrs (s'.setAddr dst address) := by
  refine ⟨h.temps, fun a ha => ?_⟩
  have hne : a ≠ dst := by
    rintro rfl
    omega
  exact (Function.update_of_ne hne _ _).trans (h.addrs a ha)

end Graph.State.Keeps

/-! ## Locals and their registers

The correspondence that a run keeps: each local that is in scope has its word in its register. The
finished graph gives different registers to different locals, so that writing one leaves the others.
-/

namespace Builder

variable {b b' g : Builder} {floor : Nat} {scope known : List SymbolId}

/-- The registers hold what the locals do. -/
def Agrees (g : Builder) (temps : Temp → Word) (locals : SymbolId → Word) : Prop :=
  ∀ entry ∈ g.locals, temps entry.2 = locals entry.1

/-- The finished graph has a register of its own for everything that the function declares, and for
nothing else. What is global has an id below `floor`, so it cannot be mistaken for a local. -/
structure Hosts (g : Builder) (floor : Nat) (scope : List SymbolId) : Prop where
  floor_le : ∀ id ∈ scope, floor ≤ id.index
  declared : ∀ entry ∈ g.locals, entry.1 ∈ scope
  ids : g.ids.Nodup
  temps : (g.locals.map (·.2)).Nodup

/-- The known declarations have their registers. Declarations become known one after the other, in
the order of the tree, and get their registers in the same order. -/
def Knows (b : Builder) (known : List SymbolId) : Prop :=
  ∀ id ∈ known, id ∈ b.ids

/-- What is found is there. -/
theorem mem_of_lookup {id : SymbolId} {t : Temp} (h : b.locals.lookup id = some t) :
    (id, t) ∈ b.locals := by
  obtain ⟨before, after, heq, -⟩ := List.lookup_eq_some_iff.mp h
  rw [heq]
  exact List.mem_append_right _ List.mem_cons_self

/-- The locals of an earlier stage are locals of the finished graph. -/
theorem Within.mem_locals {entry : SymbolId × Temp} (h : b.Within g) (hentry : entry ∈ b.locals) :
    entry ∈ g.locals := by
  obtain ⟨newer, heq, -⟩ := h.locals
  rw [heq]
  exact List.mem_append_right _ hentry

/-- What is known stays known while the locals do not change. -/
theorem Knows.of_locals_eq (h : b.Knows known) (heq : b'.locals = b.locals) : b'.Knows known := by
  intro id hid
  rw [ids, heq]
  exact h id hid

/-- A name that is used is one of the function's own exactly when it has a register by now. Here
resolution and lowering meet: the one says that a name which is used is known or global, the other
looks for its register among those that it has given out. -/
theorem local_or_global {ok : Ty → Bool} {ident : Ident} {symbol : Symbol}
    (huses : ident.Uses ok floor known) (hsymbol : ident.symbol = some symbol) (hb : b.Knows known)
    (hw : b.Within g) (hg : g.Hosts floor scope) :
    (∃ t, b.locals.lookup symbol.id = some t ∧ symbol.id ∈ scope) ∨
      b.locals.lookup symbol.id = none ∧ symbol.id ∉ scope := by
  obtain ⟨symbol', hsymbol', -, hplace⟩ := huses
  obtain rfl : symbol' = symbol := Option.some.inj (hsymbol'.symm.trans hsymbol)
  rcases hlookup : b.locals.lookup symbol'.id with _ | t
  · refine .inr ⟨rfl, fun hmem => ?_⟩
    rcases hplace with hknown | hlt
    · obtain ⟨entry, hentry, hid⟩ := List.mem_map.mp (hb _ hknown)
      have hne := List.lookup_eq_none_iff.mp hlookup entry hentry
      exact absurd hid.symm (bne_iff_ne.mp hne)
    · exact absurd hlt (Nat.not_lt.mpr (hg.floor_le _ hmem))
  · exact .inl ⟨t, rfl, hg.declared _ (hw.mem_locals (mem_of_lookup hlookup))⟩

/-- Registers that were taken for an expression are not those of a local, neither of one that is
known already nor of one that is declared later. So evaluating it leaves the locals alone. -/
theorem Agrees.keeps {s s' : State} {addrs : Nat} {locals : SymbolId → Word}
    (h : g.Agrees s.temps locals) (hs : s.Keeps b.routine.temps b'.routine.temps addrs s')
    (hb : b.Settled) (hw : b'.Within g) (hlocals : b'.locals = b.locals) :
    g.Agrees s'.temps locals := by
  obtain ⟨newer, heq, hnewer⟩ := hw.locals
  intro entry hentry
  rw [← h entry hentry]
  refine hs.temps entry.2 ?_
  rw [heq, hlocals] at hentry
  rcases List.mem_append.mp hentry with hmem | hmem
  · exact .inr (hnewer entry hmem)
  · exact .inl (hb entry hmem)

end Builder

/-! ## Leaves

Literals and names. The value of a local is where it is, and no instruction is needed to fetch it.
-/

/-- An expression was evaluated: the run is where the chain leads, with the value in its register.
If it has no value, there is no register. -/
structure Evaluated (g b b' : Builder) (chain : Chain) (s : State) (result : Option Word × Outside)
    (s' : State) : Prop where
  pc : s'.pc = g.target? chain.exit .next
  outside : s'.outside = result.2
  value : result.1 = chain.value.map s'.temps
  keeps : s.Keeps b.routine.temps b'.routine.temps b.routine.addrs s'

/-- Between `b` and `b'` the graph has a chain that evaluates the expression, from every state in
which the registers of the locals hold what the locals do. Fuel plays no part in expressions; it is
there because statements have it. -/
def Computes (world : World) (scope : List SymbolId) (g b b' : Builder) (chain : Chain)
    (expr : Expr) : Prop :=
  ∀ (fuel : Nat) (s : State) (locals : SymbolId → Word), s.pc = some chain.entry →
    g.Agrees s.temps locals →
    Follows (g.step world) fuel s (expr.eval world scope locals s.outside)
      (Evaluated g b b' chain s)

/-- The source and lowering agree on what a name means. -/
theorem Ident.meaning_eq {ident : Ident} {symbol : Symbol} (h : ident.resolved = .ok symbol) :
    ident.meaning = .ok symbol := by
  rw [Ident.meaning, (Ident.resolved_eq_ok.mp h).1]

section

variable {world : World} {scope known : List SymbolId} {g b b' b₁ b₂ : Builder} {chain : Chain}
  {ok : Ty → Bool} {floor fuel : Nat} {s : State}

/-- A literal is copied from the pool. -/
theorem Lower.follows_literal {constant : Constant}
    (h : Lower.literal constant b = .ok (chain, b')) (hw : b'.Within g)
    (hpc : s.pc = some chain.entry) :
    Follows (g.step world) fuel s (.ok (some constant.value, s.outside))
      (Evaluated g b b' chain s) := by
  obtain ⟨rfl, rfl⟩ := Lower.literal_eq_ok.mp h
  have hconst : g.constants[(internConstant b.constants constant).1]? = some constant := by
    have hpool : (internConstant b.constants constant).2 <+: g.constants := hw.pool
    obtain ⟨more, hmore⟩ := hpool
    have hpooled := getElem?_internConstant b.constants constant
    rw [← hmore, List.getElem?_append_left (List.getElem?_eq_some_iff.mp hpooled).1]
    exact hpooled
  refine ⟨_, .single (Builder.step_copy_const hw.has hconst hpc), rfl, rfl, by simp, ?_⟩
  refine ((State.Keeps.refl s).setTemp ?_ ?_ _).goto _ <;> simp

/-- A variable is in its register, or its word is loaded from memory. A load is an event on both
sides, with the same address and the same word. -/
theorem Lower.computes_varValue {info : Info} {ident : Ident}
    (h : Lower.varValue ident b = .ok (chain, b')) (huses : ident.Uses ok floor known)
    (hb : b.Knows known) (hw : b'.Within g) (hg : g.Hosts floor scope) :
    Computes world scope g b b' chain (.var info ident) := by
  intro fuel s locals hpc hagrees
  have hwithin := hw.of_grows (Lower.evaluates_varValue h).grows
  obtain ⟨symbol, hsymbol, hcases⟩ := Lower.varValue_eq_ok.mp h
  have hplace := Builder.local_or_global huses (Ident.resolved_eq_ok.mp hsymbol).1 hb hwithin hg
  rw [Expr.eval]
  refine .lift (Ident.meaning_eq hsymbol) ?_
  rcases hcases with ⟨temp, hlookup, rfl, rfl⟩ | ⟨hlookup, rfl, rfl⟩
  · obtain ⟨t, ht, hmem⟩ := hplace.resolve_right fun hnone => by simp [hlookup] at hnone
    have hvalue := hagrees _ (hwithin.mem_locals (Builder.mem_of_lookup hlookup))
    rw [if_pos hmem]
    exact ⟨_, .single (Builder.step_nop hw.has hpc), rfl, rfl, congrArg some hvalue.symm,
      (State.Keeps.refl s).goto _⟩
  · obtain ⟨-, hmem⟩ := hplace.resolve_left fun hsome => by simp [hlookup] at hsome
    have hsize : b.size < ((b.takeAddr.push (.addressAt b.nextAddr symbol none)).takeTemp.push
        (.load b.nextTemp b.nextAddr)).size := by
      simp only [Builder.size_push, Builder.size_takeTemp, Builder.size_takeAddr]
      omega
    obtain ⟨haddress, hload⟩ := hw.unlink hsize
      (((Builder.Unset.of_size_le (Nat.le_refl _)).takeAddr.push _).takeTemp.push _)
    have hhas : g.Has (b.size + 1) (.load b.nextTemp b.nextAddr) := by simpa using hload.has
    rw [if_neg hmem, Eval.load_bind]
    refine ⟨_, (Leads.single (Builder.step_load hhas haddress)).head
      (Builder.step_addressAt hload.of_push.of_takeTemp.has hpc), rfl, ?_, ?_, ?_⟩
    · simp
    · simp
    · refine ((((State.Keeps.refl s).setAddr ?_ _).goto _).setOutside _ |>.setTemp ?_ ?_ _).goto _
      · exact Nat.le_refl _
      · exact Nat.le_refl _
      · exact Nat.lt_succ_self _

end

/-! ## Operators

One rule for each way in which chains are put together. The rules speak of chains that compute
expressions, wherever these come from; the recursion comes at the end. -/

namespace Computes

variable {world : World} {scope : List SymbolId} {g b b₁ b₂ : Builder} {info : Info}

/-- After an expression whose value is wanted, the value is in its register. What is done with it is
the continuation `f`, on both sides. -/
theorem value {α : Type} {chain : Chain} {expr : Expr} {t : Temp} {fuel : Nat} {s : State}
    {locals : SymbolId → Word} {f : Word → Eval α} {post : α × Outside → State → Prop}
    (h : Computes world scope g b b₁ chain expr) (ht : chain.value = some t)
    (hpc : s.pc = some chain.entry) (hagrees : g.Agrees s.temps locals)
    (hf : ∀ s₁ : State, s₁.pc = g.target? chain.exit .next →
      s.Keeps b.routine.temps b₁.routine.temps b.routine.addrs s₁ →
      Follows (g.step world) fuel s₁ (f (s₁.temps t) s₁.outside) post) :
    Follows (g.step world) fuel s
      ((expr.eval world scope locals >>= fun value => liftM (wanted value) >>= f) s.outside)
      post := by
  refine (h fuel s locals hpc hagrees).bind ?_
  intro value outside s₁ h₁
  have hvalue : wanted value = .ok (s₁.temps t) := by
    rw [show value = chain.value.map s₁.temps from h₁.value, ht]
    rfl
  refine .lift hvalue ?_
  obtain rfl : s₁.outside = outside := h₁.outside
  exact hf s₁ h₁.pc h₁.keeps

/-- An array element: the index is computed, then its address, then the word there is loaded. -/
theorem index {base : Ident} {position : Expr} {symbol : Symbol} {chain : Chain} {offset : Temp}
    (h : b₁.Within g → Computes world scope g b b₁ chain position)
    (hpart : b.Evaluates chain.entry chain.exit chain.value b₁)
    (hoffset : chain.value = some offset) (hsymbol : base.resolved = .ok symbol)
    (hw : ((((b₁.takeAddr.push (.addressAt b₁.nextAddr symbol (some offset))).takeTemp.push
      (.load b₁.nextTemp b₁.nextAddr)).link chain.exit b₁.size .next).link
        b₁.size (b₁.size + 1) .next).Within g) :
    Computes world scope g b
      ((((b₁.takeAddr.push (.addressAt b₁.nextAddr symbol (some offset))).takeTemp.push
        (.load b₁.nextTemp b₁.nextAddr)).link chain.exit b₁.size .next).link
          b₁.size (b₁.size + 1) .next)
      ⟨chain.entry, b₁.size + 1, some b₁.nextTemp⟩ (.index info base position) := by
  intro fuel s locals hpc hagrees
  obtain ⟨hnext, haddress, hlast, hload, hw⟩ :=
    Builder.Within.unappendBoth (b := b₁.takeAddr.takeTemp) hpart.exit_open hw
  rw [Expr.eval]
  refine .lift (Ident.meaning_eq hsymbol) ?_
  refine (h hw.of_takeTemp.of_takeAddr).value hoffset hpc hagrees ?_
  intro s₁ hpc₁ hkeeps
  rw [Eval.load_bind]
  refine ⟨_, (Leads.single (Builder.step_load hload hlast)).head
    (Builder.step_addressAt haddress (hpc₁.trans hnext)), rfl, by simp, by simp, ?_⟩
  have hkeeps := hkeeps.widen (Nat.le_refl _) (Nat.le_succ b₁.routine.temps) (Nat.le_refl _)
  exact (((hkeeps.setAddr hpart.grows.addrs_le _).goto _).setOutside _ |>.setTemp
    hpart.grows.temps_le (Nat.lt_succ_self _) _).goto _

/-- Negation looks at its left operand only. -/
theorem negate {operand : Expr} {chain : Chain} {t : Temp}
    (h : b₁.Within g → Computes world scope g b b₁ chain operand)
    (hpart : b.Evaluates chain.entry chain.exit chain.value b₁) (ht : chain.value = some t)
    (hw : ((b₁.takeTemp.push (.not b₁.nextTemp t)).link chain.exit b₁.size .next).Within g)
    {fuel : Nat} {s : State} {locals : SymbolId → Word} (hpc : s.pc = some chain.entry)
    (hagrees : g.Agrees s.temps locals) :
    Follows (g.step world) fuel s
      ((do return some (flip (← wanted (← operand.eval world scope locals))) :
        Eval (Option Word)) s.outside)
      (Evaluated g b ((b₁.takeTemp.push (.not b₁.nextTemp t)).link chain.exit b₁.size .next)
        ⟨chain.entry, b₁.size, some b₁.nextTemp⟩ s) := by
  have hopen : b₁.takeTemp.Open chain.exit := hpart.exit_open
  obtain ⟨hnext, hnot, hw⟩ := hw.unappend hopen
  refine (h hw.of_takeTemp).value ht hpc hagrees ?_
  intro s₁ hpc₁ hkeeps
  refine ⟨_, .single (Builder.step_not hnot (hpc₁.trans hnext)), rfl, rfl, by simp, ?_⟩
  have hkeeps := hkeeps.widen (Nat.le_refl _) (Nat.le_succ b₁.routine.temps) (Nat.le_refl _)
  exact (hkeeps.setTemp hpart.grows.temps_le (Nat.lt_succ_self _) _).goto _

/-- Two operands one after the other, and then an operation: when it is reached, the values of both
are in their registers. The first one has stayed there, because the second took its own registers
after it. -/
theorem operands {α : Type} {left right : Expr} {l r : Chain} {lt rt : Temp} {kind : InstKind}
    (h₁ : b₁.Within g → Computes world scope g b b₁ l left)
    (h₂ : b₂.Within g → Computes world scope g b₁ b₂ r right)
    (hl : b.Evaluates l.entry l.exit l.value b₁) (hr : b₁.Evaluates r.entry r.exit r.value b₂)
    (hlt : l.value = some lt) (hrt : r.value = some rt) (hb : b.Settled)
    (hw : (((b₂.takeTemp.push kind).link l.exit r.entry .next).link
      r.exit b₂.size .next).Within g)
    {fuel : Nat} {s : State} {locals : SymbolId → Word} (hpc : s.pc = some l.entry)
    (hagrees : g.Agrees s.temps locals) {f : Word → Word → Eval α}
    {post : α × Outside → State → Prop}
    (hf : ∀ s₁ : State, s₁.pc = some b₂.size → g.Has b₂.size kind →
      s.Keeps b.routine.temps (b₂.routine.temps + 1) b.routine.addrs s₁ →
      Follows (g.step world) fuel s₁ (f (s₁.temps lt) (s₁.temps rt) s₁.outside) post) :
    Follows (g.step world) fuel s
      ((do
        let left ← wanted (← left.eval world scope locals)
        let right ← wanted (← right.eval world scope locals)
        f left right : Eval α) s.outside) post := by
  obtain ⟨hnext, hlast, hhas, hw₂⟩ := (Builder.Within.of_takeTemp
    (b := ((b₂.push kind).link l.exit r.entry .next).link r.exit b₂.size .next) hw).uncombine
      hl.toSpans hr.toSpans
  have hw₁ := hw₂.of_grows hr.grows
  refine (h₁ hw₁).value hlt hpc hagrees ?_
  intro s₁ hpc₁ hkeeps₁
  have hagrees₁ := hagrees.keeps hkeeps₁ hb hw₁ hl.locals_eq
  refine (h₂ hw₂).value hrt (hpc₁.trans hnext) hagrees₁ ?_
  intro s₂ hpc₂ hkeeps₂
  -- the right operand has not touched the value of the left one
  rw [hlt] at hl
  have hleft : s₂.temps lt = s₁.temps lt := hkeeps₂.temps lt (.inl (hl.value_lt hb))
  rw [← hleft]
  have htemps := hr.grows.temps_le
  exact hf s₂ (hpc₂.trans hlast) hhas ((hkeeps₁.widen (Nat.le_refl _) (by omega)
    (Nat.le_refl _)).trans (hkeeps₂.widen hl.grows.temps_le (by omega) hl.grows.addrs_le))

/-- Where the jump of a connective leads: along the first of its edges when the left operand
decides. This is all there is to the difference between the two connectives. -/
theorem connective_target (op : Connective) (word : Word) (jump : Nat) :
    (if word = 0 then g.target? jump .next else g.target? jump .onTrue) =
      if op.decides word then g.target? jump (Lower.connectiveEdges op).1
      else g.target? jump (Lower.connectiveEdges op).2 := by
  cases op <;> by_cases hword : word = 0 <;>
    simp [Connective.decides, Lower.connectiveEdges, hword]

/-- What the graph of a connective looks like: `mid` is the builder from which the right operand
starts. The five links are taken off one after the other, and each of them is the first of its kind
at its source. -/
theorem unconnect {mid : Builder} {l r : Chain} {lt rt : Temp} {edge edge' : Edge}
    (hmid : mid = ((b₁.push (.jump lt)).link l.exit b₁.size .next).takeTemp.push
      (.copy b₁.nextTemp (.temp lt)))
    (hl : b₁.Open l.exit) (hr : mid.Evaluates r.entry r.exit r.value b₂) (hedge : edge' ≠ edge)
    (hw : (((((((b₂.push (.copy b₁.nextTemp (.temp rt))).push .nop).link
      b₁.size (b₁.size + 1) edge).link b₁.size r.entry edge').link
      (b₁.size + 1) (b₂.size + 1) .next).link r.exit b₂.size .next).link
      b₂.size (b₂.size + 1) .next).Within g) :
    (b₁.Within g ∧ g.target? l.exit .next = some b₁.size ∧ g.Has b₁.size (.jump lt)) ∧
      (g.target? b₁.size edge = some (b₁.size + 1) ∧
        g.Has (b₁.size + 1) (.copy b₁.nextTemp (.temp lt)) ∧
        g.target? (b₁.size + 1) .next = some (b₂.size + 1)) ∧
      (b₂.Within g ∧ g.target? b₁.size edge' = some r.entry ∧
        g.target? r.exit .next = some b₂.size ∧ g.Has b₂.size (.copy b₁.nextTemp (.temp rt)) ∧
        g.target? b₂.size .next = some (b₂.size + 1)) ∧
      g.Has (b₂.size + 1) .nop := by
  have hexit := hl.lt_size
  have hsize : mid.size = b₁.size + 2 := by simp [hmid]
  have hsize' := hr.grows.size_le
  have hexit' := hr.exit_ge
  have hexit'' := hr.exit_lt
  have hjump : ∀ edge, mid.Unset b₁.size edge := fun edge => hmid ▸
    ((Builder.Unset.of_size_le (Nat.le_refl _)).push _ |>.link (.inl (by omega))).takeTemp.push _
  have hkeep : mid.Unset (b₁.size + 1) .next := hmid ▸
    ((Builder.Unset.of_size_le (Nat.le_succ _)).push _ |>.link (.inl (by omega))).takeTemp.push _
  have hjump' : ∀ edge, ((b₂.push (.copy b₁.nextTemp (.temp rt))).push .nop).Unset b₁.size edge :=
    fun edge => (((hjump edge).grows (by omega) hr.grows).push _).push _
  have hkeep' : ((b₂.push (.copy b₁.nextTemp (.temp rt))).push .nop).Unset (b₁.size + 1) .next :=
    ((hkeep.grows (by omega) hr.grows).push _).push _
  have hexit₂ : ((b₂.push (.copy b₁.nextTemp (.temp rt))).push .nop).Unset r.exit .next :=
    ((hr.exit_open.unset .next).push _).push _
  have htake : ((b₂.push (.copy b₁.nextTemp (.temp rt))).push .nop).Unset b₂.size .next :=
    ((Builder.Unset.of_size_le (Nat.le_refl _)).push _).push _
  -- back over the links, the last one first
  obtain ⟨hjoin₂, hw⟩ := hw.unlink
    (by simp only [Builder.size_link, Builder.size_push]; omega)
    ((((htake.link (.inl (by omega))).link (.inl (by omega))).link (.inl (by omega))).link
      (.inl (by omega)))
  obtain ⟨htaken, hw⟩ := hw.unlink (by simp; omega)
    (((hexit₂.link (.inl (by omega))).link (.inl (by omega))).link (.inl (by omega)))
  obtain ⟨hjoin₁, hw⟩ := hw.unlink (by simp; omega)
    ((hkeep'.link (.inl (by omega))).link (.inl (by omega)))
  obtain ⟨hundecided, hw⟩ := hw.unlink (by simp; omega) ((hjump' _).link (.inr hedge))
  obtain ⟨hdecided, hw⟩ := hw.unlink (by simp; omega) (hjump' _)
  have hnop : g.Has (b₂.size + 1) .nop := by simpa using hw.has
  have hw₂ := hw.of_push.of_push
  have hwmid := hw₂.of_grows hr.grows
  rw [hmid] at hwmid
  have hcopy : g.Has (b₁.size + 1) (.copy b₁.nextTemp (.temp lt)) := by simpa using hwmid.has
  obtain ⟨hnext, hbranch, hw₁⟩ := hwmid.of_push.of_takeTemp.unappend hl
  exact ⟨⟨hw₁, hnext, hbranch⟩, ⟨hdecided, hcopy, hjoin₁⟩,
    ⟨hw₂, hundecided, htaken, hw.of_push.has, hjoin₂⟩, hnop⟩

/-- A connective. If the left operand decides, its value is the result and the right one is not
looked at; if not, the result is the value of the right one. Either way it has been copied to the
one register by the time the sides meet. -/
theorem connect {op : Connective} {left right : Expr} {l r : Chain} {lt rt : Temp}
    {mid b' : Builder}
    (hmid : mid = ((b₁.push (.jump lt)).link l.exit b₁.size .next).takeTemp.push
      (.copy b₁.nextTemp (.temp lt)))
    (h₁ : b₁.Within g → Computes world scope g b b₁ l left)
    (h₂ : b₂.Within g → Computes world scope g mid b₂ r right)
    (hl : b.Evaluates l.entry l.exit l.value b₁) (hr : mid.Evaluates r.entry r.exit r.value b₂)
    (hlt : l.value = some lt) (hrt : r.value = some rt) (hb : b.Settled)
    (hb' : b' = (((((((b₂.push (.copy b₁.nextTemp (.temp rt))).push .nop).link
      b₁.size (b₁.size + 1) (Lower.connectiveEdges op).1).link
      b₁.size r.entry (Lower.connectiveEdges op).2).link
      (b₁.size + 1) (b₂.size + 1) .next).link r.exit b₂.size .next).link
      b₂.size (b₂.size + 1) .next)) (hw : b'.Within g) :
    Computes world scope g b b' ⟨l.entry, b₂.size + 1, some b₁.nextTemp⟩
      (.binary info (.connect op) left right) := by
  intro fuel s locals hpc hagrees
  have htemps' : b'.routine.temps = b₂.routine.temps := by simp [hb']
  have hedges : (Lower.connectiveEdges op).2 ≠ (Lower.connectiveEdges op).1 := by
    cases op <;> decide
  rw [hb'] at hw
  obtain ⟨⟨hw₁, hnext, hjump⟩, ⟨hdecided, hcopy₁, hjoin₁⟩,
    ⟨hw₂, hundecided, htaken, hcopy₂, hjoin₂⟩, hnop⟩ := unconnect hmid hl.exit_open hr hedges hw
  have htemps : mid.routine.temps = b₁.routine.temps + 1 := by simp [hmid]
  have haddrs : mid.routine.addrs = b₁.routine.addrs := by rw [hmid]; rfl
  clear hmid hb' hw
  have hle := hl.grows.temps_le
  have hlt₁ : b₁.routine.temps < b'.routine.temps := by
    have := hr.grows.temps_le
    omega
  rw [Expr.eval_connect]
  refine (h₁ hw₁).value hlt hpc hagrees ?_
  intro s₁ hpc₁ hkeeps₁
  have hagrees₁ := hagrees.keeps hkeeps₁ hb hw₁ hl.locals_eq
  have hkeeps₁ := hkeeps₁.widen (Nat.le_refl _) (Nat.le_of_lt hlt₁) (Nat.le_refl _)
  have hfork : g.step world s₁ = .next (s₁.goto
      (if op.decides (s₁.temps lt) then g.target? b₁.size (Lower.connectiveEdges op).1
        else g.target? b₁.size (Lower.connectiveEdges op).2)) := by
    rw [Builder.step_jump hjump (hpc₁.trans hnext), connective_target op]
  -- either the left operand decides and the right one is skipped, or the result is the right one's
  by_cases hdecides : op.decides (s₁.temps lt) = true
  · rw [if_pos hdecides] at hfork ⊢
    refine ⟨_, (((Leads.single (Builder.step_nop hnop hjoin₁)).head
      (Builder.step_copy_temp hcopy₁ hdecided)).head hfork), rfl, rfl, by simp, ?_⟩
    exact (((hkeeps₁.goto _).setTemp hle hlt₁ _).goto _).goto _
  · rw [if_neg hdecides] at hfork ⊢
    refine .after (.single hfork) ?_
    refine (h₂ hw₂).value hrt hundecided hagrees₁ ?_
    intro s₂ hpc₂ hkeeps₂
    have hkeeps := (hkeeps₁.goto _).trans (hkeeps₂.widen (by omega) (Nat.le_of_eq htemps'.symm)
      (haddrs ▸ hl.grows.addrs_le))
    refine ⟨_, (Leads.single (Builder.step_nop hnop hjoin₂)).head
      (Builder.step_copy_temp hcopy₂ (hpc₂.trans htaken)), rfl, rfl, by simp, ?_⟩
    exact ((hkeeps.setTemp hle hlt₁ _).goto _).goto _

end Computes

/-! ## Calls

Arguments are evaluated one after the other, each into a register of its own, and the call reads all
of them at the end. -/

/-- Arguments were evaluated, and are in their registers. -/
structure Passed (g b b' : Builder) (last : InstId) (temps : List Temp) (s : State)
    (result : List Word × Outside) (s' : State) : Prop where
  pc : s'.pc = g.target? last .next
  outside : s'.outside = result.2
  values : result.1 = temps.map s'.temps
  keeps : s.Keeps b.routine.temps b'.routine.temps b.routine.addrs s'

/-- From where `exit` leads, the graph evaluates arguments, up to where `last` leads. -/
def Prepares (world : World) (scope : List SymbolId) (g b b' : Builder) (exit last : InstId)
    (temps : List Temp) (args : List Expr) : Prop :=
  ∀ (fuel : Nat) (s : State) (locals : SymbolId → Word), s.pc = g.target? exit .next →
    g.Agrees s.temps locals →
    Follows (g.step world) fuel s (Expr.evalAll world scope locals args s.outside)
      (Passed g b b' last temps s)

section

variable {world : World} {scope known : List SymbolId} {g b b' b₁ b₂ : Builder} {info : Info}
  {symbol : Symbol}

/-- No arguments. -/
theorem Prepares.nil {exit : InstId} : Prepares world scope g b b exit exit [] [] := by
  intro fuel s locals hpc hagrees
  rw [Expr.evalAll]
  exact ⟨s, .refl s, hpc, rfl, rfl, .refl s⟩

/-- The first argument, and then the others. They take registers above that of the first. -/
theorem Prepares.cons {arg : Expr} {rest : List Expr} {first : Chain} {exit last : Nat} {t : Temp}
    {temps : List Temp} (h : Computes world scope g b b₁ first arg) (ht : first.value = some t)
    (hpart : b.Evaluates first.entry first.exit first.value b₁) (hb : b.Settled)
    (hrest : Prepares world scope g (b₁.link exit first.entry .next) b' first.exit last temps rest)
    (hw : b₁.Within g) (hnext : g.target? exit .next = some first.entry)
    (htemps : b₁.routine.temps ≤ b'.routine.temps) :
    Prepares world scope g b b' exit last (t :: temps) (arg :: rest) := by
  intro fuel s locals hpc hagrees
  rw [Expr.evalAll]
  refine h.value ht (hpc.trans hnext) hagrees ?_
  intro s₁ hpc₁ hkeeps₁
  have hagrees₁ := hagrees.keeps hkeeps₁ hb hw hpart.locals_eq
  refine (hrest fuel s₁ locals hpc₁ hagrees₁).bind ?_
  intro values outside s₂ h₂
  refine .here ⟨h₂.pc, h₂.outside, ?_, ?_⟩
  · rw [ht] at hpart
    have hkept : s₂.temps t = s₁.temps t := h₂.keeps.temps t (.inl (hpart.value_lt hb))
    rw [List.map_cons, hkept]
    exact congrArg _ h₂.values
  · exact (hkeeps₁.widen (Nat.le_refl _) htemps (Nat.le_refl _)).trans
      (h₂.keeps.widen hpart.grows.temps_le (Nat.le_refl _) hpart.grows.addrs_le)

/-- What a call of a function gives, in the register for its result if there is one. -/
theorem Symbol.returned_eq {params : List Ty} {ret : Ty} (hty : symbol.ty = some (.func params ret))
    (s : State) (result : Word) :
    symbol.returned result =
      .ok ((b.result (!ret.isVoid)).map (s.setResult (b.result (!ret.isVoid)) result).temps) := by
  rw [Symbol.returned, hty]
  rcases hvoid : ret.isVoid with _ | _ <;> simp [Builder.result, State.setResult, hvoid]

/-- The result of a call goes to a register that was taken for it. -/
theorem Graph.State.Keeps.setResult {s s' : State} {low addrs : Nat} {hasValue : Bool}
    (h : s.Keeps low b.routine.temps addrs s') (hlow : low ≤ b.routine.temps) (value : Word) :
    s.Keeps low (b.takeResult hasValue).routine.temps addrs
      (s'.setResult (b.result hasValue) value) := by
  cases hasValue
  · exact h
  · exact (h.widen (Nat.le_refl _) (Nat.le_succ _) (Nat.le_refl _)).setTemp hlow
      (Nat.lt_succ_self _) _

/-- A call does what the source does: with the values of its arguments, it gives what the world
says. -/
theorem Computes.call {callee : Ident} {args : List Expr} {params : List Ty} {ret : Ty}
    {last : Nat} {temps : List Temp}
    (h : b₁.Within g →
      (b.push .nop).Within g ∧ Prepares world scope g (b.push .nop) b₁ b.size last temps args)
    (hpart : b.Passes b.size last temps (b.push .nop) b₁) (hsymbol : callee.resolved = .ok symbol)
    (hty : symbol.ty = some (.func params ret))
    (hw : (((b₁.takeResult (!ret.isVoid)).push
      (.call (b₁.result (!ret.isVoid)) symbol temps)).link last b₁.size .next).Within g) :
    Computes world scope g b
      (((b₁.takeResult (!ret.isVoid)).push
        (.call (b₁.result (!ret.isVoid)) symbol temps)).link last b₁.size .next)
      ⟨b.size, b₁.size, b₁.result (!ret.isVoid)⟩ (.call info callee args) := by
  intro fuel s locals hpc hagrees
  have htake := (Builder.Grows.refl b₁).takeResult (!ret.isVoid)
  obtain ⟨hnext, hcall, hw⟩ := Builder.Within.unappend
    (by rwa [Builder.size_takeResult]) (hpart.exit_open.grows htake)
  rw [Builder.size_takeResult] at hnext hcall
  obtain ⟨hnop, hargs⟩ := h (hw.of_grows htake)
  rw [Expr.eval]
  refine .lift (Ident.meaning_eq hsymbol) ?_
  refine .after (.single (Builder.step_nop hnop.has hpc)) ?_
  refine (hargs fuel (s.goto (g.target? b.size .next)) locals rfl hagrees).bind ?_
  intro values outside s₁ h₁
  obtain rfl : s₁.outside = outside := h₁.outside
  obtain rfl : values = temps.map s₁.temps := h₁.values
  rw [Eval.call_bind, Symbol.returned_eq hty _ _]
  refine ⟨_, .single (Builder.step_call hcall (h₁.pc.trans hnext)), rfl, ?_, rfl, ?_⟩
  · simp
  · exact (((State.Keeps.refl s).goto _).trans h₁.keeps |>.setOutside _ |>.setResult
      hpart.temps_le _).goto _

end

/-! ## Every expression

The recursion. An expression has to be in scope, so that a name that has no register is known to be
global; its chain has to be in the finished graph. -/

section

variable {world : World} {scope known : List SymbolId} {g : Builder} {ok : Ty → Bool} {floor : Nat}

mutual

/-- The chain of an expression evaluates it. -/
theorem Expr.computes (hg : g.Hosts floor scope) : ∀ (expr : Expr) {b b' : Builder} {chain : Chain},
    b.Settled → b.Knows known → expr.Scoped ok floor known → expr.lower b = .ok (chain, b') →
    b'.Within g → Computes world scope g b b' chain expr
  | .int info value, b, b', chain, _, _, _, h, hw => by
    rw [Expr.lower] at h
    intro fuel s locals hpc _
    rw [Expr.eval]
    exact Lower.follows_literal h hw hpc
  | .bool info value, b, b', chain, _, _, _, h, hw => by
    rw [Expr.lower] at h
    intro fuel s locals hpc _
    rw [Expr.eval]
    exact Lower.follows_literal h hw hpc
  | .var info ident, b, b', chain, _, hknown, huses, h, hw => by
    rw [Expr.lower] at h
    exact Lower.computes_varValue h huses hknown hw hg
  | .index info base position, b, b', chain, hb, hknown, hscoped, h, hw => by
    obtain ⟨symbol, hsymbol, index, b₁, hposition, offset, hoffset, rfl, rfl⟩ :=
      Expr.lower_index_eq_ok.mp h
    exact .index (Expr.computes hg position hb hknown hscoped.2 hposition)
      (position.evaluates_of_lower hb hposition) hoffset hsymbol hw
  | .unary info op operand, b, b', chain, hb, hknown, hscoped, h, hw => by
    obtain ⟨left, b₁, hoperand, value, hvalue, rfl, rfl, rfl⟩ := Expr.lower_unary_eq_ok.mp h
    intro fuel s locals hpc hagrees
    rw [Expr.eval_unary_negate]
    exact Computes.negate (Expr.computes hg operand hb hknown hscoped hoperand)
      (operand.evaluates_of_lower hb hoperand) hvalue hw hpc hagrees
  | .binary info .negate left right, b, b', chain, hb, hknown, hscoped, h, hw => by
    obtain ⟨l, b₁, hl, value, hvalue, rfl, rfl⟩ := Expr.lower_negate_eq_ok.mp h
    intro fuel s locals hpc hagrees
    rw [Expr.eval_negate]
    exact Computes.negate (Expr.computes hg left hb hknown hscoped.1 hl)
      (left.evaluates_of_lower hb hl) hvalue hw hpc hagrees
  | .binary info (.arith op) left right, b, b', chain, hb, hknown, hscoped, h, hw => by
    obtain ⟨l, b₁, hl, lt, hlt, r, b₂, hr, rt, hrt, rfl, rfl⟩ := Expr.lower_arith_eq_ok.mp h
    have hleft := left.evaluates_of_lower hb hl
    have hb₁ := hb.grows hleft.grows
    have hright := right.evaluates_of_lower hb₁ hr
    have hle := Nat.le_trans hleft.grows.temps_le hright.grows.temps_le
    intro fuel s locals hpc hagrees
    rw [Expr.eval_arith]
    refine Computes.operands (Expr.computes hg left hb hknown hscoped.1 hl)
      (Expr.computes hg right hb₁ (hknown.of_locals_eq hleft.locals_eq) hscoped.2 hr)
      hleft hright hlt hrt hb hw hpc hagrees ?_
    intro s₁ hpc₁ hhas hkeeps
    -- a division that traps does so in both
    rcases happly : op.apply (s₁.temps lt) (s₁.temps rt) with _ | value
    · have hstep : g.step world s₁ = .fault := by rw [Builder.step_arith hhas hpc₁, happly]
      exact Leads.single hstep
    · have hstep : g.step world s₁ =
          .next ((s₁.setTemp b₂.nextTemp value).goto (g.target? b₂.size .next)) := by
        rw [Builder.step_arith hhas hpc₁, happly]
      exact ⟨_, .single hstep, rfl, rfl, by simp,
        (hkeeps.setTemp hle (Nat.lt_succ_self _) _).goto _⟩
  | .binary info (.compare op) left right, b, b', chain, hb, hknown, hscoped, h, hw => by
    obtain ⟨l, b₁, hl, lt, hlt, r, b₂, hr, rt, hrt, rfl, rfl⟩ := Expr.lower_compare_eq_ok.mp h
    have hleft := left.evaluates_of_lower hb hl
    have hb₁ := hb.grows hleft.grows
    have hright := right.evaluates_of_lower hb₁ hr
    have hle := Nat.le_trans hleft.grows.temps_le hright.grows.temps_le
    intro fuel s locals hpc hagrees
    rw [Expr.eval_compare]
    refine Computes.operands (Expr.computes hg left hb hknown hscoped.1 hl)
      (Expr.computes hg right hb₁ (hknown.of_locals_eq hleft.locals_eq) hscoped.2 hr)
      hleft hright hlt hrt hb hw hpc hagrees ?_
    intro s₁ hpc₁ hhas hkeeps
    exact ⟨_, .single (Builder.step_compare hhas hpc₁), rfl, rfl, by simp,
      (hkeeps.setTemp hle (Nat.lt_succ_self _) _).goto _⟩
  | .binary info (.connect op) left right, b, b', chain, hb, hknown, hscoped, h, hw => by
    obtain ⟨l, b₁, hl, lt, hlt, r, b₂, hr, rt, hrt, hb', rfl⟩ := Expr.lower_connect_eq_ok.mp h
    have hleft := left.evaluates_of_lower hb hl
    have hmid : (((b₁.push (.jump lt)).link l.exit b₁.size .next).takeTemp.push
        (.copy b₁.nextTemp (.temp lt))).Settled :=
      (hb.grows hleft.grows).of_locals_eq (by simp) (by simp)
    exact .connect rfl (Expr.computes hg left hb hknown hscoped.1 hl)
      (Expr.computes hg right hmid (hknown.of_locals_eq (by simp [hleft.locals_eq])) hscoped.2 hr)
      hleft (right.evaluates_of_lower hmid hr) hlt hrt hb hb' hw
  | .call info callee args, b, b', chain, hb, hknown, hscoped, h, hw => by
    obtain ⟨symbol, hsymbol, params, ret, hty, temps, exit, b₁, hargs, rfl, rfl⟩ :=
      Expr.lower_call_eq_ok.mp h
    have hnop : (b.push .nop).Settled := hb.of_locals_eq (by simp) (by simp)
    exact .call (Expr.prepares hg args hnop (hknown.of_locals_eq rfl) hscoped.2 (.nop rfl) hargs)
      (Expr.passes_of_lowerArgs args hnop (.nop rfl) hargs) hsymbol hty hw

/-- The chains of arguments evaluate them one after the other. -/
theorem Expr.prepares (hg : g.Hosts floor scope) : ∀ (args : List Expr) {b₀ b b' : Builder}
    {entry exit last : Nat} {temps : List Temp},
    b.Settled → b.Knows known → Expr.ScopedAll ok floor known args → b₀.Spans none entry exit b →
    Expr.lowerArgs exit args b = .ok ((temps, last), b') → b'.Within g →
    b.Within g ∧ Prepares world scope g b b' exit last temps args
  | [], b₀, b, b', entry, exit, last, temps, hb, hknown, hscoped, hspans, h, hw => by
    obtain ⟨rfl, rfl, rfl⟩ := Expr.lowerArgs_nil_eq_ok.mp h
    exact ⟨hw, .nil⟩
  | arg :: rest, b₀, b, b', entry, exit, last, temps, hb, hknown, hscoped, hspans, h, hw => by
    obtain ⟨first, b₁, hfirst, temp, htemp, others, hrest, rfl⟩ := Expr.lowerArgs_cons_eq_ok.mp h
    have harg := arg.evaluates_of_lower hb hfirst
    have hb₁ : (b₁.link exit first.entry .next).Settled :=
      (hb.grows harg.grows).of_locals_eq (by simp) (by simp)
    have hspans₁ := hspans.follow harg.toSpans
    obtain ⟨hw₁, hothers⟩ := Expr.prepares hg rest hb₁
      (hknown.of_locals_eq (by simp [harg.locals_eq])) hscoped.2 hspans₁ hrest hw
    have hexit := hspans.exit_open.grows harg.grows
    obtain ⟨hnext, hw₁⟩ := hw₁.unlink hexit.lt_size (hexit.unset .next)
    have hpasses := Expr.passes_of_lowerArgs rest hb₁ hspans₁ hrest
    exact ⟨hw₁.of_grows harg.grows, .cons (Expr.computes hg arg hb hknown hscoped.1 hfirst hw₁)
      htemp harg hb hothers hw₁ hnext hpasses.temps_le⟩

end

end

end WordLang
