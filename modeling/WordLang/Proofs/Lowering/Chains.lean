import WordLang.Proofs.Lowering.Growth

/-!
# Chains

What lowering a construct gives to whoever asked for it: the arena was added to in a regular way,
the chain is new from its entry to its exit, and the exit is still open (`Builder.Spans`). An
expression, moreover, declares nothing, and its value is in the register of a local or in one that
was taken on the way (`Builder.Evaluates`).

The proofs follow the recursion of lowering; each case is the chain of rules for the operations on
builders that its construct performs.

These rules are stated for builders and not for trees. A construct makes its builder out of those of
its parts by a few pushes and links, which are the same wherever the parts come from: there is one
rule for an operation on two values, one for a connective, one for a conditional, and so on. The
recursion on the tree (`Expr.evaluates_of_lower`, `Stmt.spans_of_lower`) then only has to match each
construct with its rule.

Two things make the rules longer than one would expect. A jump is in the arena before its sides are,
so there is a builder `mid` with the jump pending, from which the first side starts. And the exit of
a loop is in the arena before its body, because a break has to have somewhere to go.
-/

namespace WordLang

/-- The locals have registers of the routine. The registers of locals are used long after they were
taken, so that they exist has to be carried along. -/
def Builder.Settled (b : Builder) : Prop :=
  ∀ entry ∈ b.locals, entry.2.index < b.routine.temps

namespace Builder

variable {b b' : Builder}

/-- The registers of a routine are those with a number below the next one. -/
theorem owns_temp_iff {t : Temp} : b.routine.owns (.temp t) = true ↔ t.index < b.routine.temps :=
  decide_eq_true_iff

/-- A register that was taken is one of them. -/
theorem owns_takeTemp : b.takeTemp.routine.owns (.temp b.nextTemp) = true :=
  owns_temp_iff.mpr (Nat.lt_succ_self _)

/-- So is a register for an address. -/
theorem owns_takeAddr : b.takeAddr.routine.owns (.addr b.nextAddr) = true :=
  decide_eq_true (Nat.lt_succ_self _)

/-- Growth adds locals only with registers of the routine. -/
theorem Settled.grows (h : b.Settled) (hb : b.Grows b') : b'.Settled := by
  obtain ⟨newer, he, hn⟩ := hb.locals
  intro entry hentry
  rw [he] at hentry
  rcases List.mem_append.mp hentry with hmem | hmem
  · exact (hn entry hmem).2
  · exact Nat.lt_of_lt_of_le (h entry hmem) hb.temps_le

/-- The locals stay as they are while registers are added. -/
theorem Settled.of_locals_eq (h : b.Settled) (heq : b'.locals = b.locals)
    (hle : b.routine.temps ≤ b'.routine.temps) : b'.Settled := by
  intro entry hentry
  exact Nat.lt_of_lt_of_le (h entry (heq ▸ hentry)) hle

/-- A local that is found has a register of the routine. -/
theorem Settled.lookup_lt (h : b.Settled) {id : SymbolId} {t : Temp}
    (ht : b.locals.lookup id = some t) : t.index < b.routine.temps := by
  obtain ⟨before, after, heq, -⟩ := List.lookup_eq_some_iff.mp ht
  refine h (id, t) ?_
  rw [heq]
  exact List.mem_append_right _ List.mem_cons_self

end Builder

namespace Builder

/-- From `b` to `b'` the graph grew in a regular way, by a part that is entered at `entry` and left
at `exit`. Both are new. The exit has no edge yet, so whoever asked for the part may link it, once;
all edges that were set stay inside the part or lead to `out`. -/
structure Spans (b : Builder) (out : Option InstId) (entry exit : Nat) (b' : Builder) : Prop where
  builds : b.Builds out [] b'
  entry_ge : b.size ≤ entry
  entry_lt : entry < b'.size
  exit_ge : b.size ≤ exit
  exit_open : b'.Open exit

/-- The part is that of an expression, whose value it leaves in `value`. There is no way out of it
but its exit, and a register that holds the value either belongs to a local or is new. -/
structure Evaluates (b : Builder) (entry exit : Nat) (value : Option Temp) (b' : Builder) : Prop
    extends b.Spans none entry exit b' where
  locals_eq : b'.locals = b.locals
  value_cases : ∀ t, value = some t →
    (∃ id, b.locals.lookup id = some t) ∨ b.routine.temps ≤ t.index ∧ t.index < b'.routine.temps

variable {b b' : Builder} {out : Option InstId} {entry exit : Nat} {value : Option Temp}

/-- A part only adds. -/
theorem Spans.grows (h : b.Spans out entry exit b') : b.Grows b' :=
  h.builds.grows

/-- The exit of a part is in the arena. -/
theorem Spans.exit_lt (h : b.Spans out entry exit b') : exit < b'.size :=
  h.exit_open.lt_size

/-- A register that is taken afterwards changes nothing about a part. -/
theorem Spans.takeAddr (h : b.Spans out entry exit b') : b.Spans out entry exit b'.takeAddr :=
  ⟨h.builds.takeAddr, h.entry_ge, h.entry_lt, h.exit_ge, h.exit_open⟩

/-- One part after another. The exit of the first is linked to the entry of the second, and the exit
of the whole is that of the second, still open. -/
theorem Spans.follow {b₁ : Builder} {entry' exit' : Nat} (h : b.Spans out entry exit b₁)
    (h' : b₁.Spans out entry' exit' b') :
    b.Spans out entry exit' (b'.link exit entry' .next) := by
  have hsize := h.grows.size_le
  have hsize' := h'.grows.size_le
  have hentry := h.entry_lt
  have hexit := h.exit_lt
  have hentry' := h'.entry_ge
  have hexit' := h'.exit_ge
  have hbuilds := (h.builds.andThen' h'.builds).link entry' (h.exit_open.grows h'.grows) h.exit_ge
    (.inl ⟨by omega, h'.entry_lt⟩)
  exact ⟨hbuilds, h.entry_ge, by simp; omega, by omega, h'.exit_open.link (by omega)⟩

/-- A new instruction at the end of a part. It must not be a jump, which would need two edges, nor a
return, after which there is no going on; and a copy of a constant has a rule of its own, since the
constant has to be in the pool. -/
theorem Spans.append (h : b.Spans out entry exit b') (kind : InstKind)
    (hjump : kind.isJump = false) (hret : kind.isReturn = false)
    (howned : ∀ r ∈ kind.registers, b'.routine.owns r = true)
    (hconst : ∀ dst id, kind ≠ .copy dst (.const id)) :
    b.Spans out entry b'.size ((b'.push kind).link exit b'.size .next) := by
  have hentry := h.entry_lt
  have hbuilds := h.builds.append h.exit_open h.exit_ge kind hjump howned hconst
  exact ⟨hbuilds, h.entry_ge, by simp; omega, h.grows.size_le, h.exit_open.appended hjump hret⟩

/-- The register of a value exists, be it new or that of a local. -/
theorem Evaluates.value_lt {t : Temp} (h : b.Evaluates entry exit (some t) b') (hb : b.Settled) :
    t.index < b'.routine.temps := by
  rcases h.value_cases t rfl with ⟨id, hid⟩ | ⟨-, hlt⟩
  · exact Nat.lt_of_lt_of_le (hb.lookup_lt hid) h.grows.temps_le
  · exact hlt

/-- A value in a register that was taken on the way. -/
theorem Evaluates.of_fresh {t : Temp} (h : b.Spans none entry exit b')
    (hlocals : b'.locals = b.locals) (hge : b.routine.temps ≤ t.index)
    (hlt : t.index < b'.routine.temps) : b.Evaluates entry exit (some t) b' := by
  refine ⟨h, hlocals, fun t' ht' => .inr ?_⟩
  obtain rfl := Option.some.inj ht'
  exact ⟨hge, hlt⟩

end Builder

/-! ## Expressions

First the leaves, then the rules for putting parts together, then the recursion. Arguments of a call
are one long part: each of them makes the part from the first one on longer (`Passes`). -/

section Leaves

variable {b b' : Builder} {chain : Chain}

/-- A literal has its value in a register of its own. This is the only place where a constant gets
into the pool, and right away into an instruction. -/
theorem Lower.evaluates_literal {constant : Constant}
    (h : Lower.literal constant b = .ok (chain, b')) :
    b.Evaluates chain.entry chain.exit chain.value b' := by
  obtain ⟨rfl, rfl⟩ := Lower.literal_eq_ok.mp h
  have hpooled : (internConstant b.constants constant).1 <
      (internConstant b.constants constant).2.length :=
    (List.getElem?_eq_some_iff.mp (getElem?_internConstant b.constants constant)).1
  have hbuilds := ((Builder.Builds.refl b none).intern constant).takeTemp.pushLiteral
    Builder.owns_takeTemp hpooled
  refine .of_fresh ⟨hbuilds, Nat.le_refl _, by simp, Nat.le_refl _, ?_⟩ (by simp) (Nat.le_refl _)
    (by simp)
  exact .pushed rfl rfl rfl

/-- A name has its value in the register of its local, or in a new one that was loaded. In the first
case the chain is a single `nop`, because a chain has to have an entry. -/
theorem Lower.evaluates_varValue {ident : Ident} (h : Lower.varValue ident b = .ok (chain, b')) :
    b.Evaluates chain.entry chain.exit chain.value b' := by
  obtain ⟨symbol, -, ⟨temp, hlocal, rfl, rfl⟩ | ⟨-, rfl, rfl⟩⟩ := Lower.varValue_eq_ok.mp h
  · have hbuilds := (Builder.Builds.refl b none).pushNop
    refine ⟨⟨hbuilds, Nat.le_refl _, by simp, Nat.le_refl _, .pushed rfl rfl rfl⟩, rfl, ?_⟩
    intro t ht
    obtain rfl := Option.some.inj ht
    exact .inl ⟨symbol.id, hlocal⟩
  · have haddress := (Builder.Builds.refl b none).takeAddr.push (.addressAt b.nextAddr symbol none)
      rfl (List.forall_mem_singleton.mpr Builder.owns_takeAddr) nofun
    have hload := haddress.takeTemp.push (.load b.nextTemp b.nextAddr) rfl
      (List.forall_mem_cons.mpr ⟨Builder.owns_takeTemp,
        List.forall_mem_singleton.mpr Builder.owns_takeAddr⟩) nofun
    have hopen : (b.takeAddr.push (.addressAt b.nextAddr symbol none)).takeTemp.Open b.size :=
      .pushed rfl rfl rfl
    have hbuilds := hload.link (b.size + 1) (hopen.push _) (Nat.le_refl _) (.inl (by simp))
    refine .of_fresh ⟨hbuilds, Nat.le_refl _, ?_, Nat.le_succ _, ?_⟩ (by simp)
      (Nat.le_refl _) (by simp)
    · simp only [Builder.size_link, Builder.size_push, Builder.size_takeTemp, Builder.size_takeAddr]
      omega
    · exact (Builder.Open.pushed (by simp) rfl rfl).link (by simp)

end Leaves

namespace Builder.Evaluates

variable {b b₁ b₂ : Builder} {entry exit : Nat} {value : Temp}

/-- An array element: the index, the address, the load. The address is in a register for addresses,
which nobody else will use. -/
theorem index (h : b.Evaluates entry exit (some value) b₁) (hb : b.Settled) (symbol : Symbol) :
    b.Evaluates entry (b₁.size + 1) (some b₁.nextTemp)
      ((((b₁.takeAddr.push (.addressAt b₁.nextAddr symbol (some value))).takeTemp.push
        (.load b₁.nextTemp b₁.nextAddr)).link exit b₁.size .next).link
          b₁.size (b₁.size + 1) .next) := by
  have hsize := h.grows.size_le
  have hentry := h.entry_lt
  have hexit := h.exit_lt
  have hvalue := h.value_lt hb
  have haddress := h.builds.takeAddr.push (.addressAt b₁.nextAddr symbol (some value)) rfl
    (List.forall_mem_cons.mpr ⟨owns_takeAddr,
      List.forall_mem_singleton.mpr (owns_temp_iff.mpr hvalue)⟩) nofun
  have hload := haddress.takeTemp.push (.load b₁.nextTemp b₁.nextAddr) rfl
    (List.forall_mem_cons.mpr ⟨owns_takeTemp, List.forall_mem_singleton.mpr owns_takeAddr⟩) nofun
  have hopen₁ : b₁.takeAddr.Open exit := h.exit_open
  have hopen₂ : (b₁.takeAddr.push (.addressAt b₁.nextAddr symbol (some value))).takeTemp.Open
    b₁.size := .pushed rfl rfl rfl
  have hlinked := hload.link b₁.size ((hopen₁.push _).push (.load b₁.nextTemp b₁.nextAddr))
    h.exit_ge (.inl (by simp; omega))
  have hdone := hlinked.link (b₁.size + 1) ((hopen₂.push _).link (by omega)) hsize
    (.inl (by simp; omega))
  refine of_fresh ⟨hdone, h.entry_ge, by simp; omega, by omega, ?_⟩ (by simp [h.locals_eq])
    h.grows.temps_le (by simp)
  exact ((Open.pushed (by simp) rfl rfl).link (by omega)).link (by omega)

/-- A negation: the operand, and the other truth value. -/
theorem negate (h : b.Evaluates entry exit (some value) b₁) (hb : b.Settled) :
    b.Evaluates entry b₁.size (some b₁.nextTemp)
      ((b₁.takeTemp.push (.not b₁.nextTemp value)).link exit b₁.size .next) := by
  have hsize := h.grows.size_le
  have hentry := h.entry_lt
  have hvalue := h.value_lt hb
  have hopen : b₁.takeTemp.Open exit := h.exit_open
  have hbuilds := h.builds.takeTemp.append hopen h.exit_ge (.not b₁.nextTemp value) rfl
    (List.forall_mem_cons.mpr ⟨owns_takeTemp,
      List.forall_mem_singleton.mpr (owns_temp_iff.mpr (by simp; omega))⟩) nofun
  exact of_fresh ⟨hbuilds, h.entry_ge, by simp; omega, hsize, hopen.appended rfl rfl⟩
    (by simp [h.locals_eq]) h.grows.temps_le (by simp)

/-- Two operands, one after the other, and an operation on their values. It serves arithmetic and
comparisons; what they have in common is the registers that they name. -/
theorem combine {entry' exit' : Nat} {value' : Temp} (h₁ : b.Evaluates entry exit (some value) b₁)
    (h₂ : b₁.Evaluates entry' exit' (some value') b₂) (hb : b.Settled) (kind : InstKind)
    (hregisters : kind.registers = [.temp b₂.nextTemp, .temp value, .temp value'])
    (hjump : kind.isJump = false) (hret : kind.isReturn = false)
    (hconst : ∀ dst id, kind ≠ .copy dst (.const id)) :
    b.Evaluates entry b₂.size (some b₂.nextTemp)
      (((b₂.takeTemp.push kind).link exit entry' .next).link exit' b₂.size .next) := by
  have hsize₁ := h₁.grows.size_le
  have hsize₂ := h₂.grows.size_le
  have htemps := h₂.grows.temps_le
  have hvalue := h₁.value_lt hb
  have hvalue' := h₂.value_lt (hb.grows h₁.grows)
  have hentry := h₁.entry_lt
  have hexit := h₁.exit_lt
  have hentry' := h₂.entry_ge
  have hentry'' := h₂.entry_lt
  have hexit' := h₂.exit_ge
  have hexit'' := h₂.exit_lt
  have howned : ∀ r ∈ kind.registers, b₂.takeTemp.routine.owns r = true := by
    rw [hregisters, List.forall_mem_cons, List.forall_mem_cons, List.forall_mem_singleton]
    exact ⟨owns_takeTemp, owns_temp_iff.mpr (by simp; omega), owns_temp_iff.mpr (by simp; omega)⟩
  have hopen₁ : b₂.takeTemp.Open exit := (h₁.exit_open.grows h₂.grows).of_eq rfl
  have hopen₂ : b₂.takeTemp.Open exit' := h₂.exit_open
  have hnew : (b₂.takeTemp.push kind).Open b₂.size := .pushed rfl hjump hret
  have hbuilds := (h₁.builds.andThen h₂.builds).takeTemp.push kind hjump howned hconst
  have hlinked := hbuilds.link entry' (hopen₁.push kind) h₁.exit_ge (.inl (by simp; omega))
  have hdone := hlinked.link b₂.size ((hopen₂.push kind).link (by omega)) (by omega)
    (.inl (by simp; omega))
  refine of_fresh ⟨hdone, h₁.entry_ge, by simp; omega, by omega, ?_⟩
    (by simp [h₂.locals_eq, h₁.locals_eq]) (Nat.le_trans h₁.grows.temps_le htemps) (by simp)
  exact (hnew.link (by omega)).link (by omega)

/-- A connective. The jump is in the arena before its sides are, and waits for them: `mid` is the
builder after the left copy, from which the right operand starts.

Both sides copy their value to the same register and meet in a `nop`. Which edge of the jump leads
to which side is the only difference between the two connectives, so the rule is stated for any two
different edges. -/
theorem connect {mid : Builder} {entry' exit' : Nat} {value' : Temp} {edge edge' : Edge}
    (h₁ : b.Evaluates entry exit (some value) b₁)
    (hmid : mid = ((b₁.push (.jump value)).link exit b₁.size .next).takeTemp.push
      (.copy b₁.nextTemp (.temp value)))
    (h₂ : mid.Evaluates entry' exit' (some value') b₂) (hb : b.Settled) (hedge : edge ≠ edge') :
    b.Evaluates entry (b₂.size + 1) (some b₁.nextTemp)
      (((((((b₂.push (.copy b₁.nextTemp (.temp value'))).push .nop).link
        b₁.size (b₁.size + 1) edge).link b₁.size entry' edge').link
        (b₁.size + 1) (b₂.size + 1) .next).link exit' b₂.size .next).link
        b₂.size (b₂.size + 1) .next) := by
  have hsize₁ := h₁.grows.size_le
  have hexit := h₁.exit_lt
  have hvalue := h₁.value_lt hb
  have hmids : mid.size = b₁.size + 2 := by simp [hmid]
  have htemps : mid.routine.temps = b₁.routine.temps + 1 := by simp [hmid]
  have hlocals : mid.locals = b₁.locals := by simp [hmid]
  have hjump : mid.inst? b₁.size = some { kind := .jump value } := by
    rw [hmid, inst?_push_of_lt (by simp), inst?_takeTemp, inst?_link_of_ne (by omega),
      inst?_push_size]
  have hkeep : mid.Open (b₁.size + 1) := hmid ▸ .pushed (by simp) rfl rfl
  have hbuilds : b.Builds none [b₁.size] mid := by
    have hpushed := (h₁.builds.pushJump (owns_temp_iff.mpr hvalue)).link b₁.size
      (h₁.exit_open.push _) h₁.exit_ge (.inl (by simp; omega))
    rw [hmid]
    exact hpushed.takeTemp.push _ rfl (List.forall_mem_cons.mpr ⟨owns_takeTemp,
      List.forall_mem_singleton.mpr (owns_temp_iff.mpr (by simp; omega))⟩) nofun
  clear hmid
  have hsettled : mid.Settled := (hb.grows h₁.grows).of_locals_eq hlocals (by omega)
  have hsize₂ := h₂.grows.size_le
  have htemps₂ := h₂.grows.temps_le
  have hvalue' := h₂.value_lt hsettled
  have hentry := h₁.entry_lt
  have hentry' := h₂.entry_ge
  have hentry'' := h₂.entry_lt
  have hexit' := h₂.exit_ge
  have hexit'' := h₂.exit_lt
  -- the right operand, its copy, and the place where the sides meet
  have hsides := ((hbuilds.andThen h₂.builds).push (.copy b₁.nextTemp (.temp value')) rfl
    (List.forall_mem_cons.mpr ⟨owns_temp_iff.mpr (by simp; omega),
      List.forall_mem_singleton.mpr (owns_temp_iff.mpr hvalue')⟩) nofun).pushNop
  have hjump' : ((b₂.push (.copy b₁.nextTemp (.temp value'))).push .nop).inst? b₁.size =
      some { kind := .jump value } := by
    rw [inst?_push_of_lt (by simp; omega), inst?_push_of_lt (by omega), h₂.grows.keeps _ (by omega),
      hjump]
  have hforked := hsides.fork (b₁.size + 1) entry' hedge hsize₁ hjump' (by simp; omega)
    (by simp; omega)
  -- the left copy goes to the meeting place, the right operand to its copy, and that to the meeting
  -- place
  have hkept := hforked.link (b₂.size + 1)
    (((((hkeep.grows h₂.grows).push _).push _).link (by omega)).link (by omega)) (by omega)
    (.inl (by simp; omega))
  have htaken := hkept.link b₂.size
    (((((h₂.exit_open.push _).push _).link (by omega)).link (by omega)).link (by omega))
    (by omega) (.inl (by simp; omega))
  have hcopy : (b₂.push (.copy b₁.nextTemp (.temp value'))).Open b₂.size := .pushed rfl rfl rfl
  have hdone := htaken.link (b₂.size + 1)
    (((((hcopy.push _).link (by omega)).link (by omega)).link (by omega)).link (by omega))
    (by omega) (.inl (by simp; omega))
  have hjoin : ((b₂.push (.copy b₁.nextTemp (.temp value'))).push .nop).Open (b₂.size + 1) :=
    .pushed (by simp) rfl rfl
  refine of_fresh ⟨hdone, h₁.entry_ge, by simp; omega, by omega, ?_⟩
    (by simp [h₂.locals_eq, hlocals, h₁.locals_eq]) h₁.grows.temps_le (by simp; omega)
  exact ((((hjoin.link (by omega)).link (by omega)).link (by omega)).link (by omega)).link
    (by omega)

end Builder.Evaluates

namespace Builder

/-- The part from `b₀` on was made longer by the evaluation of arguments, from `b` to `b'`. Every
value has a register, and these stay valid whatever is evaluated after them. -/
structure Passes (b₀ : Builder) (entry last : Nat) (temps : List Temp) (b b' : Builder) : Prop
    extends b₀.Spans none entry last b' where
  temps_le : b.routine.temps ≤ b'.routine.temps
  locals_eq : b'.locals = b.locals
  values_lt : ∀ t ∈ temps, t.index < b'.routine.temps

/-- The call after its arguments. It takes a register for its result, if there is one. What was
there before the arguments is a single `nop`, the entry of the call. -/
theorem Passes.call {b b₁ mid : Builder} {entry last : Nat} {temps : List Temp} {hasValue : Bool}
    (h : b.Passes entry last temps mid b₁) (symbol : Symbol) (hlocals : mid.locals = b.locals)
    (htemps : b.routine.temps ≤ mid.routine.temps) :
    b.Evaluates entry b₁.size (b₁.result hasValue)
      (((b₁.takeResult hasValue).push (.call (b₁.result hasValue) symbol temps)).link
        last b₁.size .next) := by
  have hle := h.temps_le
  have htake := (Grows.refl b₁).takeResult hasValue
  have howned : ∀ r ∈ (InstKind.call (b₁.result hasValue) symbol temps).registers,
      (b₁.takeResult hasValue).routine.owns r = true := by
    intro r hr
    rcases List.mem_append.mp hr with hdst | hargs
    · cases hasValue with
      | false => cases hdst
      | true =>
        obtain rfl := List.mem_singleton.mp hdst
        exact owns_takeTemp
    · simp only [InstKind.operands, List.mem_filterMap, List.mem_map] at hargs
      obtain ⟨_, ⟨t, ht, rfl⟩, hr⟩ := hargs
      obtain rfl := Option.some.inj hr
      exact owns_mono htake (owns_temp_iff.mpr (h.values_lt t ht))
  have hspans : b.Spans none entry last (b₁.takeResult hasValue) :=
    ⟨h.builds.takeResult hasValue, h.entry_ge, by simpa using h.entry_lt, h.exit_ge,
      h.exit_open.grows htake⟩
  have hdone := hspans.append _ rfl rfl howned (by simp)
  rw [size_takeResult] at hdone
  refine ⟨hdone, by simp [h.locals_eq, hlocals], fun t ht => ?_⟩
  cases hasValue with
  | false => cases ht
  | true =>
    obtain rfl := Option.some.inj ht
    exact .inr ⟨Nat.le_trans htemps hle, Nat.lt_succ_self _⟩

/-- A `nop` is a part by itself, with one instruction for entry and exit. -/
theorem Spans.nop {b : Builder} {out : Option InstId} {id : Nat} (hid : id = b.size) :
    b.Spans out id id (b.push .nop) := by
  subst hid
  exact ⟨(Builds.refl b out).pushNop, Nat.le_refl _, by simp, Nat.le_refl _, .pushed rfl rfl rfl⟩

end Builder

mutual

/-- Lowering an expression evaluates it. By recursion on the expression: the inversion lemma of each
construct names the builders in between, and the rule for the construct puts the parts together. -/
theorem Expr.evaluates_of_lower : ∀ (expr : Expr) {b b' : Builder} {chain : Chain}, b.Settled →
    expr.lower b = .ok (chain, b') → b.Evaluates chain.entry chain.exit chain.value b'
  | .int _ _, _, _, _, _, h => Lower.evaluates_literal h
  | .bool _ _, _, _, _, _, h => Lower.evaluates_literal h
  | .var _ _, _, _, _, _, h => Lower.evaluates_varValue h
  | .index info base position, b, b', chain, hb, h => by
    obtain ⟨symbol, -, index, b₁, hposition, offset, hoffset, rfl, rfl⟩ :=
      Expr.lower_index_eq_ok.mp h
    have hindex := Expr.evaluates_of_lower position hb hposition
    rw [hoffset] at hindex
    exact hindex.index hb symbol
  | .unary info op operand, b, b', chain, hb, h => by
    obtain ⟨left, b₁, hoperand, value, hvalue, -, rfl, rfl⟩ := Expr.lower_unary_eq_ok.mp h
    have hleft := Expr.evaluates_of_lower operand hb hoperand
    rw [hvalue] at hleft
    exact hleft.negate hb
  | .binary info .negate left right, b, b', chain, hb, h => by
    obtain ⟨l, b₁, hl, value, hvalue, rfl, rfl⟩ := Expr.lower_negate_eq_ok.mp h
    have hleft := Expr.evaluates_of_lower left hb hl
    rw [hvalue] at hleft
    exact hleft.negate hb
  | .binary info (.arith op) left right, b, b', chain, hb, h => by
    obtain ⟨l, b₁, hl, _, hlv, r, b₂, hr, _, hrv, rfl, rfl⟩ := Expr.lower_arith_eq_ok.mp h
    have hleft := Expr.evaluates_of_lower left hb hl
    have hright := Expr.evaluates_of_lower right (hb.grows hleft.grows) hr
    rw [hlv] at hleft
    rw [hrv] at hright
    exact hleft.combine hright hb _ rfl rfl rfl nofun
  | .binary info (.compare op) left right, b, b', chain, hb, h => by
    obtain ⟨l, b₁, hl, _, hlv, r, b₂, hr, _, hrv, rfl, rfl⟩ := Expr.lower_compare_eq_ok.mp h
    have hleft := Expr.evaluates_of_lower left hb hl
    have hright := Expr.evaluates_of_lower right (hb.grows hleft.grows) hr
    rw [hlv] at hleft
    rw [hrv] at hright
    exact hleft.combine hright hb _ rfl rfl rfl nofun
  | .binary info (.connect op) left right, b, b', chain, hb, h => by
    obtain ⟨l, b₁, hl, _, hlv, r, b₂, hr, _, hrv, rfl, rfl⟩ := Expr.lower_connect_eq_ok.mp h
    have hleft := Expr.evaluates_of_lower left hb hl
    have hright := Expr.evaluates_of_lower right
      ((hb.grows hleft.grows).of_locals_eq (by simp) (by simp)) hr
    rw [hlv] at hleft
    rw [hrv] at hright
    exact hleft.connect rfl hright hb (by cases op <;> decide)
  | .call info callee args, b, b', chain, hb, h => by
    obtain ⟨symbol, -, params, ret, -, temps, exit, b₁, hargs, rfl, rfl⟩ :=
      Expr.lower_call_eq_ok.mp h
    -- arguments are chained after the first instruction of the call
    have hpasses := Expr.passes_of_lowerArgs args (hb.of_locals_eq (by simp) (by simp))
      (Builder.Spans.nop rfl) hargs
    exact hpasses.call symbol (by simp) (by simp)

/-- Lowering arguments makes the part before them longer, and leaves a value for each. -/
theorem Expr.passes_of_lowerArgs : ∀ (args : List Expr) {b₀ b b' : Builder}
    {entry exit last : InstId} {temps : List Temp}, b.Settled → b₀.Spans none entry exit b →
    Expr.lowerArgs exit args b = .ok ((temps, last), b') → b₀.Passes entry last temps b b'
  | [], b₀, b, b', entry, exit, last, temps, hb, hspans, h => by
    obtain ⟨rfl, rfl, rfl⟩ := Expr.lowerArgs_nil_eq_ok.mp h
    exact ⟨hspans, Nat.le_refl _, rfl, fun _ ht => nomatch ht⟩
  | arg :: rest, b₀, b, b', entry, exit, last, temps, hb, hspans, h => by
    obtain ⟨first, b₁, hfirst, temp, htemp, others, hrest, rfl⟩ := Expr.lowerArgs_cons_eq_ok.mp h
    have harg := Expr.evaluates_of_lower arg hb hfirst
    have hothers := Expr.passes_of_lowerArgs rest
      ((hb.grows harg.grows).of_locals_eq (by simp) (by simp)) (hspans.follow harg.toSpans) hrest
    rw [htemp] at harg
    have htemps : b₁.routine.temps ≤ b'.routine.temps := hothers.temps_le
    have hvalue := harg.value_lt hb
    refine ⟨hothers.toSpans, Nat.le_trans harg.grows.temps_le htemps, ?_, ?_⟩
    · exact hothers.locals_eq.trans harg.locals_eq
    · rw [List.forall_mem_cons]
      exact ⟨Nat.lt_of_lt_of_le hvalue htemps, hothers.values_lt⟩

end

/-! ## Statements

A break leads out of its part, to the exit of the loop around it. So parts of statements come with
the one place outside of them that an edge may lead to, or none. -/

namespace Builder.Evaluates

variable {b b₁ b₂ : Builder} {entry exit : Nat} {value : Temp}

/-- The value goes to the register of a local. No new register is taken, so the local keeps the one
that it was declared with. -/
theorem copy (h : b.Evaluates entry exit (some value) b₁) (hb : b.Settled) {id : SymbolId}
    {dst : Temp} (hdst : b.locals.lookup id = some dst) :
    b.Spans none entry b₁.size ((b₁.push (.copy dst (.temp value))).link exit b₁.size .next) :=
  h.append _ rfl rfl
    (List.forall_mem_cons.mpr
      ⟨owns_temp_iff.mpr (Nat.lt_of_lt_of_le (hb.lookup_lt hdst) h.grows.temps_le),
        List.forall_mem_singleton.mpr (owns_temp_iff.mpr (h.value_lt hb))⟩) nofun

/-- The value goes to a global. -/
theorem store (h : b.Evaluates entry exit (some value) b₁) (hb : b.Settled) (symbol : Symbol) :
    b.Spans none entry (b₁.size + 1)
      ((((b₁.takeAddr.push (.addressAt b₁.nextAddr symbol none)).push
        (.store value b₁.nextAddr)).link exit b₁.size .next).link
          b₁.size (b₁.size + 1) .next) := by
  have hsize := h.grows.size_le
  have hentry := h.entry_lt
  have hexit := h.exit_lt
  have hvalue := h.value_lt hb
  have haddress := h.builds.takeAddr.push (.addressAt b₁.nextAddr symbol none) rfl
    (List.forall_mem_singleton.mpr owns_takeAddr) nofun
  have hstore := haddress.push (.store value b₁.nextAddr) rfl
    (List.forall_mem_cons.mpr ⟨owns_temp_iff.mpr hvalue,
      List.forall_mem_singleton.mpr owns_takeAddr⟩) nofun
  have hopen₁ : b₁.takeAddr.Open exit := h.exit_open
  have hopen₂ : (b₁.takeAddr.push (.addressAt b₁.nextAddr symbol none)).Open b₁.size :=
    .pushed rfl rfl rfl
  have hlinked := hstore.link b₁.size ((hopen₁.push _).push (.store value b₁.nextAddr)) h.exit_ge
    (.inl (by simp; omega))
  have hdone := hlinked.link (b₁.size + 1) ((hopen₂.push _).link (by omega)) hsize
    (.inl (by simp; omega))
  refine ⟨hdone, h.entry_ge, by simp; omega, by omega, ?_⟩
  exact ((Open.pushed (by simp) rfl rfl).link (by omega)).link (by omega)

/-- The value goes to an array element, whose address is taken before the value is evaluated. `mid`
is the builder with the address, from which the value starts. -/
theorem storeAt {mid : Builder} {entry' exit' : Nat} {value' : Temp}
    (h₁ : b.Evaluates entry exit (some value) b₁) {symbol : Symbol}
    (hmid : mid = b₁.takeAddr.push (.addressAt b₁.nextAddr symbol (some value)))
    (h₂ : mid.Evaluates entry' exit' (some value') b₂) (hb : b.Settled) :
    b.Spans none entry b₂.size
      ((((b₂.push (.store value' b₁.nextAddr)).link exit b₁.size .next).link
        b₁.size entry' .next).link exit' b₂.size .next) := by
  have hsize₁ := h₁.grows.size_le
  have hentry := h₁.entry_lt
  have hexit := h₁.exit_lt
  have hvalue := h₁.value_lt hb
  have hmids : mid.size = b₁.size + 1 := by simp [hmid]
  have hopen₁ : mid.Open exit := hmid ▸ (h₁.exit_open.of_eq rfl).push _
  have hopen₂ : mid.Open b₁.size := hmid ▸ .pushed rfl rfl rfl
  have howned : mid.routine.owns (.addr b₁.nextAddr) = true := hmid ▸ owns_takeAddr
  have hsettled : mid.Settled :=
    (hb.grows h₁.grows).of_locals_eq (by simp [hmid]) (by simp [hmid])
  have hbuilds : b.Builds none [] mid := by
    rw [hmid]
    exact h₁.builds.takeAddr.push _ rfl (List.forall_mem_cons.mpr ⟨owns_takeAddr,
      List.forall_mem_singleton.mpr (owns_temp_iff.mpr hvalue)⟩) nofun
  clear hmid
  have hsize₂ := h₂.grows.size_le
  have hentry' := h₂.entry_ge
  have hentry'' := h₂.entry_lt
  have hexit' := h₂.exit_ge
  have hexit'' := h₂.exit_lt
  have hstore := (hbuilds.andThen h₂.builds).push (.store value' b₁.nextAddr) rfl
    (List.forall_mem_cons.mpr ⟨owns_temp_iff.mpr (h₂.value_lt hsettled),
      List.forall_mem_singleton.mpr (owns_mono h₂.grows howned)⟩) nofun
  -- three edges: to the address, to the value and to the store
  have haddress := hstore.link b₁.size ((hopen₁.grows h₂.grows).push _) h₁.exit_ge
    (.inl (by simp; omega))
  have hvalued := haddress.link entry' (((hopen₂.grows h₂.grows).push _).link (by omega)) hsize₁
    (.inl (by simp; omega))
  have hdone := hvalued.link b₂.size
    (((h₂.exit_open.push _).link (by omega)).link (by omega)) (by omega) (.inl (by simp; omega))
  refine ⟨hdone, h₁.entry_ge, by simp; omega, by omega, ?_⟩
  exact (((Open.pushed rfl rfl rfl).link (by omega)).link (by omega)).link (by omega)

end Builder.Evaluates

/-- An assignment spans its part and declares nothing. -/
theorem Assignment.spans_of_lower {assignment : Assignment} {b b' : Builder} {chain : Chain}
    (hb : b.Settled) (h : assignment.lower b = .ok (chain, b')) :
    b.Spans none chain.entry chain.exit b' ∧ b'.locals = b.locals := by
  obtain ⟨info, location, value⟩ := assignment
  rcases Assignment.location_of_lower_eq_ok h with
    ⟨place, ident, rfl⟩ | ⟨place, base, position, rfl⟩
  · obtain ⟨symbol, -, v, b₁, hv, src, hsrc, hcases⟩ := Assignment.lower_var_eq_ok.mp h
    have hvalue := value.evaluates_of_lower hb hv
    have hlocals := hvalue.locals_eq
    rw [hsrc] at hvalue
    obtain ⟨dst, hdst, rfl, rfl⟩ | ⟨-, rfl, rfl⟩ := hcases
    · exact ⟨hvalue.copy hb hdst, by simp [hlocals]⟩
    · exact ⟨hvalue.store hb symbol, by simp [hlocals]⟩
  · obtain ⟨symbol, -, index, b₁, hindex, offset, hoffset, v, b₂, hv, src, hsrc, rfl, rfl⟩ :=
      Assignment.lower_index_eq_ok.mp h
    have hposition := position.evaluates_of_lower hb hindex
    have hvalue := value.evaluates_of_lower
      ((hb.grows hposition.grows).of_locals_eq (by simp) (by simp)) hv
    rw [hoffset] at hposition
    rw [hsrc] at hvalue
    refine ⟨hposition.storeAt rfl hvalue hb, ?_⟩
    simp [hvalue.locals_eq, hposition.locals_eq]

namespace Builder.Spans

variable {b b₁ b₂ b₃ b₄ mid : Builder} {out : Option InstId} {entry exit : Nat} {value : Temp}

/-- A part without breaks may stand inside of a loop. -/
theorem weaken (h : b.Spans none entry exit b₁) (out : Option InstId) :
    b.Spans out entry exit b₁ :=
  ⟨(Builds.refl b out).andThen h.builds, h.entry_ge, h.entry_lt, h.exit_ge, h.exit_open⟩

/-- What follows a break, or a return, hangs off a `nop` of its own. Nothing leads to it; but there
has to be an exit, and an open one. -/
theorem detach (h : b.Builds out [] b₁) (hge : b.size ≤ entry) (hlt : entry < b₁.size) :
    b.Spans out entry b₁.size (b₁.push .nop) :=
  ⟨h.pushNop, hge, by simp; omega, h.grows.size_le, .pushed rfl rfl rfl⟩

/-- A break: an instruction that leads to the exit of the loop, and a new one for what follows. The
edge out of the part is the one that `Spans` allows. -/
theorem leave (b : Builder) (target : Nat) :
    b.Spans (some target) b.size (b.size + 1)
      (((b.push .nop).link b.size target .next).push .nop) := by
  have hnop := (Builds.refl b (some target)).pushNop.link target (.pushed rfl rfl rfl)
    (Nat.le_refl b.size) (.inr rfl)
  have hdone := detach hnop (Nat.le_refl b.size) (by simp)
  rwa [size_link, size_push] at hdone

/-- A return: the value, the instruction that ends the routine, and a new one for what follows. -/
theorem ret {value : Option Temp} (h : b.Evaluates entry exit value b₁) (hb : b.Settled)
    (out : Option InstId) :
    b.Spans out entry (b₁.size + 1)
      (((b₁.push (.ret value)).link exit b₁.size .next).push .nop) := by
  have hentry := h.entry_lt
  have howned : ∀ r ∈ (InstKind.ret value).registers, b₁.routine.owns r = true := by
    intro r hr
    cases value with
    | none => cases hr
    | some t =>
      obtain rfl := List.mem_singleton.mp hr
      exact owns_temp_iff.mpr (h.value_lt hb)
  have hret := ((Builds.refl b out).andThen h.builds).append h.exit_open h.exit_ge (.ret value) rfl
    howned nofun
  have hdone := detach hret h.entry_ge (by simp; omega)
  rwa [size_link, size_push] at hdone

/-- A conditional: `mid` is the builder after the jump, from which the first block starts. The
second one starts from where the first has stopped, and both end in the same `nop`. -/
theorem branch {exit₁ exit₂ : Nat} (h : b.Evaluates entry exit (some value) b₁)
    (hmid : mid = (b₁.push (.jump value)).link exit b₁.size .next)
    (h₁ : mid.Spans out (b₁.size + 1) exit₁ b₂) (h₂ : b₂.Spans out b₂.size exit₂ b₃)
    (hb : b.Settled) :
    b.Spans out entry b₃.size
      (((((b₃.push .nop).link b₁.size (b₁.size + 1) .onTrue).link b₁.size b₂.size .next).link
        exit₁ b₃.size .next).link exit₂ b₃.size .next) := by
  have hsize := h.grows.size_le
  have hentry := h.entry_lt
  have hexit := h.exit_lt
  have hmids : mid.size = b₁.size + 1 := by simp [hmid]
  have hjump : mid.inst? b₁.size = some { kind := .jump value } := by
    rw [hmid, inst?_link_of_ne (by omega), inst?_push_size]
  have hbuilds : b.Builds out [b₁.size] mid := by
    rw [hmid]
    exact (((Builds.refl b out).andThen h.builds).pushJump (owns_temp_iff.mpr (h.value_lt hb))).link
      b₁.size (h.exit_open.push _) h.exit_ge (.inl (by simp; omega))
  clear hmid
  have hsize₁ := h₁.grows.size_le
  have hsize₂ := h₂.grows.size_le
  have hexit₁ := h₁.exit_ge
  have hexit₁' := h₁.exit_lt
  have hexit₂ := h₂.exit_ge
  have hexit₂' := h₂.exit_lt
  -- both branches are in place and both edges of the jump are still open
  have hjoin := ((hbuilds.andThen' h₁.builds).andThen' h₂.builds).pushNop
  have hjump' : (b₃.push .nop).inst? b₁.size = some { kind := .jump value } := by
    rw [inst?_push_of_lt (by omega), h₂.grows.keeps _ (by omega), h₁.grows.keeps _ (by omega),
      hjump]
  have hedge : Edge.onTrue ≠ .next := by decide
  have hforked := hjoin.fork (b₁.size + 1) b₂.size hedge hsize hjump' (by simp; omega)
    (by simp; omega)
  have htrue := hforked.link b₃.size
    ((((h₁.exit_open.grows h₂.grows).push _).link (by omega)).link (by omega)) (by omega)
    (.inl (by simp; omega))
  have hdone := htrue.link b₃.size
    ((((h₂.exit_open.push _).link (by omega)).link (by omega)).link (by omega)) (by omega)
    (.inl (by simp; omega))
  refine ⟨hdone, h.entry_ge, by simp; omega, by omega, ?_⟩
  exact ((((Open.pushed rfl rfl rfl).link (by omega)).link (by omega)).link (by omega)).link
    (by omega)

/-- A loop. Its end is in the arena before its body is, so that a break can lead there: `mid` is the
builder from which the body starts. To the body that end is a place outside, to the loop as a whole
it is its own exit, and breaks of the body do not show any more. -/
theorem loop {entry₁ exit₁ exit₂ entry₃ exit₃ : Nat} (h : b.Spans none entry exit b₁)
    (h₁ : b₁.Evaluates entry₁ exit₁ (some value) b₂)
    (hmid : mid = (((b₂.push (.jump value)).push .nop).link exit entry₁ .next).link
      exit₁ b₂.size .next)
    (h₂ : mid.Spans (some (b₂.size + 1)) (b₂.size + 2) exit₂ b₃)
    (h₃ : b₃.Spans none entry₃ exit₃ b₄) (hb : b₁.Settled) (out : Option InstId) :
    b.Spans out entry (b₂.size + 1)
      ((((b₄.link b₂.size (b₂.size + 2) .onTrue).link b₂.size (b₂.size + 1) .next).link
        exit₂ entry₃ .next).link exit₃ entry₁ .next) := by
  have hsize := h.grows.size_le
  have hentry := h.entry_lt
  have hexit := h.exit_lt
  have hsize₁ := h₁.grows.size_le
  have hentry₁ := h₁.entry_ge
  have hentry₁' := h₁.entry_lt
  have hexit₁ := h₁.exit_ge
  have hexit₁' := h₁.exit_lt
  have hmids : mid.size = b₂.size + 2 := by simp [hmid]
  have hjump : mid.inst? b₂.size = some { kind := .jump value } := by
    rw [hmid, inst?_link_of_ne (by omega), inst?_link_of_ne (by omega),
      inst?_push_of_lt (by simp), inst?_push_size]
  have hend : mid.Open (b₂.size + 1) := by
    rw [hmid]
    exact ((Open.pushed (by simp) rfl rfl).link (by omega)).link (by omega)
  have hbuilds : b.Builds out [b₂.size] mid := by
    have hcond := ((((Builds.refl b out).andThen h.builds).andThen h₁.builds).pushJump
      (owns_temp_iff.mpr (h₁.value_lt hb))).pushNop
    have hentered := hcond.link entry₁ (((h.exit_open.grows h₁.grows).push _).push _) h.exit_ge
      (.inl (by simp; omega))
    rw [hmid]
    exact hentered.link b₂.size (((h₁.exit_open.push _).push _).link (by omega)) (by omega)
      (.inl (by simp; omega))
  clear hmid
  have hsize₂ := h₂.grows.size_le
  have hsize₃ := h₃.grows.size_le
  have hexit₂ := h₂.exit_ge
  have hexit₂' := h₂.exit_lt
  have hentry₃ := h₃.entry_ge
  have hentry₃' := h₃.entry_lt
  have hexit₃ := h₃.exit_ge
  -- the breaks of the body lead to an instruction of the loop
  have hbody := (hbuilds.trans h₂.builds (by rintro id h; cases h; omega)).andThen h₃.builds
  have hjump' : b₄.inst? b₂.size = some { kind := .jump value } := by
    rw [h₃.grows.keeps _ (by omega), h₂.grows.keeps _ (by omega), hjump]
  have hedge : Edge.onTrue ≠ .next := by decide
  -- both sides of the jump, then the ways around
  have hforked := hbody.fork (b₂.size + 2) (b₂.size + 1) hedge (by omega) hjump' (by omega)
    (by omega)
  have hstep := hforked.link entry₃
    (((h₂.exit_open.grows h₃.grows).link (by omega)).link (by omega)) (by omega)
    (.inl (by simp; omega))
  have hdone := hstep.link entry₁
    (((h₃.exit_open.link (by omega)).link (by omega)).link (by omega)) (by omega)
    (.inl (by simp; omega))
  refine ⟨hdone, h.entry_ge, by simp; omega, by omega, ?_⟩
  exact (((((hend.grows h₂.grows).grows h₃.grows).link (by omega)).link (by omega)).link
    (by omega)).link (by omega)

end Builder.Spans

mutual

/-- Lowering a statement spans a part. By recursion on the statement, like that of expressions; a
loop passes its own end on to its body and forgets the one around it. -/
theorem Stmt.spans_of_lower :
    ∀ (stmt : Stmt) {out : Option InstId} {b b' : Builder} {chain : Chain}, b.Settled →
      stmt.lower out b = .ok (chain, b') → b.Spans out chain.entry chain.exit b'
  | .declare _ decl, out, b, b', chain, _, h => by
    obtain ⟨symbol, -, rfl, rfl⟩ := Stmt.lower_declare_eq_ok.mp h
    exact ⟨((Builder.Builds.refl b out).bindNext symbol).pushNop, Nat.le_refl _, by simp,
      Nat.le_refl _, .pushed rfl rfl rfl⟩
  | .assign _ assignment, out, b, b', chain, hb, h => by
    rw [Stmt.lower_assign] at h
    exact (Assignment.spans_of_lower hb h).1.weaken out
  | .call info callee args, out, b, b', chain, hb, h => by
    rw [Stmt.lower_call] at h
    exact (Expr.evaluates_of_lower _ hb h).weaken out
  | .ifElse _ cond onTrue onFalse, out, b, b', chain, hb, h => by
    obtain ⟨c, b₁, hc, value, hvalue, trueExit, b₂, htrue, falseExit, b₃, hfalse, rfl, rfl⟩ :=
      Stmt.lower_ifElse_eq_ok.mp h
    have hcond := cond.evaluates_of_lower hb hc
    rw [hvalue] at hcond
    have hsettled := hb.grows hcond.grows
    have htrue := Stmt.spans_of_lowerAll onTrue.stmts
      (hsettled.of_locals_eq (by simp) (by simp)) (.nop (by simp)) htrue
    have hfalse := Stmt.spans_of_lowerAll onFalse.stmts
      (((hsettled.of_locals_eq (by simp) (by simp)).grows htrue.grows).of_locals_eq (by simp)
        (by simp)) (.nop rfl) hfalse
    exact .branch hcond rfl htrue hfalse hb
  | .loop _ init cond increment body, out, b, b', chain, hb, h => by
    obtain ⟨i, b₁, hi, c, b₂, hc, value, hvalue, bodyExit, b₃, hbody, step, b₄, hstep, rfl, rfl⟩ :=
      Stmt.lower_loop_eq_ok.mp h
    have hinit := (Assignment.spans_of_lower hb hi).1
    have hsettled₁ := hb.grows hinit.grows
    have hcond := cond.evaluates_of_lower hsettled₁ hc
    rw [hvalue] at hcond
    have hsettled₂ := hsettled₁.grows hcond.grows
    have hbody := Stmt.spans_of_lowerAll body.stmts
      (hsettled₂.of_locals_eq (by simp) (by simp)) (.nop (by simp)) hbody
    have hsettled₃ := (hsettled₂.of_locals_eq (by simp) (by simp)).grows hbody.grows
    have hstep := (Assignment.spans_of_lower hsettled₃ hstep).1
    -- a break in the body goes to the exit of this loop, so any outer exit will do
    exact hinit.loop hcond rfl hbody hstep hsettled₁ out
  | .leave _, out, b, b', chain, _, h => by
    obtain ⟨target, rfl, rfl, rfl⟩ := Stmt.lower_leave_eq_ok.mp h
    exact .leave b target
  | .ret _ none, out, b, b', chain, _, h => by
    obtain ⟨rfl, rfl⟩ := Stmt.lower_ret_none_eq_ok.mp h
    have hdone := Builder.Spans.detach ((Builder.Builds.refl b out).push (.ret none) rfl
      (fun _ hr => nomatch hr) nofun) (Nat.le_refl b.size) (by simp)
    rwa [Builder.size_push] at hdone
  | .ret _ (some value), out, b, b', chain, hb, h => by
    obtain ⟨v, b₁, hv, rfl, rfl⟩ := Stmt.lower_ret_some_eq_ok.mp h
    exact .ret (value.evaluates_of_lower hb hv) hb out

/-- Statements make the part that ends in `exit` longer. -/
theorem Stmt.spans_of_lowerAll : ∀ (stmts : List Stmt) {out : Option InstId} {b₀ b b' : Builder}
    {entry exit last : InstId}, b.Settled → b₀.Spans out entry exit b →
    Stmt.lowerAll out exit stmts b = .ok (last, b') → b₀.Spans out entry last b'
  | [], out, b₀, b, b', entry, exit, last, _, hspans, h => by
    obtain ⟨rfl, rfl⟩ := Stmt.lowerAll_nil_eq_ok.mp h
    exact hspans
  | stmt :: rest, out, b₀, b, b', entry, exit, last, hb, hspans, h => by
    obtain ⟨first, b₁, hfirst, hrest⟩ := Stmt.lowerAll_cons_eq_ok.mp h
    have hstmt := Stmt.spans_of_lower stmt hb hfirst
    exact Stmt.spans_of_lowerAll rest ((hb.grows hstmt.grows).of_locals_eq (by simp) (by simp))
      (hspans.follow hstmt) hrest

end

end WordLang
