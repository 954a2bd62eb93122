import WordLang.Proofs.Lowering.Chains
import WordLang.Proofs.Lowering.Enclosure
import WordLang.Proofs.Typing.Equivalence
import WordLang.Proofs.Typing.Rules

/-!
# Where chains end

Which of the instructions of a chain lead nowhere. A chain under way is followed from `b₀`, where it
began, with a list of its open ends: a new instruction is an open end until it gets an edge.

* In an expression nothing returns, every edge leads to a later instruction, and only the exit leads
  nowhere: `b₀.Straight ends b`. So the exit is reached from everywhere in the chain.
* In a statement returns lead nowhere too, and loops lead back: `b₀.Tied bare ends b`. Unless `bare`
  holds, every return has a value, as it is in a function whose types fit and that returns
  something.

Both are lists that may be too long: an instruction on the list need not be an open end, only one
that is not on it must not be. So a rule may keep an instruction on the list although it has got an
edge, and the rules for links let one choose what to keep (`Straight.link`, `Tied.link`). At the end
of a construct the list has come down to the exit.

Together with what is known of edges, this tells where runs can end. From an instruction that leads
somewhere one can go on; so a run that never ends goes through a loop, and one that ends does so at
a return or at the exit.
-/

namespace WordLang

/-- An instruction with an edge leads somewhere. -/
theorem Inst.successors_link_ne_nil (inst : Inst) (target : InstId) (edge : Edge) :
    (inst.link target edge).successors ≠ [] := by
  cases edge <;> simp [Inst.link, Inst.successors]

/-- An instruction inside of an expression, where the open ends are `ends`. The numbers of
instructions grow along its edges, so a way through an expression comes to an end. -/
structure Inst.Straight (ends : List InstId) (id : InstId) (inst : Inst) : Prop where
  goes : inst.successors = [] → id ∈ ends
  forward : ∀ target ∈ inst.successors, id < target
  stays : inst.kind.isReturn = false

/-- An instruction inside of a statement, where the open ends are `ends`. Where it leads is not
restricted, only that it leads somewhere. -/
structure Inst.Tied (bare : Prop) (ends : List InstId) (id : InstId) (inst : Inst) : Prop where
  goes : inst.successors = [] → inst.kind.isReturn = true ∨ id ∈ ends
  valued : inst.kind = .ret none → bare

namespace Builder

/-- Of what was added since `b₀`, only `ends` lead nowhere, and nothing leads back or returns. -/
def Straight (b₀ : Builder) (ends : List InstId) (b : Builder) : Prop :=
  b₀.Since (Inst.Straight ends) b

/-- Of what was added since `b₀`, only returns and `ends` lead nowhere, and returns have values
unless `bare` holds. With `bare` true this is said of every function, whatever its types. -/
def Tied (b₀ : Builder) (bare : Prop) (ends : List InstId) (b : Builder) : Prop :=
  b₀.Since (Inst.Tied bare ends) b

variable {b b₀ b₁ b₂ : Builder} {source target : Nat} {edge : Edge} {kind : InstKind}

/-! ## Rules for the operations on builders

The same rules twice. A link in an expression has to lead to a later instruction; a link in a
statement may lead anywhere, and in a statement there may be returns. -/

namespace Straight

variable {ends ends' : List InstId}

/-- The list may be made longer. -/
theorem mono (h : b₀.Straight ends b) (hends : ends ⊆ ends') : b₀.Straight ends' b :=
  h.imp fun _ _ hinst => ⟨fun hleaf => hends (hinst.goes hleaf), hinst.forward, hinst.stays⟩

/-- A part that was built after another one, with the open ends of both. What the first part has
does not change while the second is built. -/
theorem andThen (h₁ : b₀.Straight ends b₁) (h₂ : b₁.Straight ends' b₂) (hb : b₁.Grows b₂) :
    b₀.Straight (ends ++ ends') b₂ :=
  Since.trans (h₁.mono (List.subset_append_left _ _)) (h₂.mono (List.subset_append_right _ _)) hb

/-- A new instruction is an open end. It must not be a return. -/
theorem push (h : b₀.Straight ends b) (kind : InstKind) (hret : kind.isReturn = false) :
    b₀.Straight (b.size :: ends) (b.push kind) :=
  Since.push (h.mono (List.subset_cons_self _ _))
    ⟨fun _ => List.mem_cons_self, (fun _ hmem => nomatch hmem), hret⟩

/-- An edge takes its source off the list. The list that is left may be chosen, as long as it has
all the others. -/
theorem link (h : b₀.Straight ends b) (edge : Edge) (ends' : List InstId) (hlt : source < target)
    (hends : ∀ id ∈ ends, id = source ∨ id ∈ ends') :
    b₀.Straight ends' (b.link source target edge) := by
  refine Since.link h (fun inst hinst => ⟨fun hleaf => ?_, fun id hid => ?_, ?_⟩) ?_
  · exact absurd hleaf (inst.successors_link_ne_nil target edge)
  · rcases Inst.mem_successors_link hid with rfl | hmem
    · exact hlt
    · exact hinst.forward id hmem
  · rw [Inst.kind_link]
    exact hinst.stays
  · intro id inst hne hinst
    exact ⟨fun hleaf => (hends id (hinst.goes hleaf)).resolve_left hne, hinst.forward, hinst.stays⟩

/-- Taking a register adds no instruction. -/
theorem takeTemp (h : b₀.Straight ends b) : b₀.Straight ends b.takeTemp :=
  h

/-- Nor does taking one for an address. -/
theorem takeAddr (h : b₀.Straight ends b) : b₀.Straight ends b.takeAddr :=
  h

/-- Nor does taking one for a result. -/
theorem takeResult (h : b₀.Straight ends b) (hasValue : Bool) :
    b₀.Straight ends (b.takeResult hasValue) := by
  cases hasValue <;> exact h

/-- A new instruction that follows an open end. It is the next open end. -/
theorem append (h : b₀.Straight ends b) (kind : InstKind) (ends' : List InstId)
    (hret : kind.isReturn = false) (hlt : source < b.size)
    (hends : ∀ id ∈ ends, id = source ∨ id ∈ ends') :
    b₀.Straight (b.size :: ends') ((b.push kind).link source b.size .next) := by
  refine (h.push kind hret).link .next _ hlt
    (List.forall_mem_cons.mpr ⟨.inr List.mem_cons_self, ?_⟩)
  exact fun id hid => (hends id hid).imp_right (List.mem_cons_of_mem _)

end Straight

namespace Tied

variable {bare : Prop} {ends ends' : List InstId}

/-- The list may be made longer. -/
theorem mono (h : b₀.Tied bare ends b) (hends : ends ⊆ ends') : b₀.Tied bare ends' b :=
  h.imp fun _ _ hinst =>
    ⟨fun hleaf => (hinst.goes hleaf).imp_right fun hmem => hends hmem, hinst.valued⟩

/-- A part that was built after another one. -/
theorem andThen (h₁ : b₀.Tied bare ends b₁) (h₂ : b₁.Tied bare ends' b₂) (hb : b₁.Grows b₂) :
    b₀.Tied bare (ends ++ ends') b₂ :=
  Since.trans (h₁.mono (List.subset_append_left _ _)) (h₂.mono (List.subset_append_right _ _)) hb

/-- A new instruction is an open end. If it is a return without a value, then `bare` has to hold. -/
theorem push (h : b₀.Tied bare ends b) (kind : InstKind) (hkind : kind = .ret none → bare) :
    b₀.Tied bare (b.size :: ends) (b.push kind) :=
  Since.push (h.mono (List.subset_cons_self _ _)) ⟨fun _ => .inr List.mem_cons_self, hkind⟩

/-- A part of a single `nop`. -/
theorem nop {id : Nat} (hid : id = b.size) : b.Tied bare [id] (b.push .nop) :=
  hid ▸ push (Since.refl b _) .nop nofun

/-- A return is no open end. It leads nowhere for good. -/
theorem pushRet (h : b₀.Tied bare ends b) (value : Option Temp) (hvalue : value = none → bare) :
    b₀.Tied bare ends (b.push (.ret value)) :=
  Since.push h ⟨fun _ => .inl rfl, fun heq => hvalue (InstKind.ret.inj heq)⟩

/-- An edge takes its source off the list, wherever it leads. -/
theorem link (h : b₀.Tied bare ends b) (source target : Nat) (edge : Edge) (ends' : List InstId)
    (hends : ∀ id ∈ ends, id = source ∨ id ∈ ends') :
    b₀.Tied bare ends' (b.link source target edge) := by
  refine Since.link h (fun inst hinst => ⟨fun hleaf => ?_, fun hkind => ?_⟩) ?_
  · exact absurd hleaf (inst.successors_link_ne_nil target edge)
  · rw [Inst.kind_link] at hkind
    exact hinst.valued hkind
  · intro id inst hne hinst
    exact ⟨fun hleaf => (hinst.goes hleaf).imp_right fun hmem => (hends id hmem).resolve_left hne,
      hinst.valued⟩

end Tied

/-- What is straight is tied, since it has no returns. So expressions and assignments need to be
looked at only once. -/
theorem Straight.tied {ends : List InstId} (h : b₀.Straight ends b) (bare : Prop) :
    b₀.Tied bare ends b := by
  refine h.imp fun id inst hinst => ⟨fun hleaf => .inr (hinst.goes hleaf), fun hkind => ?_⟩
  have hstays := hinst.stays
  rw [hkind] at hstays
  cases hstays

end Builder

/-! ## Expressions

By recursion on the expression. The leaves first, then the constructs with more than one operand. -/

section Leaves

variable {b b' : Builder} {chain : Chain}

/-- A literal is one instruction, its exit. -/
theorem Lower.straight_literal {constant : Constant}
    (h : Lower.literal constant b = .ok (chain, b')) : b.Straight [chain.exit] b' := by
  obtain ⟨rfl, rfl⟩ := Lower.literal_eq_ok.mp h
  have hrefl : b.Straight [] (b.intern constant) := Builder.Since.refl b _
  exact hrefl.takeTemp.push _ rfl

/-- The value of a name is one instruction, or two in a row. -/
theorem Lower.straight_varValue {ident : Ident} (h : Lower.varValue ident b = .ok (chain, b')) :
    b.Straight [chain.exit] b' := by
  have hrefl : b.Straight [] b := Builder.Since.refl b _
  obtain ⟨symbol, -, ⟨temp, -, rfl, rfl⟩ | ⟨-, rfl, rfl⟩⟩ := Lower.varValue_eq_ok.mp h
  · exact hrefl.push .nop rfl
  · have hload := (hrefl.takeAddr.push (.addressAt b.nextAddr symbol none) rfl).takeTemp.push
      (.load b.nextTemp b.nextAddr) rfl
    exact hload.link .next [b.size + 1] (Nat.lt_succ_self _) (by simp)

end Leaves

namespace Builder.Straight

variable {b b₁ b₂ mid : Builder} {entry exit entry' exit' : Nat}

/-- An array element: the index, then two instructions in a row. -/
theorem index (h : b.Straight [exit] b₁) (hexit : exit < b₁.size) (symbol : Symbol)
    (offset : Temp) :
    b.Straight [b₁.size + 1]
      ((((b₁.takeAddr.push (.addressAt b₁.nextAddr symbol (some offset))).takeTemp.push
        (.load b₁.nextTemp b₁.nextAddr)).link exit b₁.size .next).link
          b₁.size (b₁.size + 1) .next) := by
  have hpushed := (h.takeAddr.push (.addressAt b₁.nextAddr symbol (some offset)) rfl).takeTemp.push
    (.load b₁.nextTemp b₁.nextAddr) rfl
  have hlinked := hpushed.link .next [b₁.size + 1, b₁.size] hexit (by simp)
  exact hlinked.link .next [b₁.size + 1] (Nat.lt_succ_self _) (by simp)

/-- Two operands, one after the other, and an operation on their values. -/
theorem combine (h₁ : b.Straight [exit] b₁) (h₂ : b₁.Straight [exit'] b₂)
    (hexit : exit < b₁.size) (hpart : b₁.Chained none entry' exit' b₂) (kind : InstKind)
    (hret : kind.isReturn = false) :
    b.Straight [b₂.size]
      (((b₂.takeTemp.push kind).link exit entry' .next).link exit' b₂.size .next) := by
  have hpushed := (h₁.andThen h₂ hpart.grows).takeTemp.push kind hret
  have hlinked := hpushed.link .next [b₂.size, exit'] (Nat.lt_of_lt_of_le hexit hpart.entry_ge)
    (by simp)
  exact hlinked.link .next [b₂.size] hpart.exit_lt (by simp)

/-- A connective. The jump and the copy of the left value are in the arena before the right operand
is: `mid` is the builder from which that starts. In the end all four ends have been linked to later
instructions, and the place where the two sides meet is the only one left. -/
theorem connect {edge edge' : Edge} {src src' : InstKind} {left : Temp} (h₁ : b.Straight [exit] b₁)
    (hexit : exit < b₁.size)
    (hmid : mid = ((b₁.push (.jump left)).link exit b₁.size .next).takeTemp.push src)
    (h₂ : mid.Straight [exit'] b₂) (hpart : mid.Chained none entry' exit' b₂)
    (hsrc : src.isReturn = false) (hsrc' : src'.isReturn = false) :
    b.Straight [b₂.size + 1]
      (((((((b₂.push src').push .nop).link b₁.size (b₁.size + 1) edge).link
        b₁.size entry' edge').link (b₁.size + 1) (b₂.size + 1) .next).link
        exit' b₂.size .next).link b₂.size (b₂.size + 1) .next) := by
  have hsize : mid.size = b₁.size + 2 := by simp [hmid]
  have hstart : b.Straight [b₁.size + 1, b₁.size] mid := by
    have hjump := (h₁.append (.jump left) [] rfl hexit (by simp)).takeTemp.push src hsrc
    rw [hmid]
    simpa using hjump
  have hgrows := hpart.grows.size_le
  have hentry := hpart.entry_ge
  have hpushed := ((hstart.andThen h₂ hpart.grows).push src' hsrc').push .nop rfl
  -- the jump is off the list with its first edge; its second one changes nothing about that
  have hkeep := hpushed.link edge [b₂.size + 1, b₂.size, b₁.size + 1, exit']
    (Nat.lt_succ_self b₁.size) (by simp)
  have hright := hkeep.link edge' [b₂.size + 1, b₂.size, b₁.size + 1, exit']
    (show b₁.size < entry' by omega) (by simp)
  have hkept := hright.link .next [b₂.size + 1, b₂.size, exit']
    (show b₁.size + 1 < b₂.size + 1 by omega) (by simp)
  have htaken := hkept.link .next [b₂.size + 1, b₂.size] hpart.exit_lt (by simp)
  exact htaken.link .next [b₂.size + 1] (Nat.lt_succ_self _) (by simp)

end Builder.Straight

mutual

/-- In the chain of an expression only the exit leads nowhere. The recursion needs of the parts that
they are chains, for the entries that are linked to. -/
theorem Expr.straight_of_lower : ∀ (expr : Expr) {b b' : Builder} {chain : Chain},
    expr.lower b = .ok (chain, b') → b.Straight [chain.exit] b'
  | .int _ _, _, _, _, h => Lower.straight_literal h
  | .bool _ _, _, _, _, h => Lower.straight_literal h
  | .var _ _, _, _, _, h => Lower.straight_varValue h
  | .index info base position, b, b', chain, h => by
    obtain ⟨symbol, -, index, b₁, hposition, offset, -, rfl, rfl⟩ := Expr.lower_index_eq_ok.mp h
    exact (Expr.straight_of_lower position hposition).index
      (position.chained_of_lower hposition).exit_lt symbol offset
  | .unary info op operand, b, b', chain, h => by
    obtain ⟨left, b₁, hoperand, value, -, -, rfl, rfl⟩ := Expr.lower_unary_eq_ok.mp h
    exact (Expr.straight_of_lower operand hoperand).takeTemp.append _ [] rfl
      (operand.chained_of_lower hoperand).exit_lt (by simp)
  | .binary info .negate left right, b, b', chain, h => by
    obtain ⟨l, b₁, hl, value, -, rfl, rfl⟩ := Expr.lower_negate_eq_ok.mp h
    exact (Expr.straight_of_lower left hl).takeTemp.append _ [] rfl
      (left.chained_of_lower hl).exit_lt (by simp)
  | .binary info (.arith op) left right, b, b', chain, h => by
    obtain ⟨l, b₁, hl, _, -, r, b₂, hr, _, -, rfl, rfl⟩ := Expr.lower_arith_eq_ok.mp h
    exact (Expr.straight_of_lower left hl).combine (Expr.straight_of_lower right hr)
      (left.chained_of_lower hl).exit_lt (right.chained_of_lower hr) _ rfl
  | .binary info (.compare op) left right, b, b', chain, h => by
    obtain ⟨l, b₁, hl, _, -, r, b₂, hr, _, -, rfl, rfl⟩ := Expr.lower_compare_eq_ok.mp h
    exact (Expr.straight_of_lower left hl).combine (Expr.straight_of_lower right hr)
      (left.chained_of_lower hl).exit_lt (right.chained_of_lower hr) _ rfl
  | .binary info (.connect op) left right, b, b', chain, h => by
    obtain ⟨l, b₁, hl, leftValue, -, r, b₂, hr, _, -, rfl, rfl⟩ := Expr.lower_connect_eq_ok.mp h
    exact (Expr.straight_of_lower left hl).connect (left.chained_of_lower hl).exit_lt rfl
      (Expr.straight_of_lower right hr) (right.chained_of_lower hr) rfl rfl
  | .call info callee args, b, b', chain, h => by
    obtain ⟨symbol, -, params, ret, -, temps, exit, b₁, hargs, rfl, rfl⟩ :=
      Expr.lower_call_eq_ok.mp h
    have hnop : b.Straight [b.size] (b.push .nop) :=
      Builder.Straight.push (Builder.Since.refl b _) .nop rfl
    have hchained := Expr.chained_of_lowerArgs args (.nop rfl) hargs
    -- from the first instruction of the call on, as the chain of the arguments is
    have hstraight := Expr.straight_of_lowerArgs args (.nop rfl) hnop hargs
    have hcall := (hstraight.takeResult (!ret.isVoid)).append
      (.call (b₁.result (!ret.isVoid)) symbol temps) [] rfl
      (by simpa using hchained.exit_lt) (by simp)
    rwa [Builder.size_takeResult] at hcall

/-- Arguments make a chain longer. -/
theorem Expr.straight_of_lowerArgs : ∀ (args : List Expr) {b₀ b b' : Builder}
    {entry exit last : InstId} {temps : List Temp}, b₀.Chained none entry exit b →
    b₀.Straight [exit] b → Expr.lowerArgs exit args b = .ok ((temps, last), b') →
    b₀.Straight [last] b'
  | [], b₀, b, b', entry, exit, last, temps, _, hstraight, h => by
    obtain ⟨rfl, rfl, rfl⟩ := Expr.lowerArgs_nil_eq_ok.mp h
    exact hstraight
  | arg :: rest, b₀, b, b', entry, exit, last, temps, hchained, hstraight, h => by
    obtain ⟨first, b₁, hfirst, temp, -, others, hrest, rfl⟩ := Expr.lowerArgs_cons_eq_ok.mp h
    have harg := arg.chained_of_lower hfirst
    have hboth := hstraight.andThen (Expr.straight_of_lower arg hfirst) harg.grows
    have hlinked := hboth.link .next [first.exit]
      (Nat.lt_of_lt_of_le hchained.exit_lt harg.entry_ge) (by simp)
    exact Expr.straight_of_lowerArgs rest (hchained.follow harg) hlinked hrest

end

/-- In the chain of an assignment only the exit leads nowhere. -/
theorem Assignment.straight_of_lower {assignment : Assignment} {b b' : Builder} {chain : Chain}
    (h : assignment.lower b = .ok (chain, b')) : b.Straight [chain.exit] b' := by
  obtain ⟨info, location, value⟩ := assignment
  rcases Assignment.location_of_lower_eq_ok h with
    ⟨place, ident, rfl⟩ | ⟨place, base, position, rfl⟩
  · obtain ⟨symbol, -, v, b₁, hv, src, -, hcases⟩ := Assignment.lower_var_eq_ok.mp h
    have hexit := (value.chained_of_lower hv).exit_lt
    have hvalue := value.straight_of_lower hv
    obtain ⟨dst, -, rfl, rfl⟩ | ⟨-, rfl, rfl⟩ := hcases
    · exact hvalue.append _ [] rfl hexit (by simp)
    · have hpushed := (hvalue.takeAddr.push (.addressAt b₁.nextAddr symbol none) rfl).push
        (.store src b₁.nextAddr) rfl
      have hlinked := hpushed.link .next [b₁.size + 1, b₁.size] hexit (by simp)
      exact hlinked.link .next [b₁.size + 1] (Nat.lt_succ_self _) (by simp)
  · obtain ⟨symbol, -, index, b₁, hindex, offset, -, v, b₂, hv, src, -, rfl, rfl⟩ :=
      Assignment.lower_index_eq_ok.mp h
    have hvalue := value.chained_of_lower hv
    have hentry := hvalue.entry_ge
    rw [Builder.size_push, Builder.size_takeAddr] at hentry
    have haddress := (position.straight_of_lower hindex).takeAddr.push
      (.addressAt b₁.nextAddr symbol (some offset)) rfl
    have hstore := (haddress.andThen (value.straight_of_lower hv) hvalue.grows).push
      (.store src b₁.nextAddr) rfl
    have hindexed := hstore.link .next [b₂.size, b₁.size, v.exit]
      (position.chained_of_lower hindex).exit_lt (by simp)
    have hvalued := hindexed.link .next [b₂.size, v.exit] hentry (by simp)
    exact hvalued.link .next [b₂.size] hvalue.exit_lt (by simp)

/-! ## Statements

By recursion on the statement. Where the types fit, a value that is returned is not `void`, and so
it is in a register. -/

/-- The value of an expression whose type is not `void` is in a register. Here the type is one that
the rules give, so the callee of a call is known to be a function that returns something. -/
theorem Expr.value_ne_none_of_lower {expr : Expr} {ty : Ty} {b b' : Builder} {chain : Chain}
    (hty : HasType expr ty) (hvoid : ty ≠ .void) (h : expr.lower b = .ok (chain, b')) :
    chain.value ≠ none := by
  cases hty with
  | int =>
    obtain ⟨-, rfl⟩ := Expr.lower_int_eq_ok.mp h
    exact Option.some_ne_none _
  | bool =>
    obtain ⟨-, rfl⟩ := Expr.lower_bool_eq_ok.mp h
    exact Option.some_ne_none _
  | var =>
    rw [Expr.lower] at h
    obtain ⟨_, -, ⟨_, -, -, rfl⟩ | ⟨-, -, rfl⟩⟩ := Lower.varValue_eq_ok.mp h <;>
      exact Option.some_ne_none _
  | index =>
    obtain ⟨_, -, _, _, -, _, -, -, rfl⟩ := Expr.lower_index_eq_ok.mp h
    exact Option.some_ne_none _
  | call hcallee =>
    obtain ⟨symbol, hsymbol, params, ret, hret, _, _, b₁, -, -, rfl⟩ := Expr.lower_call_eq_ok.mp h
    rw [Ident.Has, (Ident.resolved_eq_ok.mp hsymbol).1, Option.bind_some, hret] at hcallee
    obtain ⟨-, rfl⟩ := Ty.func.inj (Option.some.inj hcallee)
    rw [Ty.isVoid_eq_false_iff.mpr hvoid]
    exact Option.some_ne_none _
  | arith =>
    obtain ⟨_, _, -, _, -, _, _, -, _, -, -, rfl⟩ := Expr.lower_arith_eq_ok.mp h
    exact Option.some_ne_none _
  | compare =>
    obtain ⟨_, _, -, _, -, _, _, -, _, -, -, rfl⟩ := Expr.lower_compare_eq_ok.mp h
    exact Option.some_ne_none _
  | connect =>
    obtain ⟨_, _, -, _, -, _, _, -, _, -, -, rfl⟩ := Expr.lower_connect_eq_ok.mp h
    exact Option.some_ne_none _
  | negate =>
    obtain ⟨_, _, -, _, -, -, -, rfl⟩ := Expr.lower_unary_eq_ok.mp h
    exact Option.some_ne_none _
  | negateIgnoring =>
    obtain ⟨_, _, -, _, -, -, rfl⟩ := Expr.lower_negate_eq_ok.mp h
    exact Option.some_ne_none _

namespace Builder.Tied

variable {b b₁ b₂ b₃ b₄ mid : Builder} {bare : Prop} {exit exit₁ exit₂ exit₃ : Nat} {value : Temp}

/-- A conditional: `mid` is the builder after the jump, from which the first block starts. -/
theorem branch (h : b.Tied bare [exit] b₁)
    (hmid : mid = (b₁.push (.jump value)).link exit b₁.size .next)
    (h₁ : mid.Tied bare [exit₁] b₂) (hb₂ : mid.Grows b₂) (h₂ : b₂.Tied bare [exit₂] b₃)
    (hb₃ : b₂.Grows b₃) :
    b.Tied bare [b₃.size]
      (((((b₃.push .nop).link b₁.size (b₁.size + 1) .onTrue).link b₁.size b₂.size .next).link
        exit₁ b₃.size .next).link exit₂ b₃.size .next) := by
  have hjump : b.Tied bare [b₁.size] mid := by
    rw [hmid]
    exact (h.push (.jump value) nofun).link exit b₁.size .next [b₁.size] (by simp)
  have hjoin := ((hjump.andThen h₁ hb₂).andThen h₂ hb₃).push .nop nofun
  have htrue := hjoin.link b₁.size (b₁.size + 1) .onTrue [b₃.size, exit₁, exit₂] (by simp)
  have hfalse := htrue.link b₁.size b₂.size .next [b₃.size, exit₁, exit₂] (by simp)
  have hdone := hfalse.link exit₁ b₃.size .next [b₃.size, exit₂] (by simp)
  exact hdone.link exit₂ b₃.size .next [b₃.size] (by simp)

/-- A loop: `mid` is the builder from which the body starts. -/
theorem loop {entry₁ entry₃ : Nat} (h : b.Tied bare [exit] b₁) (h₁ : b₁.Tied bare [exit₁] b₂)
    (hb₂ : b₁.Grows b₂)
    (hmid : mid = (((b₂.push (.jump value)).push .nop).link exit entry₁ .next).link
      exit₁ b₂.size .next)
    (h₂ : mid.Tied bare [exit₂] b₃) (hb₃ : mid.Grows b₃) (h₃ : b₃.Tied bare [exit₃] b₄)
    (hb₄ : b₃.Grows b₄) :
    b.Tied bare [b₂.size + 1]
      ((((b₄.link b₂.size (b₂.size + 2) .onTrue).link b₂.size (b₂.size + 1) .next).link
        exit₂ entry₃ .next).link exit₃ entry₁ .next) := by
  have hhead : b.Tied bare [b₂.size + 1, b₂.size] mid := by
    have hpushed := ((h.andThen h₁ hb₂).push (.jump value) nofun).push .nop nofun
    have hcond := hpushed.link exit entry₁ .next [b₂.size + 1, b₂.size, exit₁] (by simp)
    rw [hmid]
    exact hcond.link exit₁ b₂.size .next [b₂.size + 1, b₂.size] (by simp)
  have hbody := (hhead.andThen h₂ hb₃).andThen h₃ hb₄
  have htrue := hbody.link b₂.size (b₂.size + 2) .onTrue [b₂.size + 1, exit₂, exit₃] (by simp)
  have hfalse := htrue.link b₂.size (b₂.size + 1) .next [b₂.size + 1, exit₂, exit₃] (by simp)
  have hstep := hfalse.link exit₂ entry₃ .next [b₂.size + 1, exit₃] (by simp)
  exact hstep.link exit₃ entry₁ .next [b₂.size + 1] (by simp)

end Builder.Tied

section Statements

variable {b b₁ b₂ b₃ b₄ : Builder} {out : Option InstId} {c i step : Chain} {value : Temp}

/-- What is known of the blocks of a conditional. The builders in between are those of the inversion
lemma, so this saves each recursion over statements from working them out. -/
theorem Stmt.spans_of_lower_ifElse {cond : Expr} {onTrue onFalse : List Stmt}
    {trueExit falseExit : InstId} (hb : b.Settled) (hc : cond.lower b = .ok (c, b₁))
    (htrue : Stmt.lowerAll out (b₁.size + 1) onTrue
      (((b₁.push (.jump value)).link c.exit b₁.size .next).push .nop) = .ok (trueExit, b₂))
    (hfalse : Stmt.lowerAll out b₂.size onFalse (b₂.push .nop) = .ok (falseExit, b₃)) :
    (((b₁.push (.jump value)).link c.exit b₁.size .next).push .nop).Settled ∧
      ((b₁.push (.jump value)).link c.exit b₁.size .next).Spans out (b₁.size + 1) trueExit b₂ ∧
      (b₂.push .nop).Settled ∧ b₂.Spans out b₂.size falseExit b₃ := by
  have hb₁ := hb.grows (cond.evaluates_of_lower hb hc).grows
  have hmid : ((b₁.push (.jump value)).link c.exit b₁.size .next).Settled :=
    hb₁.of_locals_eq (by simp) (by simp)
  have hentry : (((b₁.push (.jump value)).link c.exit b₁.size .next).push .nop).Settled :=
    hb₁.of_locals_eq (by simp) (by simp)
  have hspans := Stmt.spans_of_lowerAll onTrue hentry (.nop (by simp)) htrue
  have hb₂ : (b₂.push .nop).Settled := (hmid.grows hspans.grows).of_locals_eq (by simp) (by simp)
  exact ⟨hentry, hspans, hb₂, Stmt.spans_of_lowerAll onFalse hb₂ (.nop rfl) hfalse⟩

/-- What is known of the body and the increment of a loop, for the same purpose. -/
theorem Stmt.spans_of_lower_loop {cond : Expr} {increment : Assignment} {body : List Stmt}
    {bodyExit : InstId} (hb₁ : b₁.Settled) (hc : cond.lower b₁ = .ok (c, b₂))
    (hbody : Stmt.lowerAll (some (b₂.size + 1)) (b₂.size + 2) body
      (((((b₂.push (.jump value)).push .nop).link i.exit c.entry .next).link
        c.exit b₂.size .next).push .nop) = .ok (bodyExit, b₃))
    (hstep : increment.lower b₃ = .ok (step, b₄)) :
    (((((b₂.push (.jump value)).push .nop).link i.exit c.entry .next).link
        c.exit b₂.size .next).push .nop).Settled ∧
      ((((b₂.push (.jump value)).push .nop).link i.exit c.entry .next).link
        c.exit b₂.size .next).Spans (some (b₂.size + 1)) (b₂.size + 2) bodyExit b₃ ∧
      b₃.Settled ∧ b₃.Spans none step.entry step.exit b₄ := by
  have hb₂ := hb₁.grows (cond.evaluates_of_lower hb₁ hc).grows
  have hmid : ((((b₂.push (.jump value)).push .nop).link i.exit c.entry .next).link
      c.exit b₂.size .next).Settled := hb₂.of_locals_eq (by simp) (by simp)
  have hentry : (((((b₂.push (.jump value)).push .nop).link i.exit c.entry .next).link
      c.exit b₂.size .next).push .nop).Settled := hb₂.of_locals_eq (by simp) (by simp)
  have hspans := Stmt.spans_of_lowerAll body hentry (.nop (by simp)) hbody
  have hb₃ := hmid.grows hspans.grows
  exact ⟨hentry, hspans, hb₃, (Assignment.spans_of_lower hb₃ hstep).1⟩

variable {bare : Prop} {ret : Ty}

mutual

/-- In the chain of a statement only returns and the exit lead nowhere. Returns have values if the
statement fits in a function that returns something. A break leads to the end of its loop, so it is
no end. -/
theorem Stmt.tied_of_lower (hret : ret ≠ .void) : ∀ (stmt : Stmt) {inLoop : Bool}
    {out : Option InstId} {b b' : Builder} {chain : Chain}, bare ∨ Stmt.WellTyped ret inLoop stmt →
    b.Settled → stmt.lower out b = .ok (chain, b') → b.Tied bare [chain.exit] b'
  | .declare info decl, inLoop, out, b, b', chain, _, _, h => by
    obtain ⟨symbol, -, rfl, rfl⟩ := Stmt.lower_declare_eq_ok.mp h
    have hrefl : b.Tied bare [] (b.bindNext symbol) := Builder.Since.refl b _
    exact hrefl.push .nop nofun
  | .assign info assignment, inLoop, out, b, b', chain, _, hb, h => by
    rw [Stmt.lower_assign] at h
    exact (Assignment.straight_of_lower h).tied bare
  | .call info callee args, inLoop, out, b, b', chain, _, hb, h => by
    rw [Stmt.lower_call] at h
    exact (Expr.straight_of_lower _ h).tied bare
  | .ifElse info cond onTrue onFalse, inLoop, out, b, b', chain, hfits, hb, h => by
    obtain ⟨c, b₁, hc, value, -, trueExit, b₂, htrue, falseExit, b₃, hfalse, rfl, rfl⟩ :=
      Stmt.lower_ifElse_eq_ok.mp h
    have hfitsTrue : bare ∨ Stmt.AllWellTyped ret inLoop onTrue.stmts := by
      refine hfits.imp_right fun hfits => ?_
      cases hfits with | ifElse _ htrue _ => exact htrue
    have hfitsFalse : bare ∨ Stmt.AllWellTyped ret inLoop onFalse.stmts := by
      refine hfits.imp_right fun hfits => ?_
      cases hfits with | ifElse _ _ hfalse => exact hfalse
    obtain ⟨hmid, hspansTrue, hb₂, hspansFalse⟩ := Stmt.spans_of_lower_ifElse hb hc htrue hfalse
    exact .branch ((cond.straight_of_lower hc).tied bare) rfl
      (Stmt.tied_of_lowerAll hret onTrue.stmts hfitsTrue hmid (.nop (by simp)) htrue)
      hspansTrue.grows
      (Stmt.tied_of_lowerAll hret onFalse.stmts hfitsFalse hb₂ (.nop rfl) hfalse) hspansFalse.grows
  | .loop info init cond increment body, inLoop, out, b, b', chain, hfits, hb, h => by
    obtain ⟨i, b₁, hi, c, b₂, hc, value, -, bodyExit, b₃, hbody, step, b₄, hstep, rfl, rfl⟩ :=
      Stmt.lower_loop_eq_ok.mp h
    have hfitsBody : bare ∨ Stmt.AllWellTyped ret true body.stmts := by
      refine hfits.imp_right fun hfits => ?_
      cases hfits with | loop _ _ _ hbody => exact hbody
    have hinit := (Assignment.spans_of_lower hb hi).1
    have hb₁ := hb.grows hinit.grows
    have hcond := cond.evaluates_of_lower hb₁ hc
    obtain ⟨hmid, hspansBody, hb₃, hspansStep⟩ := Stmt.spans_of_lower_loop hb₁ hc hbody hstep
    exact .loop ((Assignment.straight_of_lower hi).tied bare)
      ((cond.straight_of_lower hc).tied bare) hcond.grows rfl
      (Stmt.tied_of_lowerAll hret body.stmts hfitsBody hmid (.nop (by simp)) hbody) hspansBody.grows
      ((Assignment.straight_of_lower hstep).tied bare) hspansStep.grows
  | .leave info, inLoop, out, b, b', chain, _, _, h => by
    obtain ⟨target, rfl, rfl, rfl⟩ := Stmt.lower_leave_eq_ok.mp h
    have hentry : b.Tied bare [b.size] (b.push .nop) := .nop rfl
    have hdone := (hentry.link b.size target .next [] (by simp)).push .nop nofun
    rwa [Builder.size_link, Builder.size_push] at hdone
  | .ret info none, inLoop, out, b, b', chain, hfits, _, h => by
    obtain ⟨rfl, rfl⟩ := Stmt.lower_ret_none_eq_ok.mp h
    -- a return without a value does not fit in a function that returns something
    have hbare : bare := by
      refine hfits.resolve_right fun hfits => ?_
      cases hfits with | ret hvoid => exact hret hvoid
    have hrefl : b.Tied bare [] b := Builder.Since.refl b _
    have hdone := (hrefl.pushRet none fun _ => hbare).push .nop nofun
    rwa [Builder.size_push] at hdone
  | .ret info (some expr), inLoop, out, b, b', chain, hfits, hb, h => by
    obtain ⟨v, b₁, hv, rfl, rfl⟩ := Stmt.lower_ret_some_eq_ok.mp h
    -- nor does the value of a call that has none
    have hvalue : v.value = none → bare := by
      intro hnone
      refine hfits.resolve_right fun hfits => ?_
      cases hfits with
      | retValue hexpr => exact Expr.value_ne_none_of_lower hexpr hret hv hnone
    have hreturned := ((expr.straight_of_lower hv).tied bare).pushRet v.value hvalue
    have hdone := (hreturned.link v.exit b₁.size .next [] (by simp)).push .nop nofun
    rwa [Builder.size_link, Builder.size_push] at hdone

/-- Statements make a chain longer. -/
theorem Stmt.tied_of_lowerAll (hret : ret ≠ .void) : ∀ (stmts : List Stmt) {inLoop : Bool}
    {out : Option InstId} {b₀ b b' : Builder} {exit last : InstId},
    bare ∨ Stmt.AllWellTyped ret inLoop stmts → b.Settled → b₀.Tied bare [exit] b →
    Stmt.lowerAll out exit stmts b = .ok (last, b') → b₀.Tied bare [last] b'
  | [], inLoop, out, b₀, b, b', exit, last, _, _, htied, h => by
    obtain ⟨rfl, rfl⟩ := Stmt.lowerAll_nil_eq_ok.mp h
    exact htied
  | stmt :: rest, inLoop, out, b₀, b, b', exit, last, hfits, hb, htied, h => by
    obtain ⟨first, b₁, hfirst, hrest⟩ := Stmt.lowerAll_cons_eq_ok.mp h
    have hfitsFirst : bare ∨ Stmt.WellTyped ret inLoop stmt := by
      refine hfits.imp_right fun hfits => ?_
      cases hfits with | cons hstmt _ => exact hstmt
    have hfitsRest : bare ∨ Stmt.AllWellTyped ret inLoop rest := by
      refine hfits.imp_right fun hfits => ?_
      cases hfits with | cons _ hrest => exact hrest
    have hspans := Stmt.spans_of_lower stmt hb hfirst
    have hboth := htied.andThen (Stmt.tied_of_lower hret stmt hfitsFirst hb hfirst) hspans.grows
    exact Stmt.tied_of_lowerAll hret rest hfitsRest
      ((hb.grows hspans.grows).of_locals_eq (by simp) (by simp))
      (hboth.link exit first.entry .next [first.exit] (by simp)) hrest

end

end Statements

end WordLang
