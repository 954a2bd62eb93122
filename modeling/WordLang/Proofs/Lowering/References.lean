import WordLang.Compiler
import WordLang.Proofs.Lowering.Bodies
import WordLang.Proofs.Typing.Annotation

/-!
# What a program refers to

An instruction names something outside of its routine in two ways: it calls a function, or it takes
the address of a variable. `references` lists these, of a program in the order of the arenas, and of
a resolved tree in the order in which it is lowered. The two lists are the same
(`Tree.references_of_lower`): every name of the tree that has no register is referred to, by the
symbol that it was resolved to, and nothing else is.

The names that have registers are the parameters and the locals of the function at hand. A callee is
not looked up among them.

So the list of a tree can be computed without lowering it: which names have registers is known from
the declarations of the function. That the builder agrees with this is an invariant (`Assigns`).
Whatever is in scope and declared in the function has a register by then, and nothing else ever gets
one. The delicate places are the ones where two parts are lowered in another order than they are
read, or where names of one part are not in scope in the next: `Assigns.branches` and
`Assigns.rounds` are about these.
-/

namespace WordLang

/-- How something is referred to. -/
inductive Reference (α : Type) where
  | call (target : α)
  | address (target : α)
deriving DecidableEq

/-- What is referred to. -/
def Reference.target {α : Type} : Reference α → α
  | .call target => target
  | .address target => target

/-- The same reference to another target. -/
def Reference.map {α β : Type} (f : α → β) : Reference α → Reference β
  | .call target => .call (f target)
  | .address target => .address (f target)

/-! ## Programs

Read off the instructions of the arena, including those that cannot be reached. -/

/-- What an instruction refers to. -/
def InstKind.reference? : InstKind → Option (Reference Symbol)
  | .call _ callee _ => some (.call callee)
  | .addressAt _ base _ => some (.address base)
  | _ => none

/-- What the instructions of a routine refer to. -/
def Routine.references (routine : Routine) : List (Reference Symbol) :=
  routine.insts.toList.filterMap fun inst => inst.kind.reference?

/-- What the instructions of a program refer to. -/
def Program.references (program : Program) : List (Reference Symbol) :=
  program.routines.flatMap Routine.references

/-! ## Trees

Read off the names of a resolved tree. The order is that of lowering, which differs from that of
reading in assignments and loops. -/

/-- A name that is called is referred to, whatever it means. -/
def Ident.calls (ident : Ident) : List (Reference Symbol) :=
  (ident.symbol.map .call).toList

/-- A name that is indexed is referred to, whatever it means. -/
def Ident.indexes (ident : Ident) : List (Reference Symbol) :=
  (ident.symbol.map .address).toList

/-- A variable is referred to unless it is among the locals. -/
def Ident.loads (locals : List SymbolId) (ident : Ident) : List (Reference Symbol) :=
  ((ident.symbol.filter fun symbol => symbol.id ∉ locals).map .address).toList

mutual

/-- What an expression of a function with the given locals refers to. Of a negation only the left
operand is lowered. -/
def Expr.references (locals : List SymbolId) : Expr → List (Reference Symbol)
  | .int _ _ => []
  | .bool _ _ => []
  | .var _ ident => ident.loads locals
  | .index _ base position => position.references locals ++ base.indexes
  | .call _ callee args => Expr.referencesAll locals args ++ callee.calls
  | .unary _ _ operand => operand.references locals
  | .binary _ op left right =>
    match op with
    | .negate => left.references locals
    | _ => left.references locals ++ right.references locals

/-- What several expressions refer to. -/
def Expr.referencesAll (locals : List SymbolId) : List Expr → List (Reference Symbol)
  | [] => []
  | expr :: rest => expr.references locals ++ Expr.referencesAll locals rest

end

/-- What an assignment refers to. The address of an element is taken before the value is computed,
that of a variable after it. -/
def Assignment.references (locals : List SymbolId) (assignment : Assignment) :
    List (Reference Symbol) :=
  match assignment.location with
  | .var _ ident => assignment.value.references locals ++ ident.loads locals
  | location => location.references locals ++ assignment.value.references locals

mutual

/-- What a statement refers to. The increment of a loop is lowered after the body. -/
def Stmt.references (locals : List SymbolId) : Stmt → List (Reference Symbol)
  | .declare _ _ => []
  | .assign _ assignment => assignment.references locals
  | .call _ callee args => Expr.referencesAll locals args ++ callee.calls
  | .ifElse _ cond onTrue onFalse =>
    cond.references locals ++
      (Stmt.referencesAll locals onTrue.stmts ++ Stmt.referencesAll locals onFalse.stmts)
  | .loop _ init cond increment body =>
    init.references locals ++ (cond.references locals ++
      (Stmt.referencesAll locals body.stmts ++ increment.references locals))
  | .leave _ => []
  | .ret _ none => []
  | .ret _ (some value) => value.references locals

/-- What several statements refer to. -/
def Stmt.referencesAll (locals : List SymbolId) : List Stmt → List (Reference Symbol)
  | [] => []
  | stmt :: rest => stmt.references locals ++ Stmt.referencesAll locals rest

end

/-- What a function refers to. -/
def FunDef.references (definition : FunDef) : List (Reference Symbol) :=
  Stmt.referencesAll definition.scope definition.body.stmts

/-- What a top declaration refers to. -/
def Item.references : Item → List (Reference Symbol)
  | .global _ => []
  | .function definition => definition.references

/-- What a tree refers to. -/
def Tree.references (tree : Tree) : List (Reference Symbol) :=
  tree.items.flatMap Item.references

section

variable {ident : Ident} {symbol : Symbol} {locals : List SymbolId}

/-- A name that is called is referred to by its symbol. -/
theorem Ident.calls_of_resolved (h : ident.resolved = .ok symbol) :
    ident.calls = [.call symbol] := by
  rw [Ident.calls, (Ident.resolved_eq_ok.mp h).1]
  rfl

/-- So is a name that is indexed. -/
theorem Ident.indexes_of_resolved (h : ident.resolved = .ok symbol) :
    ident.indexes = [.address symbol] := by
  rw [Ident.indexes, (Ident.resolved_eq_ok.mp h).1]
  rfl

/-- A local is not referred to, since it has a register. -/
theorem Ident.loads_of_mem (h : ident.resolved = .ok symbol) (hmem : symbol.id ∈ locals) :
    ident.loads locals = [] := by
  simp [Ident.loads, (Ident.resolved_eq_ok.mp h).1, Option.filter, hmem]

/-- Any other variable is. -/
theorem Ident.loads_of_notMem (h : ident.resolved = .ok symbol) (hmem : symbol.id ∉ locals) :
    ident.loads locals = [.address symbol] := by
  simp [Ident.loads, (Ident.resolved_eq_ok.mp h).1, Option.filter, hmem]

end

/-! ## Builders

Only adding an instruction can add a reference. The invariant says which names have registers while
a function is lowered; it changes where a construct declares something, and is kept everywhere else.
-/

namespace Builder

/-- What was referred to so far. -/
def references (b : Builder) : List (Reference Symbol) :=
  b.routine.references

variable {b b' : Builder}

/-- An instruction adds what it refers to. -/
@[simp]
theorem references_push (kind : InstKind) :
    (b.push kind).references = b.references ++ kind.reference?.toList := by
  simp only [references, Routine.references, push, Routine.push, Array.toList_push,
    List.filterMap_append]
  cases h : kind.reference? <;> simp [h]

/-- A successor is none of the things that an instruction refers to. -/
@[simp]
theorem references_link (source target : InstId) (edge : Edge) :
    (b.link source target edge).references = b.references := by
  have hkinds : (b.link source target edge).routine.insts.toList.map (·.kind) =
      b.routine.insts.toList.map (·.kind) := by
    apply List.ext_getElem?
    intro id
    have hinst : (b.link source target edge).inst? id =
      if source = id then (b.inst? id).map (·.link target edge) else b.inst? id := inst?_link
    rw [inst?, inst?] at hinst
    rw [List.getElem?_map, List.getElem?_map, Array.getElem?_toList, Array.getElem?_toList, hinst]
    split
    · rw [Option.map_map]
      congr 1
      funext inst
      exact Inst.kind_link inst target edge
    · rfl
  have hmap := congrArg (List.filterMap InstKind.reference?) hkinds
  rwa [List.filterMap_map, List.filterMap_map] at hmap

/-- A register is not a reference. -/
@[simp]
theorem references_takeTemp : b.takeTemp.references = b.references := rfl

/-- Nor is one for an address. -/
@[simp]
theorem references_takeAddr : b.takeAddr.references = b.references := rfl

/-- Nor is one for a result. -/
@[simp]
theorem references_takeResult (hasValue : Bool) :
    (b.takeResult hasValue).references = b.references := by
  cases hasValue <;> rfl

/-- Nor is a constant. -/
@[simp]
theorem references_intern (constant : Constant) :
    (b.intern constant).references = b.references := rfl

/-- A local is not referred to by being declared. -/
@[simp]
theorem references_bindNext (symbol : Symbol) :
    (b.bindNext symbol).references = b.references := rfl

/-- What is known has a register, and only locals have one. -/
structure Assigns (b : Builder) (floor : Nat) (known locals : List SymbolId) : Prop where
  separated : b.Separated
  known_sub : known ⊆ b.ids
  ids_sub : b.ids ⊆ locals
  floor_le : ∀ id ∈ locals, floor ≤ id.index

namespace Assigns

variable {floor : Nat} {known locals : List SymbolId} {chain : Chain}

/-- What has a register does not change while the locals do not. -/
theorem of_locals_eq (h : b.Assigns floor known locals) (heq : b'.locals = b.locals)
    (hle : b.routine.temps ≤ b'.routine.temps) : b'.Assigns floor known locals where
  separated := h.separated.of_locals_eq heq hle
  known_sub := by
    rw [ids, heq]
    exact h.known_sub
  ids_sub := by
    rw [ids, heq]
    exact h.ids_sub
  floor_le := h.floor_le

/-- Evaluating an expression declares nothing. -/
theorem evaluated (h : b.Assigns floor known locals) {expr : Expr}
    (hlower : expr.lower b = .ok (chain, b')) : b'.Assigns floor known locals := by
  have hexpr := expr.evaluates_of_lower h.separated.settled hlower
  exact h.of_locals_eq hexpr.locals_eq hexpr.grows.temps_le

/-- Nor does an assignment. -/
theorem assigned (h : b.Assigns floor known locals) {assignment : Assignment}
    (hlower : assignment.lower b = .ok (chain, b')) : b'.Assigns floor known locals := by
  obtain ⟨hspans, hlocals⟩ := Assignment.spans_of_lower h.separated.settled hlower
  exact h.of_locals_eq hlocals hspans.grows.temps_le

/-- After a construct that declares some of the locals, these are known too. -/
theorem declares (h : b.Assigns floor known locals) {ids : List SymbolId}
    (hdeclares : b.Declares b' ids) (hids : ids ⊆ locals) :
    b'.Assigns floor (ids ++ known) locals where
  separated := hdeclares.separated
  known_sub := by
    rw [hdeclares.ids_eq]
    exact List.append_subset.mpr ⟨List.subset_append_left _ _,
      List.Subset.trans h.known_sub (List.subset_append_right _ _)⟩
  ids_sub := by
    rw [hdeclares.ids_eq]
    exact List.append_subset.mpr ⟨hids, h.ids_sub⟩
  floor_le := h.floor_le

/-- What was known before is still known. -/
theorem forget (h : b.Assigns floor known locals) {less : List SymbolId} (hless : less ⊆ known) :
    b.Assigns floor less locals :=
  ⟨h.separated, List.Subset.trans hless h.known_sub, h.ids_sub, h.floor_le⟩

/-- Where the two branches of a conditional are lowered from. What the first one declares has a
register in the second one too. -/
theorem branches {cond : Expr} {onTrue : Block Stmt} {out : Option InstId} {value : Temp}
    {b₁ b₂ : Builder} {trueExit : InstId} (h : b.Assigns floor known locals)
    (hdeclares : Stmt.declaresAll onTrue.stmts ⊆ locals) (hcond : cond.lower b = .ok (chain, b₁))
    (htrue : Stmt.lowerAll out (b₁.size + 1) onTrue.stmts
      (((b₁.push (.jump value)).link chain.exit b₁.size .next).push .nop) = .ok (trueExit, b₂)) :
    (((b₁.push (.jump value)).link chain.exit b₁.size .next).push .nop).Assigns floor known locals ∧
      (b₂.push .nop).Assigns floor (Stmt.declaresAll onTrue.stmts ++ known) locals := by
  have hfirst : (((b₁.push (.jump value)).link chain.exit b₁.size .next).push .nop).Assigns floor
      known locals := (h.evaluated hcond).of_locals_eq (by simp) (by simp)
  have hsecond := hfirst.declares
    (Stmt.declaresAll_of_lowerAll onTrue.stmts hfirst.separated htrue) hdeclares
  exact ⟨hfirst, hsecond.of_locals_eq (by simp) (by simp)⟩

/-- Where the condition, the body and the increment of a loop are lowered from. The increment is
lowered after the body, but knows nothing of what the body declares. -/
theorem rounds {init : Assignment} {cond : Expr} {body : Block Stmt} {out : Option InstId}
    {value : Temp} {first test : Chain} {b₁ b₂ b₃ : Builder} {bodyExit : InstId}
    (h : b.Assigns floor known locals) (hdeclares : Stmt.declaresAll body.stmts ⊆ locals)
    (hinit : init.lower b = .ok (first, b₁)) (hcond : cond.lower b₁ = .ok (test, b₂))
    (hbody : Stmt.lowerAll out (b₂.size + 2) body.stmts
      (((((b₂.push (.jump value)).push .nop).link first.exit test.entry .next).link
        test.exit b₂.size .next).push .nop) = .ok (bodyExit, b₃)) :
    b₁.Assigns floor known locals ∧
      (((((b₂.push (.jump value)).push .nop).link first.exit test.entry .next).link
        test.exit b₂.size .next).push .nop).Assigns floor known locals ∧
      b₃.Assigns floor known locals := by
  have hassigned := h.assigned hinit
  have hinside : (((((b₂.push (.jump value)).push .nop).link first.exit test.entry .next).link
      test.exit b₂.size .next).push .nop).Assigns floor known locals :=
    (hassigned.evaluated hcond).of_locals_eq (by simp) (by simp)
  have hafter := hinside.declares
    (Stmt.declaresAll_of_lowerAll body.stmts hinside.separated hbody) hdeclares
  exact ⟨hassigned, hinside, hafter.forget (List.subset_append_right _ _)⟩

end Assigns

end Builder

/-- A name in scope has a register exactly when it is that of a local. -/
theorem Ident.Uses.lookup_eq_none_iff {ok : Ty → Bool} {floor : Nat} {known locals : List SymbolId}
    {ident : Ident} {symbol : Symbol} {b : Builder} (h : ident.Uses ok floor known)
    (hb : b.Assigns floor known locals) (hsymbol : ident.resolved = .ok symbol) :
    b.locals.lookup symbol.id = none ↔ symbol.id ∉ locals := by
  have hlookup : b.locals.lookup symbol.id = none ↔ symbol.id ∉ b.ids := by
    rw [List.lookup_eq_none_iff, Builder.ids, List.mem_map]
    refine ⟨fun hnone hmem => ?_, fun hnone entry hentry => ?_⟩
    · obtain ⟨entry, hentry, heq⟩ := hmem
      simpa [heq] using hnone entry hentry
    · exact bne_iff_ne.mpr fun heq => hnone ⟨entry, hentry, heq.symm⟩
  rw [hlookup]
  refine ⟨fun hnone hmem => ?_, fun hnone hmem => hnone (hb.ids_sub hmem)⟩
  obtain ⟨other, hother, -, hscope⟩ := h
  obtain rfl := Option.some.inj ((Ident.resolved_eq_ok.mp hsymbol).1.symm.trans hother)
  -- a name in scope is known, or it is global and its id comes before those of all locals
  rcases hscope with hknown | hglobal
  · exact hnone (hb.known_sub hknown)
  · exact absurd hglobal (Nat.not_lt.mpr (hb.floor_le _ hmem))

/-- What has a register is a local. -/
theorem Ident.Uses.mem_of_lookup {ok : Ty → Bool} {floor : Nat} {known locals : List SymbolId}
    {ident : Ident} {symbol : Symbol} {b : Builder} {temp : Temp} (h : ident.Uses ok floor known)
    (hb : b.Assigns floor known locals) (hsymbol : ident.resolved = .ok symbol)
    (hlookup : b.locals.lookup symbol.id = some temp) : symbol.id ∈ locals := by
  by_contra hnot
  rw [(h.lookup_eq_none_iff hb hsymbol).mpr hnot] at hlookup
  cases hlookup

/-! ## Lowering

By recursion on the tree: what a construct adds to the references is what it refers to. Each case
follows the operations of its construct, of which only a few refer to anything. -/

section

variable {ok : Ty → Bool} {floor : Nat} {locals : List SymbolId}

/-- The value of a name is loaded from its address, unless it is in a register. -/
theorem Lower.references_varValue {known : List SymbolId} {ident : Ident} {b b' : Builder}
    {chain : Chain} (hb : b.Assigns floor known locals) (hscoped : ident.Uses ok floor known)
    (h : Lower.varValue ident b = .ok (chain, b')) :
    b'.references = b.references ++ ident.loads locals := by
  obtain ⟨symbol, hsymbol, ⟨temp, hlookup, rfl, -⟩ | ⟨hlookup, rfl, -⟩⟩ :=
    Lower.varValue_eq_ok.mp h
  · have hmem := hscoped.mem_of_lookup hb hsymbol hlookup
    simp [Ident.loads_of_mem hsymbol hmem, InstKind.reference?]
  · have hmem := (hscoped.lookup_eq_none_iff hb hsymbol).mp hlookup
    simp [Ident.loads_of_notMem hsymbol hmem, InstKind.reference?]

mutual

/-- What an expression adds to the references. -/
theorem Expr.references_of_lower : ∀ (expr : Expr) {known : List SymbolId} {b b' : Builder}
    {chain : Chain}, b.Assigns floor known locals → expr.Scoped ok floor known →
    expr.lower b = .ok (chain, b') → b'.references = b.references ++ expr.references locals
  | .int _ _, _, b, _, _, _, _, h => by
    obtain ⟨rfl, -⟩ := Expr.lower_int_eq_ok.mp h
    simp [Expr.references, InstKind.reference?]
  | .bool _ _, _, b, _, _, _, _, h => by
    obtain ⟨rfl, -⟩ := Expr.lower_bool_eq_ok.mp h
    simp [Expr.references, InstKind.reference?]
  | .var _ ident, _, _, _, _, hb, hscoped, h => Lower.references_varValue hb hscoped h
  | .index _ base position, _, b, _, _, hb, hscoped, h => by
    obtain ⟨symbol, hsymbol, index, b₁, hindex, offset, -, rfl, -⟩ := Expr.lower_index_eq_ok.mp h
    have hposition := Expr.references_of_lower position hb hscoped.2 hindex
    simp [Expr.references, Ident.indexes_of_resolved hsymbol, hposition, InstKind.reference?]
  | .call _ callee args, _, b, _, _, hb, hscoped, h => by
    obtain ⟨symbol, hsymbol, params, ret, -, temps, exit, b₁, hargs, rfl, -⟩ :=
      Expr.lower_call_eq_ok.mp h
    have hargs := Expr.references_of_lowerArgs args (hb.of_locals_eq (by simp) (by simp))
      hscoped.2 hargs
    simp [Expr.references, Ident.calls_of_resolved hsymbol, hargs, InstKind.reference?]
  | .unary _ op operand, _, b, _, _, hb, hscoped, h => by
    obtain ⟨left, b₁, hleft, value, -, -, rfl, -⟩ := Expr.lower_unary_eq_ok.mp h
    have hoperand := Expr.references_of_lower operand hb hscoped hleft
    simp [Expr.references, hoperand, InstKind.reference?]
  | .binary _ op left right, _, b, _, _, hb, hscoped, h => by
    cases op with
    | negate =>
      -- the right operand is ignored
      obtain ⟨l, b₁, hl, value, -, rfl, -⟩ := Expr.lower_negate_eq_ok.mp h
      have hleft := Expr.references_of_lower left hb hscoped.1 hl
      simp [Expr.references, hleft, InstKind.reference?]
    | arith op =>
      obtain ⟨l, b₁, hl, value, -, r, b₂, hr, value', -, rfl, -⟩ := Expr.lower_arith_eq_ok.mp h
      have hleft := Expr.references_of_lower left hb hscoped.1 hl
      have hright := Expr.references_of_lower right (hb.evaluated hl) hscoped.2 hr
      simp [Expr.references, hleft, hright, InstKind.reference?]
    | compare op =>
      obtain ⟨l, b₁, hl, value, -, r, b₂, hr, value', -, rfl, -⟩ := Expr.lower_compare_eq_ok.mp h
      have hleft := Expr.references_of_lower left hb hscoped.1 hl
      have hright := Expr.references_of_lower right (hb.evaluated hl) hscoped.2 hr
      simp [Expr.references, hleft, hright, InstKind.reference?]
    | connect op =>
      obtain ⟨l, b₁, hl, value, -, r, b₂, hr, value', -, rfl, -⟩ := Expr.lower_connect_eq_ok.mp h
      have hleft := Expr.references_of_lower left hb hscoped.1 hl
      have hright := Expr.references_of_lower right
        ((hb.evaluated hl).of_locals_eq (by simp) (by simp)) hscoped.2 hr
      simp [Expr.references, hleft, hright, InstKind.reference?]

/-- What arguments add, in order. The call itself comes after them. -/
theorem Expr.references_of_lowerArgs : ∀ (args : List Expr) {known : List SymbolId}
    {b b' : Builder} {exit last : InstId} {temps : List Temp}, b.Assigns floor known locals →
    Expr.ScopedAll ok floor known args → Expr.lowerArgs exit args b = .ok ((temps, last), b') →
    b'.references = b.references ++ Expr.referencesAll locals args
  | [], _, b, _, _, _, _, _, _, h => by
    obtain ⟨-, -, rfl⟩ := Expr.lowerArgs_nil_eq_ok.mp h
    simp [Expr.referencesAll]
  | arg :: rest, _, b, _, _, _, _, hb, hscoped, h => by
    obtain ⟨first, b₁, hfirst, temp, -, others, hrest, -⟩ := Expr.lowerArgs_cons_eq_ok.mp h
    have harg := Expr.references_of_lower arg hb hscoped.1 hfirst
    have hrest := Expr.references_of_lowerArgs rest
      ((hb.evaluated hfirst).of_locals_eq (by simp) (by simp)) hscoped.2 hrest
    simp [Expr.referencesAll, harg, hrest]

end

/-- What an assignment adds. -/
theorem Assignment.references_of_lower {known : List SymbolId} {assignment : Assignment}
    {b b' : Builder} {chain : Chain} (hb : b.Assigns floor known locals)
    (hscoped : assignment.Scoped ok floor known) (h : assignment.lower b = .ok (chain, b')) :
    b'.references = b.references ++ assignment.references locals := by
  obtain ⟨info, location, value⟩ := assignment
  obtain ⟨hplace, hlocation, hvalue⟩ := hscoped
  cases location with
  | var place ident =>
    have hident : ident.Uses ok floor known := hlocation
    obtain ⟨symbol, hsymbol, v, b₁, hv, src, -, ⟨dst, hlookup, rfl, -⟩ | ⟨hlookup, rfl, -⟩⟩ :=
      Assignment.lower_var_eq_ok.mp h
    · have hmem := hident.mem_of_lookup hb hsymbol hlookup
      have hvalue := Expr.references_of_lower value hb hvalue hv
      simp [Assignment.references, Ident.loads_of_mem hsymbol hmem, hvalue, InstKind.reference?]
    · have hmem := (hident.lookup_eq_none_iff hb hsymbol).mp hlookup
      have hvalue := Expr.references_of_lower value hb hvalue hv
      simp [Assignment.references, Ident.loads_of_notMem hsymbol hmem, hvalue,
        InstKind.reference?]
  | index place base position =>
    obtain ⟨symbol, hsymbol, index, b₁, hindex, offset, -, v, b₂, hv, src, -, rfl, -⟩ :=
      Assignment.lower_index_eq_ok.mp h
    have hposition := Expr.references_of_lower position hb hlocation.2 hindex
    have hvalue := Expr.references_of_lower value
      ((hb.evaluated hindex).of_locals_eq (by simp) (by simp)) hvalue hv
    simp [Assignment.references, Expr.references, Ident.indexes_of_resolved hsymbol, hposition,
      hvalue, InstKind.reference?]
  | _ => cases hplace

mutual

/-- What a statement adds. It may declare some of the locals of its function. -/
theorem Stmt.references_of_lower : ∀ (stmt : Stmt) {known : List SymbolId} {out : Option InstId}
    {b b' : Builder} {chain : Chain}, b.Assigns floor known locals → stmt.declares ⊆ locals →
    stmt.Scoped ok floor known → stmt.lower out b = .ok (chain, b') →
    b'.references = b.references ++ stmt.references locals
  | .declare _ decl, _, _, b, _, _, _, _, _, h => by
    obtain ⟨symbol, -, rfl, -⟩ := Stmt.lower_declare_eq_ok.mp h
    simp [Stmt.references, InstKind.reference?]
  | .assign _ assignment, _, _, _, _, _, hb, _, hscoped, h => by
    rw [Stmt.lower_assign] at h
    exact Assignment.references_of_lower hb hscoped h
  | .call info callee args, known, _, _, _, _, hb, _, hscoped, h => by
    have hcall : (Expr.call info callee args).Scoped ok floor known := hscoped
    rw [Stmt.lower_call] at h
    exact Expr.references_of_lower _ hb hcall h
  | .ifElse _ cond onTrue onFalse, _, _, b, _, _, hb, hdeclares, hscoped, h => by
    obtain ⟨c, b₁, hc, value, -, trueExit, b₂, htrue, falseExit, b₃, hfalse, rfl, -⟩ :=
      Stmt.lower_ifElse_eq_ok.mp h
    obtain ⟨hsubFalse, hsubTrue⟩ := List.append_subset.mp hdeclares
    obtain ⟨hb₁, hb₂⟩ := hb.branches hsubTrue hc htrue
    have hcond := Expr.references_of_lower cond hb hscoped.1 hc
    have hinTrue := Stmt.references_of_lowerAll onTrue.stmts hb₁ hsubTrue hscoped.2.1 htrue
    have hinFalse := Stmt.references_of_lowerAll onFalse.stmts hb₂ hsubFalse hscoped.2.2 hfalse
    simp [Stmt.references, hcond, hinTrue, hinFalse, InstKind.reference?]
  | .loop _ init cond increment body, _, _, b, _, _, hb, hdeclares, hscoped, h => by
    obtain ⟨i, b₁, hi, c, b₂, hc, value, -, bodyExit, b₃, hbody, step, b₄, hstep, rfl, -⟩ :=
      Stmt.lower_loop_eq_ok.mp h
    obtain ⟨hscopedInit, hscopedCond, hscopedStep, hscopedBody⟩ := hscoped
    obtain ⟨hb₁, hb₂, hb₃⟩ := hb.rounds hdeclares hi hc hbody
    have hinit := Assignment.references_of_lower hb hscopedInit hi
    have hcond := Expr.references_of_lower cond hb₁ hscopedCond hc
    have hinBody := Stmt.references_of_lowerAll body.stmts hb₂ hdeclares hscopedBody hbody
    have hincrement := Assignment.references_of_lower hb₃ hscopedStep hstep
    simp [Stmt.references, hinit, hcond, hinBody, hincrement, InstKind.reference?]
  | .leave _, _, _, b, _, _, _, _, _, h => by
    obtain ⟨target, -, rfl, -⟩ := Stmt.lower_leave_eq_ok.mp h
    simp [Stmt.references, InstKind.reference?]
  | .ret _ none, _, _, b, _, _, _, _, _, h => by
    obtain ⟨rfl, -⟩ := Stmt.lower_ret_none_eq_ok.mp h
    simp [Stmt.references, InstKind.reference?]
  | .ret _ (some value), known, _, b, _, _, hb, _, hscoped, h => by
    have hscoped' : value.Scoped ok floor known := hscoped
    obtain ⟨v, b₁, hv, rfl, -⟩ := Stmt.lower_ret_some_eq_ok.mp h
    have hvalue := Expr.references_of_lower value hb hscoped' hv
    simp [Stmt.references, hvalue, InstKind.reference?]

/-- What a block adds. -/
theorem Stmt.references_of_lowerAll : ∀ (stmts : List Stmt) {known : List SymbolId}
    {out : Option InstId} {b b' : Builder} {exit last : InstId}, b.Assigns floor known locals →
    Stmt.declaresAll stmts ⊆ locals → Stmt.ScopedAll ok floor known stmts →
    Stmt.lowerAll out exit stmts b = .ok (last, b') →
    b'.references = b.references ++ Stmt.referencesAll locals stmts
  | [], _, _, b, _, _, _, _, _, _, h => by
    obtain ⟨-, rfl⟩ := Stmt.lowerAll_nil_eq_ok.mp h
    simp [Stmt.referencesAll]
  | stmt :: rest, _, _, b, _, _, _, hb, hdeclares, hscoped, h => by
    obtain ⟨first, b₁, hfirst, hrest⟩ := Stmt.lowerAll_cons_eq_ok.mp h
    obtain ⟨hsubRest, hsub⟩ := List.append_subset.mp hdeclares
    have hstmt := Stmt.references_of_lower stmt hb hsub hscoped.1 hfirst
    have hb₁ := hb.declares (Stmt.declares_of_lower stmt hb.separated hfirst) hsub
    have hrest := Stmt.references_of_lowerAll rest (hb₁.of_locals_eq (by simp) (by simp)) hsubRest
      hscoped.2 hrest
    simp [Stmt.referencesAll, hstmt, hrest]

end

/-- The body of a function is lowered from a builder that knows the parameters, in which nothing was
added to the arena and each parameter took a register. Everything the body declares is in the scope
of the function. -/
theorem FunDef.exists_assigns_of_lower {definition : FunDef} {constants pool : List Constant}
    {routine : Routine} (hscoped : definition.Scoped ok)
    (h : definition.lower constants = .ok (routine, pool)) :
    ∃ floor name registers b₁ b₂ last, Param.lowerAll definition.params
        (.start constants name definition.ty) = .ok (registers, b₁) ∧
      b₁.routine.insts = #[{ kind := .nop }] ∧
      (b₁.withArgs registers).Assigns floor (Param.declaresAll definition.params)
        definition.scope ∧
      Stmt.ScopedAll ok floor (Param.declaresAll definition.params) definition.body.stmts ∧
      Stmt.lowerAll none b₁.routine.start definition.body.stmts (b₁.withArgs registers) =
        .ok (last, b₂) ∧ routine = b₂.routine := by
  obtain ⟨-, floor, hparams, hbody⟩ := hscoped
  obtain ⟨symbol, -, registers, b₁, hregisters, last, b₂, hlower, rfl, rfl⟩ :=
    FunDef.lower_eq_ok.mp h
  have hstarts := FunDef.lowersBody_of_params hregisters hlower
  have hb₁ : (b₁.withArgs registers).Assigns floor (Param.declaresAll definition.params)
      definition.scope :=
    ⟨hstarts.separated, hstarts.ids_eq ▸ List.Subset.refl _,
      hstarts.ids_eq ▸ List.subset_append_right _ _, (FunDef.distinct_scope hparams hbody).floor_le⟩
  exact ⟨floor, symbol.name, registers, b₁, b₂, last, hregisters, hstarts.insts_eq, hb₁, hbody,
    hlower, rfl⟩

/-- The references of a routine are those of its function. -/
theorem FunDef.references_of_lower {definition : FunDef} {constants pool : List Constant}
    {routine : Routine} (hscoped : definition.Scoped ok)
    (h : definition.lower constants = .ok (routine, pool)) :
    routine.references = definition.references := by
  obtain ⟨floor, name, registers, b₁, b₂, last, -, hinsts, hb₁, hbody, hlower, rfl⟩ :=
    FunDef.exists_assigns_of_lower hscoped h
  have hreferences := Stmt.references_of_lowerAll definition.body.stmts hb₁
    (List.subset_append_left _ _) hbody hlower
  have hempty : (b₁.withArgs registers).references = [] := by
    rw [Builder.references, Routine.references]
    change b₁.routine.insts.toList.filterMap _ = []
    rw [hinsts]
    rfl
  rwa [hempty, List.nil_append] at hreferences

/-- A top declaration adds its references to those of the program. A global has none. -/
theorem Item.references_of_lower {item : Item} {program program' : Program}
    (hscoped : item.Scoped ok) (h : item.lower program = .ok program') :
    program'.references = program.references ++ item.references := by
  cases item with
  | global decl =>
    obtain ⟨symbol, -, rfl⟩ := Item.lower_global_eq_ok.mp h
    simp [Program.references, Item.references]
  | function definition =>
    obtain ⟨routine, pool, hlower, rfl⟩ := Item.lower_function_eq_ok.mp h
    simp [Program.references, Item.references, FunDef.references_of_lower hscoped hlower]

/-- Several of them add theirs in order. -/
theorem Item.references_of_lowerAll {items : List Item} {program program' : Program}
    (hscoped : ∀ item ∈ items, item.Scoped ok)
    (h : items.foldlM Item.lower program = .ok program') :
    program'.references = program.references ++ items.flatMap Item.references := by
  induction items generalizing program with
  | nil =>
    cases h
    simp
  | cons item rest ih =>
    obtain ⟨mid, hitem, hrest⟩ := Item.lowerAll_cons_eq_ok.mp h
    rw [List.forall_mem_cons] at hscoped
    rw [ih hscoped.2 hrest, Item.references_of_lower hscoped.1 hitem, List.flatMap_cons,
      List.append_assoc]

end

/-- A program refers to what the names of its tree were resolved to, in the order of lowering. -/
theorem Tree.references_of_lower {ok : Ty → Bool}
    (hbuiltins : ∀ entry ∈ builtins, ok entry.2 = true) {tree : Tree} {nextId : Nat}
    {program : Program} (hplain : tree.items.all (Item.plain ok) = true)
    (hquiet : (tree.resolve nextId).2.errors = [])
    (hlower : (tree.check nextId).tree.lower = .ok program) :
    program.references = (tree.resolve nextId).1.references := by
  obtain ⟨hscoped, -⟩ := Tree.scoped_of_resolve hbuiltins hplain hquiet
  exact Item.references_of_lowerAll hscoped ((Tree.lower_annotate _).symm.trans hlower)

end WordLang
