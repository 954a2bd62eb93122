import WordLang.Proofs.Lowering.References

/-!
# How many registers a function takes

Lowering takes a register for every parameter and declaration, for the value of every literal and
operator, for the result of a call that has one, and for the address of everything that is not in a
register already; a load takes one more. None is ever given back, so the registers of a function can
be counted on the resolved tree (`FunDef.taken_of_lower`), and nothing bounds them but its size.

Registers for values and for addresses are counted together, as each of them has a slot of its own
in the frame.

Whether a name takes registers depends on whether it has one already. That is known from the
declarations of the function, and the invariant of the builder that says so (`Builder.Assigns`) is
the one that references are found with.

The count is exact, so it tells in both directions: how large a function may be for its frame to be
opened, and that there are functions for which it cannot be. The frame of such a function is the
subject of `WordLang.Proofs.FrameSize`.
-/

namespace WordLang

/-! ## Counting

By recursion on the tree, in the order of lowering; for sums the order makes no difference. -/

/-- A call takes a register if it returns something. A callee that is no function cannot be lowered,
so its case does not matter. -/
def Ident.results (callee : Ident) : Nat :=
  match callee.ty with
  | .func _ ret => if ret.isVoid then 0 else 1
  | _ => 0

mutual

/-- The registers that an expression of a function with the given locals takes. Of a negation only
the left operand is lowered. A connective takes as many as any other operation with two operands,
since both sides write the same register. -/
def Expr.takes (locals : List SymbolId) : Expr → Nat
  | .int _ _ => 1
  | .bool _ _ => 1
  | .var _ ident => 2 * (ident.loads locals).length
  | .index _ _ position => position.takes locals + 2
  | .call _ callee args => Expr.takesAll locals args + callee.results
  | .unary _ _ operand => operand.takes locals + 1
  | .binary _ op left right =>
    match op with
    | .negate => left.takes locals + 1
    | _ => left.takes locals + right.takes locals + 1

/-- The registers that several expressions take. -/
def Expr.takesAll (locals : List SymbolId) : List Expr → Nat
  | [] => 0
  | expr :: rest => expr.takes locals + Expr.takesAll locals rest

end

/-- The registers that it takes to store to a place: one for its address, if it has one. -/
def Expr.storeTakes (locals : List SymbolId) : Expr → Nat
  | .var _ ident => (ident.loads locals).length
  | .index _ _ position => position.takes locals + 1
  | _ => 0

/-- The registers that an assignment takes. -/
def Assignment.takes (locals : List SymbolId) (assignment : Assignment) : Nat :=
  assignment.location.storeTakes locals + assignment.value.takes locals

mutual

/-- The registers that a statement takes. Those of a branch that is not taken count as well. -/
def Stmt.takes (locals : List SymbolId) : Stmt → Nat
  | .declare _ _ => 1
  | .assign _ assignment => assignment.takes locals
  | .call _ callee args => Expr.takesAll locals args + callee.results
  | .ifElse _ cond onTrue onFalse =>
    cond.takes locals + (Stmt.takesAll locals onTrue.stmts + Stmt.takesAll locals onFalse.stmts)
  | .loop _ init cond increment body =>
    init.takes locals + cond.takes locals + Stmt.takesAll locals body.stmts +
      increment.takes locals
  | .leave _ => 0
  | .ret _ none => 0
  | .ret _ (some value) => value.takes locals

/-- The registers that several statements take. -/
def Stmt.takesAll (locals : List SymbolId) : List Stmt → Nat
  | [] => 0
  | stmt :: rest => stmt.takes locals + Stmt.takesAll locals rest

end

/-- The registers that a function takes. The locals are those of the whole function, though each of
them is known only from its declaration on; a name that is used before that means something else,
with another id. -/
def FunDef.takes (definition : FunDef) : Nat :=
  definition.params.length + Stmt.takesAll definition.scope definition.body.stmts

section

variable {ident : Ident} {symbol : Symbol} {locals : List SymbolId}

/-- A call takes a register for its result unless it returns nothing. -/
theorem Ident.results_of_resolved {params : List Ty} {ret : Ty} (h : ident.resolved = .ok symbol)
    (hty : symbol.ty = some (.func params ret)) :
    ident.results = if ret.isVoid then 0 else 1 := by
  have hident : ident.ty = .func params ret := by
    rw [Ident.ty, (Ident.resolved_eq_ok.mp h).1, Option.bind_some, hty]
    rfl
  rw [Ident.results, hident]

end

/-! ## Builders

Which operations take a register. All the others leave the count as it is, and simp knows them. -/

namespace Builder

/-- The registers that were taken so far. -/
def taken (b : Builder) : Nat :=
  b.routine.temps + b.routine.addrs

variable {b : Builder}

/-- An instruction takes none. -/
@[simp]
theorem taken_push (kind : InstKind) : (b.push kind).taken = b.taken := rfl

/-- Nor does an edge. -/
@[simp]
theorem taken_link (source target : InstId) (edge : Edge) :
    (b.link source target edge).taken = b.taken := rfl

/-- This one does. -/
@[simp]
theorem taken_takeTemp : b.takeTemp.taken = b.taken + 1 :=
  Nat.add_right_comm b.routine.temps 1 b.routine.addrs

/-- So does this one. -/
@[simp]
theorem taken_takeAddr : b.takeAddr.taken = b.taken + 1 := rfl

/-- This one does if there is a result. -/
@[simp]
theorem taken_takeResult (ret : Ty) :
    (b.takeResult (! ret.isVoid)).taken = b.taken + if ret.isVoid then 0 else 1 := by
  cases ret.isVoid
  · exact taken_takeTemp
  · rfl

/-- A constant takes none; the literal that it is for does. -/
@[simp]
theorem taken_intern (constant : Constant) : (b.intern constant).taken = b.taken := rfl

/-- A local takes one. -/
@[simp]
theorem taken_bindNext (symbol : Symbol) : (b.bindNext symbol).taken = b.taken + 1 :=
  taken_takeTemp

/-- The registers of the arguments were taken before. -/
@[simp]
theorem taken_withArgs (args : List Temp) : (b.withArgs args).taken = b.taken := rfl

end Builder

/-! ## Lowering

By recursion on the tree, one equation for each operation of a construct. -/

section

variable {ok : Ty → Bool} {floor : Nat} {locals : List SymbolId}

/-- A name that has no register takes two, for its address and for its value. One that has takes
none. -/
theorem Lower.taken_varValue {known : List SymbolId} {ident : Ident} {b b' : Builder}
    {chain : Chain} (hb : b.Assigns floor known locals) (hscoped : ident.Uses ok floor known)
    (h : Lower.varValue ident b = .ok (chain, b')) :
    b'.taken = b.taken + 2 * (ident.loads locals).length := by
  obtain ⟨symbol, hsymbol, ⟨temp, hlookup, rfl, -⟩ | ⟨hlookup, rfl, -⟩⟩ :=
    Lower.varValue_eq_ok.mp h
  · have hmem := hscoped.mem_of_lookup hb hsymbol hlookup
    simp [Ident.loads_of_mem hsymbol hmem]
  · have hmem := (hscoped.lookup_eq_none_iff hb hsymbol).mp hlookup
    simp [Ident.loads_of_notMem hsymbol hmem]

mutual

/-- The registers that an expression takes. The equations of the inversion lemma say which
operations were performed, and each of them is counted. -/
theorem Expr.taken_of_lower : ∀ (expr : Expr) {known : List SymbolId} {b b' : Builder}
    {chain : Chain}, b.Assigns floor known locals → expr.Scoped ok floor known →
    expr.lower b = .ok (chain, b') → b'.taken = b.taken + expr.takes locals
  | .int _ _, _, _, _, _, _, _, h => by
    obtain ⟨rfl, -⟩ := Expr.lower_int_eq_ok.mp h
    simp [Expr.takes]
  | .bool _ _, _, _, _, _, _, _, h => by
    obtain ⟨rfl, -⟩ := Expr.lower_bool_eq_ok.mp h
    simp [Expr.takes]
  | .var _ ident, _, _, _, _, hb, hscoped, h => Lower.taken_varValue hb hscoped h
  | .index _ base position, _, _, _, _, hb, hscoped, h => by
    obtain ⟨symbol, -, index, b₁, hindex, offset, -, rfl, -⟩ := Expr.lower_index_eq_ok.mp h
    have hposition := Expr.taken_of_lower position hb hscoped.2 hindex
    simp [Expr.takes, hposition, Nat.add_assoc]
  | .call _ callee args, _, _, _, _, hb, hscoped, h => by
    obtain ⟨symbol, hsymbol, params, ret, hty, temps, exit, b₁, hargs, rfl, -⟩ :=
      Expr.lower_call_eq_ok.mp h
    have hargs := Expr.taken_of_lowerArgs args (hb.of_locals_eq (by simp) (by simp)) hscoped.2 hargs
    simp [Expr.takes, Ident.results_of_resolved hsymbol hty, hargs, Nat.add_assoc]
  | .unary _ op operand, _, _, _, _, hb, hscoped, h => by
    obtain ⟨left, b₁, hleft, value, -, -, rfl, -⟩ := Expr.lower_unary_eq_ok.mp h
    have hoperand := Expr.taken_of_lower operand hb hscoped hleft
    simp [Expr.takes, hoperand, Nat.add_assoc]
  | .binary _ op left right, _, _, _, _, hb, hscoped, h => by
    cases op with
    | negate =>
      -- the right operand is ignored
      obtain ⟨l, b₁, hl, value, -, rfl, -⟩ := Expr.lower_negate_eq_ok.mp h
      have hleft := Expr.taken_of_lower left hb hscoped.1 hl
      simp [Expr.takes, hleft, Nat.add_assoc]
    | arith op =>
      obtain ⟨l, b₁, hl, value, -, r, b₂, hr, value', -, rfl, -⟩ := Expr.lower_arith_eq_ok.mp h
      have hleft := Expr.taken_of_lower left hb hscoped.1 hl
      have hright := Expr.taken_of_lower right (hb.evaluated hl) hscoped.2 hr
      simp [Expr.takes, hleft, hright, Nat.add_assoc]
    | compare op =>
      obtain ⟨l, b₁, hl, value, -, r, b₂, hr, value', -, rfl, -⟩ := Expr.lower_compare_eq_ok.mp h
      have hleft := Expr.taken_of_lower left hb hscoped.1 hl
      have hright := Expr.taken_of_lower right (hb.evaluated hl) hscoped.2 hr
      simp [Expr.takes, hleft, hright, Nat.add_assoc]
    | connect op =>
      -- the register that both ways write is taken before the right operand is lowered
      obtain ⟨l, b₁, hl, value, -, r, b₂, hr, value', -, rfl, -⟩ := Expr.lower_connect_eq_ok.mp h
      have hleft := Expr.taken_of_lower left hb hscoped.1 hl
      have hright := Expr.taken_of_lower right
        ((hb.evaluated hl).of_locals_eq (by simp) (by simp)) hscoped.2 hr
      simp only [Builder.taken_push, Builder.taken_link, Builder.taken_takeTemp] at hright
      simp only [Expr.takes, Builder.taken_push, Builder.taken_link]
      omega

/-- The registers that arguments take. -/
theorem Expr.taken_of_lowerArgs : ∀ (args : List Expr) {known : List SymbolId}
    {b b' : Builder} {exit last : InstId} {temps : List Temp}, b.Assigns floor known locals →
    Expr.ScopedAll ok floor known args → Expr.lowerArgs exit args b = .ok ((temps, last), b') →
    b'.taken = b.taken + Expr.takesAll locals args
  | [], _, _, _, _, _, _, _, _, h => by
    obtain ⟨-, -, rfl⟩ := Expr.lowerArgs_nil_eq_ok.mp h
    rfl
  | arg :: rest, _, _, _, _, _, _, hb, hscoped, h => by
    obtain ⟨first, b₁, hfirst, temp, -, others, hrest, -⟩ := Expr.lowerArgs_cons_eq_ok.mp h
    have harg := Expr.taken_of_lower arg hb hscoped.1 hfirst
    have hrest := Expr.taken_of_lowerArgs rest
      ((hb.evaluated hfirst).of_locals_eq (by simp) (by simp)) hscoped.2 hrest
    simp [Expr.takesAll, harg, hrest, Nat.add_assoc]

end

/-- The registers that an assignment takes. -/
theorem Assignment.taken_of_lower {known : List SymbolId} {assignment : Assignment}
    {b b' : Builder} {chain : Chain} (hb : b.Assigns floor known locals)
    (hscoped : assignment.Scoped ok floor known) (h : assignment.lower b = .ok (chain, b')) :
    b'.taken = b.taken + assignment.takes locals := by
  obtain ⟨info, location, value⟩ := assignment
  obtain ⟨hplace, hlocation, hvalue⟩ := hscoped
  cases location with
  | var place ident =>
    have hident : ident.Uses ok floor known := hlocation
    obtain ⟨symbol, hsymbol, v, b₁, hv, src, -, ⟨dst, hlookup, rfl, -⟩ | ⟨hlookup, rfl, -⟩⟩ :=
      Assignment.lower_var_eq_ok.mp h
    · have hmem := hident.mem_of_lookup hb hsymbol hlookup
      have hvalue := Expr.taken_of_lower value hb hvalue hv
      simp [Assignment.takes, Expr.storeTakes, Ident.loads_of_mem hsymbol hmem, hvalue]
    · have hmem := (hident.lookup_eq_none_iff hb hsymbol).mp hlookup
      have hvalue := Expr.taken_of_lower value hb hvalue hv
      simp only [Assignment.takes, Expr.storeTakes, Ident.loads_of_notMem hsymbol hmem,
        List.length_singleton, Builder.taken_push, Builder.taken_link, Builder.taken_takeAddr]
      omega
  | index place base position =>
    obtain ⟨symbol, -, index, b₁, hindex, offset, -, v, b₂, hv, src, -, rfl, -⟩ :=
      Assignment.lower_index_eq_ok.mp h
    have hposition := Expr.taken_of_lower position hb hlocation.2 hindex
    have hvalue := Expr.taken_of_lower value
      ((hb.evaluated hindex).of_locals_eq (by simp) (by simp)) hvalue hv
    simp [Assignment.takes, Expr.storeTakes, hposition, hvalue, Nat.add_assoc]
  | _ => cases hplace

mutual

/-- The registers that a statement takes, with those of what it declares. Its declarations are among
the locals that are counted with. -/
theorem Stmt.taken_of_lower : ∀ (stmt : Stmt) {known : List SymbolId} {out : Option InstId}
    {b b' : Builder} {chain : Chain}, b.Assigns floor known locals → stmt.declares ⊆ locals →
    stmt.Scoped ok floor known → stmt.lower out b = .ok (chain, b') →
    b'.taken = b.taken + stmt.takes locals
  | .declare _ decl, _, _, _, _, _, _, _, _, h => by
    obtain ⟨symbol, -, rfl, -⟩ := Stmt.lower_declare_eq_ok.mp h
    simp [Stmt.takes]
  | .assign _ assignment, _, _, _, _, _, hb, _, hscoped, h => by
    rw [Stmt.lower_assign] at h
    exact Assignment.taken_of_lower hb hscoped h
  | .call info callee args, known, _, _, _, _, hb, _, hscoped, h => by
    have hcall : (Expr.call info callee args).Scoped ok floor known := hscoped
    rw [Stmt.lower_call] at h
    exact Expr.taken_of_lower _ hb hcall h
  | .ifElse _ cond onTrue onFalse, _, _, b, _, _, hb, hdeclares, hscoped, h => by
    obtain ⟨c, b₁, hc, value, -, trueExit, b₂, htrue, falseExit, b₃, hfalse, rfl, -⟩ :=
      Stmt.lower_ifElse_eq_ok.mp h
    obtain ⟨hsubFalse, hsubTrue⟩ := List.append_subset.mp hdeclares
    -- the locals assigned are those known where each part starts
    obtain ⟨hb₁, hb₂⟩ := hb.branches hsubTrue hc htrue
    have hcond := Expr.taken_of_lower cond hb hscoped.1 hc
    have hinTrue := Stmt.taken_of_lowerAll onTrue.stmts hb₁ hsubTrue hscoped.2.1 htrue
    have hinFalse := Stmt.taken_of_lowerAll onFalse.stmts hb₂ hsubFalse hscoped.2.2 hfalse
    simp [Stmt.takes, hcond, hinTrue, hinFalse, Nat.add_assoc]
  | .loop _ init cond increment body, _, _, b, _, _, hb, hdeclares, hscoped, h => by
    obtain ⟨i, b₁, hi, c, b₂, hc, value, -, bodyExit, b₃, hbody, step, b₄, hstep, rfl, -⟩ :=
      Stmt.lower_loop_eq_ok.mp h
    obtain ⟨hscopedInit, hscopedCond, hscopedStep, hscopedBody⟩ := hscoped
    obtain ⟨hb₁, hb₂, hb₃⟩ := hb.rounds hdeclares hi hc hbody
    have hinit := Assignment.taken_of_lower hb hscopedInit hi
    have hcond := Expr.taken_of_lower cond hb₁ hscopedCond hc
    have hinBody := Stmt.taken_of_lowerAll body.stmts hb₂ hdeclares hscopedBody hbody
    have hincrement := Assignment.taken_of_lower hb₃ hscopedStep hstep
    simp [Stmt.takes, hinit, hcond, hinBody, hincrement, Nat.add_assoc]
  | .leave _, _, _, _, _, _, _, _, _, h => by
    obtain ⟨target, -, rfl, -⟩ := Stmt.lower_leave_eq_ok.mp h
    simp [Stmt.takes]
  | .ret _ none, _, _, _, _, _, _, _, _, h => by
    obtain ⟨rfl, -⟩ := Stmt.lower_ret_none_eq_ok.mp h
    simp [Stmt.takes]
  | .ret _ (some value), known, _, _, _, _, hb, _, hscoped, h => by
    have hscoped' : value.Scoped ok floor known := hscoped
    obtain ⟨v, b₁, hv, rfl, -⟩ := Stmt.lower_ret_some_eq_ok.mp h
    have hvalue := Expr.taken_of_lower value hb hscoped' hv
    simp [Stmt.takes, hvalue]

/-- The registers that a block takes. -/
theorem Stmt.taken_of_lowerAll : ∀ (stmts : List Stmt) {known : List SymbolId}
    {out : Option InstId} {b b' : Builder} {exit last : InstId}, b.Assigns floor known locals →
    Stmt.declaresAll stmts ⊆ locals → Stmt.ScopedAll ok floor known stmts →
    Stmt.lowerAll out exit stmts b = .ok (last, b') →
    b'.taken = b.taken + Stmt.takesAll locals stmts
  | [], _, _, _, _, _, _, _, _, _, h => by
    obtain ⟨-, rfl⟩ := Stmt.lowerAll_nil_eq_ok.mp h
    rfl
  | stmt :: rest, _, _, _, _, _, _, hb, hdeclares, hscoped, h => by
    obtain ⟨first, b₁, hfirst, hrest⟩ := Stmt.lowerAll_cons_eq_ok.mp h
    obtain ⟨hsubRest, hsub⟩ := List.append_subset.mp hdeclares
    have hstmt := Stmt.taken_of_lower stmt hb hsub hscoped.1 hfirst
    have hb₁ := hb.declares (Stmt.declares_of_lower stmt hb.separated hfirst) hsub
    have hrest := Stmt.taken_of_lowerAll rest (hb₁.of_locals_eq (by simp) (by simp)) hsubRest
      hscoped.2 hrest
    simp [Stmt.takesAll, hstmt, hrest, Nat.add_assoc]

end

/-- Each parameter takes a register. -/
theorem Param.taken_of_lowerAll (params : List Param) {b b' : Builder} {temps : List Temp}
    (h : Param.lowerAll params b = .ok (temps, b')) : b'.taken = b.taken + params.length := by
  induction params generalizing b temps with
  | nil =>
    obtain ⟨-, rfl⟩ := Param.lowerAll_nil_eq_ok.mp h
    rfl
  | cons param rest ih =>
    obtain ⟨symbol, -, others, hrest, -⟩ := Param.lowerAll_cons_eq_ok.mp h
    rw [ih hrest, Builder.taken_bindNext, List.length_cons, Nat.add_right_comm, Nat.add_assoc]

/-- The registers of a routine are those that its function takes, no more and no fewer. -/
theorem FunDef.taken_of_lower {definition : FunDef} {constants pool : List Constant}
    {routine : Routine} (hscoped : definition.Scoped ok)
    (h : definition.lower constants = .ok (routine, pool)) :
    routine.temps + routine.addrs = definition.takes := by
  obtain ⟨floor, name, registers, b₁, b₂, last, hparams, -, hb₁, hbody, hlower, rfl⟩ :=
    FunDef.exists_assigns_of_lower hscoped h
  have hstart : (Builder.start constants name definition.ty).taken = 0 := rfl
  have htaken := Stmt.taken_of_lowerAll definition.body.stmts hb₁ (List.subset_append_left _ _)
    hbody hlower
  rw [Builder.taken_withArgs, Param.taken_of_lowerAll definition.params hparams, hstart,
    Nat.zero_add] at htaken
  exact htaken

end

end WordLang
