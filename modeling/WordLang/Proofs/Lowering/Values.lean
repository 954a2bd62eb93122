import WordLang.Proofs.Typing.Clean

/-!
# Arguments without a value

A call of a function that returns nothing has the type `void`, and no value. Nothing that asks for a
value takes that type, with one exception: a parameter may be declared `void`, and then such a call
is an argument of the right type. `missing?` looks for the first one in the order in which a tree is
lowered, which is not everywhere the order of reading: the increment of a loop comes after its body,
and a right operand of a negation never comes.

In a tree without problems there is none if no parameter is `void`.

The search does not lower anything. It is defined on the tree, and what it finds is compared with
what lowering does elsewhere: where it finds nothing lowering succeeds, and where it finds something
lowering fails there.
-/

namespace WordLang

/-- Whether an expression is a call of a function that returns nothing. -/
def Expr.isEmptyCall : Expr → Bool
  | .call _ callee _ =>
    match callee.ty with
    | .func _ ret => ret.isVoid
    | _ => false
  | _ => false

mutual

/-- Where the first argument without a value is in an expression. -/
def Expr.missing? : Expr → Option Position
  | .int _ _ => none
  | .bool _ _ => none
  | .var _ _ => none
  | .index _ _ position => position.missing?
  | .call _ _ args => Expr.missingArg? args
  | .unary _ _ operand => operand.missing?
  | .binary _ op left right =>
    match op with
    | .negate => left.missing?
    | _ => left.missing?.or right.missing?

/-- Where the first one is in the arguments of a call, among them the arguments themselves. -/
def Expr.missingArg? : List Expr → Option Position
  | [] => none
  | arg :: rest =>
    arg.missing?.or ((if arg.isEmptyCall then some arg.pos else none).or (Expr.missingArg? rest))

end

/-- An operation uses its operands in order. A negation uses the left one only. -/
theorem Expr.missing?_binary (info : Info) (op : Operation) (left right : Expr) :
    (binary info op left right).missing? =
      if op = .negate then left.missing? else left.missing?.or right.missing? := by
  cases op <;> rfl

/-- If nothing is missing in an operation, nothing is missing in the operands that it uses. -/
theorem Expr.missing?_of_binary {info : Info} {op : Operation} {left right : Expr}
    (h : (binary info op left right).missing? = none) :
    left.missing? = none ∧ (op ≠ .negate → right.missing? = none) := by
  rw [missing?_binary] at h
  split at h
  · next hop => exact ⟨h, fun hne => absurd hop hne⟩
  · obtain ⟨hleft, hright⟩ := Option.or_eq_none_iff.mp h
    exact ⟨hleft, fun _ => hright⟩

/-- Where the first one is in an assignment. -/
def Assignment.missing? (assignment : Assignment) : Option Position :=
  assignment.location.missing?.or assignment.value.missing?

mutual

/-- Where the first one is in a statement. -/
def Stmt.missing? : Stmt → Option Position
  | .declare _ _ => none
  | .assign _ assignment => assignment.missing?
  | .call _ _ args => Expr.missingArg? args
  | .ifElse _ cond onTrue onFalse =>
    cond.missing?.or ((Stmt.missingIn? onTrue.stmts).or (Stmt.missingIn? onFalse.stmts))
  | .loop _ init cond increment body =>
    init.missing?.or (cond.missing?.or ((Stmt.missingIn? body.stmts).or increment.missing?))
  | .leave _ => none
  | .ret _ none => none
  | .ret _ (some value) => value.missing?

/-- Where the first one is in several statements. -/
def Stmt.missingIn? : List Stmt → Option Position
  | [] => none
  | stmt :: rest => stmt.missing?.or (Stmt.missingIn? rest)

end

/-- Where the first one is in a top declaration. -/
def Item.missing? : Item → Option Position
  | .global _ => none
  | .function definition => Stmt.missingIn? definition.body.stmts

/-- Where the first one is in a program. -/
def Tree.missing? (tree : Tree) : Option Position :=
  tree.items.findSome? Item.missing?

/-- Neither is there one in the first argument, nor is it one, nor is there one in the others. -/
theorem Expr.missingArg?_cons_eq_none {arg : Expr} {rest : List Expr} :
    Expr.missingArg? (arg :: rest) = none ↔
      arg.missing? = none ∧ arg.isEmptyCall = false ∧ Expr.missingArg? rest = none := by
  rw [Expr.missingArg?, Option.or_eq_none_iff, Option.or_eq_none_iff]
  cases arg.isEmptyCall <;> simp

section

variable {ok : Ty → Bool} {floor : Nat} {known : List SymbolId}

/-- Only what is `void` can be a call without a value. -/
theorem Expr.isEmptyCall_of_infer (hok : ∀ ty, ok ty = true → ty.isError = false) {expr : Expr}
    (hscoped : expr.Scoped ok floor known) (h : expr.diagnose = [])
    (hvoid : expr.infer.isVoid = false) : expr.isEmptyCall = false := by
  cases expr with
  | call info callee args =>
    obtain ⟨params, ret, hcallee, -, hret⟩ := Ty.of_call (Expr.isError_infer hok hscoped h)
    rw [Expr.infer, hret] at hvoid
    rw [Expr.isEmptyCall, hcallee]
    exact hvoid
  | _ => rfl

/-! ## Parameters that take values

By recursion on the tree. If no parameter is `void`, then an argument of the right type is not
`void` either, and so it has a value. -/

mutual

/-- No argument in an expression misses a value. -/
theorem Expr.missing?_eq_none (hok : Ty.Regular ok) : ∀ {expr : Expr},
    expr.Scoped ok floor known → expr.diagnose = [] → expr.missing? = none
  | .int _ _, _, _ => rfl
  | .bool _ _, _, _ => rfl
  | .var _ _, _, _ => rfl
  | .index _ _ position, hscoped, h => by
    rw [Expr.missing?]
    exact Expr.missing?_eq_none hok hscoped.2 (List.append_eq_nil_iff.mp h).1
  | .call info callee args, hscoped, h => by
    obtain ⟨params, ret, hcallee, hargs, -⟩ := Ty.of_call (Expr.isError_infer hok.clean hscoped h)
    obtain ⟨-, -, -, -, hokay⟩ := hscoped.1.exists_symbol
    rw [hcallee] at hokay
    exact Expr.missingArg?_eq_none hok hscoped.2 (List.append_eq_nil_iff.mp h).1
      (Ty.forall_not_isVoid_of_equivalentList hargs (hok.params params ret hokay))
  | .unary _ _ operand, hscoped, h => by
    have hscoped' : operand.Scoped ok floor known := hscoped
    rw [Expr.missing?]
    exact Expr.missing?_eq_none hok hscoped' (List.append_eq_nil_iff.mp h).1
  | .binary _ op left right, hscoped, h => by
    obtain ⟨hinner, -⟩ := List.append_eq_nil_iff.mp h
    obtain ⟨hleft, hright⟩ := List.append_eq_nil_iff.mp hinner
    have hfirst := Expr.missing?_eq_none hok hscoped.1 hleft
    have hsecond := Expr.missing?_eq_none hok hscoped.2 hright
    cases op <;> simp [Expr.missing?, hfirst, hsecond]

/-- Nor does one of several arguments that are not `void`. -/
theorem Expr.missingArg?_eq_none (hok : Ty.Regular ok) : ∀ {args : List Expr},
    Expr.ScopedAll ok floor known args → Expr.diagnoseAll args = [] →
    (∀ ty ∈ Expr.inferAll args, ty.isVoid = false) → Expr.missingArg? args = none
  | [], _, _, _ => rfl
  | arg :: rest, hscoped, h, hvoid => by
    obtain ⟨hfirst, hothers⟩ := List.append_eq_nil_iff.mp h
    rw [Expr.inferAll, List.forall_mem_cons] at hvoid
    exact Expr.missingArg?_cons_eq_none.mpr ⟨Expr.missing?_eq_none hok hscoped.1 hfirst,
      Expr.isEmptyCall_of_infer hok.clean hscoped.1 hfirst hvoid.1,
      Expr.missingArg?_eq_none hok hscoped.2 hothers hvoid.2⟩

end

/-- Nor does one in an assignment. -/
theorem Assignment.missing?_eq_none (hok : Ty.Regular ok) {assignment : Assignment}
    (hscoped : assignment.Scoped ok floor known) (h : assignment.diagnose = []) :
    assignment.missing? = none := by
  obtain ⟨-, hlocation, hvalue⟩ := hscoped
  obtain ⟨hinner, -⟩ := List.append_eq_nil_iff.mp h
  obtain ⟨hinnerLocation, hinnerValue⟩ := List.append_eq_nil_iff.mp hinner
  simp [Assignment.missing?, Expr.missing?_eq_none hok hlocation hinnerLocation,
    Expr.missing?_eq_none hok hvalue hinnerValue]

mutual

/-- Nor does one in a statement. -/
theorem Stmt.missing?_eq_none (hok : Ty.Regular ok) {ret : Ty} : ∀ {stmt : Stmt}
    {known : List SymbolId} {inLoop : Bool}, stmt.Scoped ok floor known →
    stmt.diagnose ret inLoop = [] → stmt.missing? = none
  | .declare _ _, _, _, _, _ => rfl
  | .assign _ _, _, _, hscoped, h => Assignment.missing?_eq_none hok hscoped h
  | .call info callee args, known, _, hscoped, h => by
    have hcall : (Expr.call info callee args).Scoped ok floor known := hscoped
    exact Expr.missing?_eq_none hok hcall h
  | .ifElse _ cond onTrue onFalse, _, _, hscoped, h => by
    obtain ⟨hcond, htrue, hfalse⟩ := hscoped
    obtain ⟨h, hcleanFalse⟩ := List.append_eq_nil_iff.mp h
    obtain ⟨hcleanCond, hcleanTrue⟩ := List.append_eq_nil_iff.mp h
    obtain ⟨hinner, -⟩ := List.append_eq_nil_iff.mp hcleanCond
    simp [Stmt.missing?, Expr.missing?_eq_none hok hcond hinner,
      Stmt.missingIn?_eq_none hok htrue hcleanTrue, Stmt.missingIn?_eq_none hok hfalse hcleanFalse]
  | .loop _ init cond increment body, _, _, hscoped, h => by
    obtain ⟨hinit, hcond, hincrement, hbody⟩ := hscoped
    obtain ⟨h, hcleanBody⟩ := List.append_eq_nil_iff.mp h
    obtain ⟨h, hcleanStep⟩ := List.append_eq_nil_iff.mp h
    obtain ⟨hcleanInit, hcleanCond⟩ := List.append_eq_nil_iff.mp h
    obtain ⟨hinner, -⟩ := List.append_eq_nil_iff.mp hcleanCond
    simp [Stmt.missing?, Assignment.missing?_eq_none hok hinit hcleanInit,
      Expr.missing?_eq_none hok hcond hinner, Stmt.missingIn?_eq_none hok hbody hcleanBody,
      Assignment.missing?_eq_none hok hincrement hcleanStep]
  | .leave _, _, _, _, _ => rfl
  | .ret _ none, _, _, _, _ => rfl
  | .ret _ (some value), known, _, hscoped, h => by
    have hscoped' : value.Scoped ok floor known := hscoped
    exact Expr.missing?_eq_none hok hscoped' (List.append_eq_nil_iff.mp h).1

/-- Nor does one in a block. -/
theorem Stmt.missingIn?_eq_none (hok : Ty.Regular ok) {ret : Ty} : ∀ {stmts : List Stmt}
    {known : List SymbolId} {inLoop : Bool}, Stmt.ScopedAll ok floor known stmts →
    Stmt.diagnoseAll ret inLoop stmts = [] → Stmt.missingIn? stmts = none
  | [], _, _, _, _ => rfl
  | stmt :: rest, _, _, hscoped, h => by
    obtain ⟨hfirst, hothers⟩ := List.append_eq_nil_iff.mp h
    simp [Stmt.missingIn?, Stmt.missing?_eq_none hok hscoped.1 hfirst,
      Stmt.missingIn?_eq_none hok hscoped.2 hothers]

end

/-- A function without problems has problems neither with its signature nor in its body. -/
theorem FunDef.diagnoseAll_of_diagnose {definition : FunDef} (h : definition.diagnose = []) :
    Stmt.diagnoseAll definition.ret false definition.body.stmts = [] := by
  unfold FunDef.diagnose at h
  split at h
  · cases h
  · obtain ⟨h, -⟩ := List.append_eq_nil_iff.mp h
    exact (List.append_eq_nil_iff.mp h).2

/-- Nor does one in a top declaration. -/
theorem Item.missing?_eq_none (hok : Ty.Regular ok) {item : Item} (hscoped : item.Scoped ok)
    (h : item.diagnose = []) : item.missing? = none := by
  cases item with
  | global decl => rfl
  | function definition =>
    obtain ⟨-, floor, -, hbody⟩ := hscoped
    exact Stmt.missingIn?_eq_none hok hbody (FunDef.diagnoseAll_of_diagnose h)

end

end WordLang
