import WordLang.Proofs.Lowering.Steps
import WordLang.Proofs.Resolution.Scoping
import WordLang.Typing

/-!
# Types in the slots do not matter

Checking writes types into a tree. Lowering does not look at them, and neither does what is in
scope: both say the same of a tree before and after.

The tree that is lowered is the one with types. What is known of a tree from resolution, and what
checking reports, is known of the one without them. The lemmas here go from one to the other, and
they are equations wherever they can be: `annotate` goes through a tree once and changes only slots,
so each is a recursion in which every case is its own definition.
-/

namespace WordLang

/-! ## Lowering

Lowering reads places, symbols and declared types; it reads no slot for a type. -/

/-- An expression stays where it is. -/
theorem Expr.pos_annotate (expr : Expr) : expr.annotate.pos = expr.pos := by
  cases expr <;> rfl

mutual

/-- An expression with types is lowered like the one without. -/
theorem Expr.lower_annotate : ∀ expr : Expr, expr.annotate.lower = expr.lower
  | .int _ _ => rfl
  | .bool _ _ => rfl
  | .var _ _ => rfl
  | .index _ base position => by
    rw [Expr.annotate, Expr.lower, Expr.lower, Expr.lower_annotate position]
    rfl
  | .call _ callee args => by
    rw [Expr.annotate, Expr.lower, Expr.lower]
    simp only [Expr.lowerArgs_annotateAll args]
    rfl
  | .unary _ op operand => by
    rw [Expr.annotate, Expr.lower, Expr.lower, Expr.lower_annotate operand, Expr.pos_annotate]
    rfl
  | .binary _ op left right => by
    rw [Expr.annotate, Expr.lower, Expr.lower, Expr.lower_annotate left,
      Expr.lower_annotate right, Expr.pos_annotate, Expr.pos_annotate]

/-- So are arguments. -/
theorem Expr.lowerArgs_annotateAll : ∀ (args : List Expr) (exit : InstId),
    Expr.lowerArgs exit (Expr.annotateAll args) = Expr.lowerArgs exit args
  | [], _ => rfl
  | arg :: rest, exit => by
    rw [Expr.annotateAll, Expr.lowerArgs, Expr.lowerArgs, Expr.lower_annotate arg,
      Expr.pos_annotate]
    simp only [Expr.lowerArgs_annotateAll rest]

end

/-- So is an assignment. -/
theorem Assignment.lower_annotate (assignment : Assignment) :
    assignment.annotate.lower = assignment.lower := by
  obtain ⟨info, location, value⟩ := assignment
  cases location <;>
    simp only [Assignment.annotate, Assignment.lower, Expr.annotate, Expr.lower_annotate,
      Expr.pos_annotate] <;> rfl

mutual

/-- So is a statement. -/
theorem Stmt.lower_annotate : ∀ (stmt : Stmt) (out : Option InstId),
    stmt.annotate.lower out = stmt.lower out
  | .declare _ _, _ => rfl
  | .assign _ assignment, _ => by
    rw [Stmt.annotate, Stmt.lower_assign, Stmt.lower_assign, Assignment.lower_annotate]
  | .call info callee args, _ => by
    rw [Stmt.lower_call, ← Expr.lower_annotate, Stmt.annotate, Stmt.lower_call, Expr.annotate]
  | .ifElse _ cond onTrue onFalse, out => by
    rw [Stmt.annotate, Stmt.lower, Stmt.lower, Expr.lower_annotate]
    simp only [Stmt.lowerAll_annotateAll onTrue.stmts, Stmt.lowerAll_annotateAll onFalse.stmts]
    rfl
  | .loop _ init cond increment body, out => by
    rw [Stmt.annotate, Stmt.lower, Stmt.lower, Assignment.lower_annotate, Expr.lower_annotate,
      Assignment.lower_annotate, Expr.pos_annotate]
    simp only [Stmt.lowerAll_annotateAll body.stmts]
  | .leave _, _ => rfl
  | .ret _ none, _ => rfl
  | .ret _ (some value), _ => by
    rw [Stmt.annotate, Stmt.lower, Stmt.lower, Expr.lower_annotate]

/-- So is a block. -/
theorem Stmt.lowerAll_annotateAll : ∀ (stmts : List Stmt) (out : Option InstId) (exit : InstId),
    Stmt.lowerAll out exit (Stmt.annotateAll stmts) = Stmt.lowerAll out exit stmts
  | [], _, _ => rfl
  | stmt :: rest, out, exit => by
    rw [Stmt.annotateAll, Stmt.lowerAll, Stmt.lowerAll, Stmt.lower_annotate stmt]
    simp only [Stmt.lowerAll_annotateAll rest]

end

/-- So is a function. If its signature is at fault its body was left without types, which makes no
difference either. -/
theorem FunDef.lower_annotate (definition : FunDef) (constants : List Constant) :
    definition.annotate.lower constants = definition.lower constants := by
  unfold FunDef.annotate
  split
  · rfl
  · simp only [FunDef.lower, FunDef.lowerBody, Stmt.lowerAll_annotateAll]
    rfl

/-- So is a top declaration. -/
theorem Item.lower_annotate (item : Item) (program : Program) :
    item.annotate.lower program = item.lower program := by
  cases item with
  | global decl => rfl
  | function definition =>
    rw [Item.annotate, Item.lower, Item.lower, FunDef.lower_annotate]

/-- Lowering a tree does not depend on the types that checking wrote into it. -/
theorem Tree.lower_annotate (tree : Tree) : tree.annotate.lower = tree.lower := by
  simp only [Tree.lower, Tree.annotate, List.foldlM_map, Item.lower_annotate]

/-! ## Names in scope

What is in scope is a matter of symbols, and these are not touched. -/

section

variable {ok : Ty → Bool} {floor : Nat}

mutual

/-- The names of an expression with types are in scope. -/
theorem Expr.scoped_annotate : ∀ (expr : Expr) {known : List SymbolId},
    expr.Scoped ok floor known → expr.annotate.Scoped ok floor known
  | .int _ _, _, h => h
  | .bool _ _, _, h => h
  | .var _ _, _, h => h
  | .index _ _ position, _, h => ⟨h.1, Expr.scoped_annotate position h.2⟩
  | .call _ _ args, _, h => ⟨h.1, Expr.scopedAll_annotateAll args h.2⟩
  | .unary _ _ operand, _, h => Expr.scoped_annotate operand h
  | .binary _ _ left right, _, h => ⟨Expr.scoped_annotate left h.1, Expr.scoped_annotate right h.2⟩

/-- So are those of several expressions. -/
theorem Expr.scopedAll_annotateAll : ∀ (exprs : List Expr) {known : List SymbolId},
    Expr.ScopedAll ok floor known exprs → Expr.ScopedAll ok floor known (Expr.annotateAll exprs)
  | [], _, h => h
  | expr :: rest, _, h => ⟨Expr.scoped_annotate expr h.1, Expr.scopedAll_annotateAll rest h.2⟩

end

/-- So are those of an assignment. -/
theorem Assignment.scoped_annotate {assignment : Assignment} {known : List SymbolId}
    (h : assignment.Scoped ok floor known) : assignment.annotate.Scoped ok floor known where
  place := by
    obtain ⟨info, location, value⟩ := assignment
    cases location <;> exact h.place
  location := Expr.scoped_annotate _ h.location
  value := Expr.scoped_annotate _ h.value

mutual

/-- A statement declares what it declared. -/
theorem Stmt.declares_annotate : ∀ stmt : Stmt, stmt.annotate.declares = stmt.declares
  | .declare _ _ => rfl
  | .assign _ _ => rfl
  | .call _ _ _ => rfl
  | .ifElse _ _ onTrue onFalse => by
    rw [Stmt.annotate, Stmt.declares, Stmt.declares, Stmt.declaresAll_annotateAll onTrue.stmts,
      Stmt.declaresAll_annotateAll onFalse.stmts]
  | .loop _ _ _ _ body => by
    rw [Stmt.annotate, Stmt.declares, Stmt.declares, Stmt.declaresAll_annotateAll body.stmts]
  | .leave _ => rfl
  | .ret _ none => rfl
  | .ret _ (some _) => rfl

/-- So does a block. -/
theorem Stmt.declaresAll_annotateAll : ∀ stmts : List Stmt,
    Stmt.declaresAll (Stmt.annotateAll stmts) = Stmt.declaresAll stmts
  | [] => rfl
  | stmt :: rest => by
    rw [Stmt.annotateAll, Stmt.declaresAll, Stmt.declaresAll, Stmt.declares_annotate stmt,
      Stmt.declaresAll_annotateAll rest]

end

mutual

/-- The names of a statement with types are in scope. -/
theorem Stmt.scoped_annotate : ∀ (stmt : Stmt) {known : List SymbolId},
    stmt.Scoped ok floor known → stmt.annotate.Scoped ok floor known
  | .declare _ _, _, h => h
  | .assign _ _, _, h => Assignment.scoped_annotate h
  | .call _ _ args, _, h => ⟨h.1, Expr.scopedAll_annotateAll args h.2⟩
  | .ifElse _ cond onTrue onFalse, _, h => by
    obtain ⟨hcond, htrue, hfalse⟩ := h
    refine ⟨Expr.scoped_annotate cond hcond, Stmt.scopedAll_annotateAll onTrue.stmts htrue, ?_⟩
    rw [Stmt.declaresAll_annotateAll]
    exact Stmt.scopedAll_annotateAll onFalse.stmts hfalse
  | .loop _ _ cond _ body, _, h => by
    obtain ⟨hinit, hcond, hincrement, hbody⟩ := h
    exact ⟨Assignment.scoped_annotate hinit, Expr.scoped_annotate cond hcond,
      Assignment.scoped_annotate hincrement, Stmt.scopedAll_annotateAll body.stmts hbody⟩
  | .leave _, _, h => h
  | .ret _ none, _, h => h
  | .ret _ (some value), _, h => Expr.scoped_annotate value h

/-- So are those of a block. -/
theorem Stmt.scopedAll_annotateAll : ∀ (stmts : List Stmt) {known : List SymbolId},
    Stmt.ScopedAll ok floor known stmts → Stmt.ScopedAll ok floor known (Stmt.annotateAll stmts)
  | [], _, h => h
  | stmt :: rest, _, h => by
    refine ⟨Stmt.scoped_annotate stmt h.1, ?_⟩
    rw [Stmt.declares_annotate]
    exact Stmt.scopedAll_annotateAll rest h.2

end

/-- So are those of a function. -/
theorem FunDef.scoped_annotate {definition : FunDef} (h : definition.Scoped ok) :
    definition.annotate.Scoped ok := by
  unfold FunDef.annotate
  split
  · exact h
  · obtain ⟨hbound, floor, hparams, hbody⟩ := h
    exact ⟨hbound, floor, hparams, Stmt.scopedAll_annotateAll _ hbody⟩

/-- So are those of a top declaration. -/
theorem Item.scoped_annotate {item : Item} (h : item.Scoped ok) : item.annotate.Scoped ok := by
  cases item with
  | global decl => exact h
  | function definition => exact FunDef.scoped_annotate h

end

end WordLang
