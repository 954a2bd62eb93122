import WordLang.Proofs.Relabelling.Basic

/-!
# Relabelling and resolution

Resolving a relabelled tree gives what resolving the tree gives, relabelled in turn. The relabelling
afterwards is another one, for then the slots are full. Whether it is so depends on single names
only (`Carries`): where each name that is declared or used fits, so does the whole tree.

So a statement about resolution and relabelling comes down to a square for the two operations of the
symbol table, to declare and to use a name; opening and closing scopes have to commute with the
change of tables as well. From there the recursion on the tree is the same for every relabelling,
and it is done here once.
-/

namespace WordLang

/-- Relabelling by `f` before resolution has the effect of relabelling by `g` after it, if the table
is changed by `carry`. -/
structure Relabelling.Carries (f g : Relabelling) (carry : SymbolTable → SymbolTable) : Prop where
  place : g.place = f.place
  ty : g.ty = f.ty
  declare : ∀ (ident : Ident) (ty : Ty) (table : SymbolTable),
    (f.ident ident).declare ty (carry table) =
      (g.ident (ident.declare ty table).1, carry (ident.declare ty table).2)
  resolve : ∀ (ident : Ident) (table : SymbolTable),
    (f.ident ident).resolve (carry table) =
      (g.ident (ident.resolve table).1, carry (ident.resolve table).2)
  enter : ∀ table : SymbolTable, (carry table).enter = carry table.enter
  leave : ∀ table : SymbolTable, (carry table).leave = carry table.leave

section

variable {f g : Relabelling} {carry : SymbolTable → SymbolTable}

/-- The slots of nodes are treated alike before and after: resolution does not fill those. -/
theorem Relabelling.Carries.info (h : f.Carries g carry) : g.info = f.info := by
  funext info
  rw [Relabelling.info, Relabelling.info, h.place, h.ty]

mutual

/-- By recursion on the expression. The table goes along. -/
theorem Expr.resolve_relabel (h : f.Carries g carry) : ∀ (expr : Expr) (table : SymbolTable),
    (expr.relabel f).resolve (carry table) =
      ((expr.resolve table).1.relabel g, carry (expr.resolve table).2)
  | .int _ _, _ => by
    simp only [Expr.relabel, Expr.resolve, Resolve.pure_apply, h.info]
  | .bool _ _, _ => by
    simp only [Expr.relabel, Expr.resolve, Resolve.pure_apply, h.info]
  | .var _ _, _ => by
    simp only [Expr.relabel, Expr.resolve, Resolve.bind_apply, Resolve.pure_apply,
      h.info, h.resolve]
  | .index _ base position, _ => by
    simp only [Expr.relabel, Expr.resolve, Resolve.bind_apply, Resolve.pure_apply,
      h.info, h.resolve, Expr.resolve_relabel h position]
  | .call _ callee args, _ => by
    simp only [Expr.relabel, Expr.resolve, Resolve.bind_apply, Resolve.pure_apply,
      h.info, h.resolve, Expr.resolveAll_relabel h args]
  | .unary _ _ operand, _ => by
    simp only [Expr.relabel, Expr.resolve, Resolve.bind_apply, Resolve.pure_apply, h.info,
      Expr.resolve_relabel h operand]
  | .binary _ _ left right, _ => by
    simp only [Expr.relabel, Expr.resolve, Resolve.bind_apply, Resolve.pure_apply, h.info,
      Expr.resolve_relabel h left, Expr.resolve_relabel h right]

/-- So it is for several expressions. -/
theorem Expr.resolveAll_relabel (h : f.Carries g carry) :
    ∀ (exprs : List Expr) (table : SymbolTable),
      Expr.resolveAll (Expr.relabelAll f exprs) (carry table) =
      (Expr.relabelAll g (Expr.resolveAll exprs table).1, carry (Expr.resolveAll exprs table).2)
  | [], _ => rfl
  | expr :: rest, _ => by
    simp only [Expr.relabelAll, Expr.resolveAll, Resolve.bind_apply, Resolve.pure_apply,
      Expr.resolve_relabel h expr, Expr.resolveAll_relabel h rest]

end

/-- And for a declaration. -/
theorem VarDecl.resolve_relabel (h : f.Carries g carry) (decl : VarDecl) (table : SymbolTable) :
    (decl.relabel f).resolve (carry table) =
      ((decl.resolve table).1.relabel g, carry (decl.resolve table).2) := by
  simp only [VarDecl.relabel, VarDecl.resolve, Resolve.bind_apply, Resolve.pure_apply, h.info,
    h.declare]

/-- And for an assignment. -/
theorem Assignment.resolve_relabel (h : f.Carries g carry) (assignment : Assignment)
    (table : SymbolTable) :
    (assignment.relabel f).resolve (carry table) =
      ((assignment.resolve table).1.relabel g, carry (assignment.resolve table).2) := by
  simp only [Assignment.relabel, Assignment.resolve, Resolve.bind_apply, Resolve.pure_apply, h.info,
    Expr.resolve_relabel h]

mutual

/-- And for a statement. Its blocks are resolved in scopes of their own, on both sides. -/
theorem Stmt.resolve_relabel (h : f.Carries g carry) : ∀ (stmt : Stmt) (table : SymbolTable),
    (stmt.relabel f).resolve (carry table) =
      ((stmt.resolve table).1.relabel g, carry (stmt.resolve table).2)
  | .declare _ decl, _ => by
    simp only [Stmt.relabel, Stmt.resolve, Resolve.bind_apply, Resolve.pure_apply, h.info,
      VarDecl.resolve_relabel h]
  | .assign _ assignment, _ => by
    simp only [Stmt.relabel, Stmt.resolve, Resolve.bind_apply, Resolve.pure_apply, h.info,
      Assignment.resolve_relabel h]
  | .call _ callee args, _ => by
    simp only [Stmt.relabel, Stmt.resolve, Resolve.bind_apply, Resolve.pure_apply,
      h.info, h.resolve, Expr.resolveAll_relabel h]
  | .ifElse _ cond onTrue onFalse, _ => by
    simp only [Stmt.relabel, Stmt.resolve, Resolve.bind_apply, Resolve.pure_apply,
      Resolve.withScope_apply, h.info, h.place, h.enter, h.leave, Expr.resolve_relabel h,
      Stmt.resolveAll_relabel h onTrue.stmts, Stmt.resolveAll_relabel h onFalse.stmts]
  | .loop _ init cond increment body, _ => by
    simp only [Stmt.relabel, Stmt.resolve, Resolve.bind_apply, Resolve.pure_apply,
      Resolve.withScope_apply, h.info, h.place, h.enter, h.leave, Expr.resolve_relabel h,
      Assignment.resolve_relabel h, Stmt.resolveAll_relabel h body.stmts]
  | .leave _, _ => by
    simp only [Stmt.relabel, Stmt.resolve, Resolve.pure_apply, h.info]
  | .ret _ none, _ => by
    simp only [Stmt.relabel, Stmt.resolve, Resolve.pure_apply, h.info]
  | .ret _ (some value), _ => by
    simp only [Stmt.relabel, Stmt.resolve, Resolve.bind_apply, Resolve.pure_apply, h.info,
      Expr.resolve_relabel h]

/-- And for several statements. -/
theorem Stmt.resolveAll_relabel (h : f.Carries g carry) :
    ∀ (stmts : List Stmt) (table : SymbolTable),
      Stmt.resolveAll (Stmt.relabelAll f stmts) (carry table) =
      (Stmt.relabelAll g (Stmt.resolveAll stmts table).1, carry (Stmt.resolveAll stmts table).2)
  | [], _ => rfl
  | stmt :: rest, _ => by
    simp only [Stmt.relabelAll, Stmt.resolveAll, Resolve.bind_apply, Resolve.pure_apply,
      Stmt.resolve_relabel h stmt, Stmt.resolveAll_relabel h rest]

end

/-- What fits each member of a list fits all of them. -/
theorem Resolve.mapM_relabel {α : Type} {step : α → Resolve α} {before after : α → α}
    (h : ∀ a table, step (before a) (carry table) = (after (step a table).1,
      carry (step a table).2))
    (items : List α) (table : SymbolTable) :
    (items.map before).mapM step (carry table) =
      ((items.mapM step table).1.map after, carry (items.mapM step table).2) := by
  induction items generalizing table with
  | nil => rfl
  | cons item rest ih =>
    simp only [List.map_cons, List.mapM_cons, Resolve.bind_apply, Resolve.pure_apply, h, ih]

/-- And for a parameter. -/
theorem Param.resolve_relabel (h : f.Carries g carry) (param : Param) (table : SymbolTable) :
    (param.relabel f).resolve (carry table) =
      ((param.resolve table).1.relabel g, carry (param.resolve table).2) := by
  simp only [Param.relabel, Param.resolve, Resolve.bind_apply, Resolve.pure_apply, h.declare]

/-- And for a function. -/
theorem FunDef.resolve_relabel (h : f.Carries g carry) (definition : FunDef) (table : SymbolTable) :
    (definition.relabel f).resolve (carry table) =
      ((definition.resolve table).1.relabel g, carry (definition.resolve table).2) := by
  simp only [FunDef.resolve, FunDef.ty_relabel]
  simp only [FunDef.relabel, Resolve.bind_apply, Resolve.pure_apply,
    Resolve.withScope_apply, h.place, h.declare, h.enter, h.leave,
    Resolve.mapM_relabel (Param.resolve_relabel h), Stmt.resolveAll_relabel h]

/-- And for a top declaration. -/
theorem Item.resolve_relabel (h : f.Carries g carry) (item : Item) (table : SymbolTable) :
    (item.relabel f).resolve (carry table) =
      ((item.resolve table).1.relabel g, carry (item.resolve table).2) := by
  cases item with
  | global decl =>
    simp only [Item.relabel, Item.resolve, Resolve.bind_apply, Resolve.pure_apply,
      VarDecl.resolve_relabel h]
  | function definition =>
    simp only [Item.relabel, Item.resolve, Resolve.bind_apply, Resolve.pure_apply,
      FunDef.resolve_relabel h]

/-- Resolving a relabelled tree gives the resolved tree, relabelled. -/
theorem Tree.resolve_relabel (h : f.Carries g carry) {nextId nextId' : Nat}
    (hnew : carry (.new nextId) = .new nextId') (tree : Tree) :
    (tree.relabel f).resolve nextId' =
      ((tree.resolve nextId).1.relabel g, carry (tree.resolve nextId).2) := by
  have hitems := Resolve.mapM_relabel (Item.resolve_relabel h) tree.items (.new nextId)
  rw [hnew] at hitems
  simp only [Tree.resolve, Tree.relabel, StateT.run, hitems]
  rfl

end

end WordLang
