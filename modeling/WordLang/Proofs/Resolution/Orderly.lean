import WordLang.Resolution

/-!
# Steps of resolution

Resolution threads a symbol table through a tree. Each step is *orderly*: it only adds to the
problems that were reported, and it leaves as many scopes open as there were. What declaring and
using a name does to the table is said once, for the two ways in which it can end.

Being orderly is what makes it possible to reason backwards from the end. If nothing was reported in
the end, then nothing had been reported at any point on the way (`Orderly.quiet`), so each step may
be taken to be one without a problem; and such a step has only one way to end
(`Ident.declared_of_quiet`, `Ident.found_of_quiet`).

Steps are functions of the table that also give a result. The first lemmas turn a step into an
equation between the table before and the table after, so that a row of steps can be taken apart.
-/

namespace WordLang

/-! ## One step after another

How steps are put together, and that orderly steps make orderly steps. -/

namespace Resolve

variable {α β : Type}

/-- Two steps in a row: there is a result and a table between them. -/
theorem bind_eq {x : Resolve α} {f : α → Resolve β} {table : SymbolTable} {r : β × SymbolTable} :
    (x >>= f) table = r ↔ ∃ a mid, x table = (a, mid) ∧ f a mid = r := by
  change f (x table).1 (x table).2 = r ↔ _
  constructor
  · intro h
    exact ⟨_, _, rfl, h⟩
  · rintro ⟨a, mid, hx, hf⟩
    rw [hx]
    exact hf

/-- A step that does nothing. -/
theorem pure_eq {a : α} {table : SymbolTable} {r : α × SymbolTable} :
    (pure a : Resolve α) table = r ↔ r = (a, table) :=
  eq_comm

/-- A step that only changes the table. -/
theorem modify_eq {f : SymbolTable → SymbolTable} {table : SymbolTable} {r : Unit × SymbolTable} :
    (modify f : Resolve Unit) table = r ↔ r = ((), f table) :=
  eq_comm

/-- A step of its own scope runs between opening and closing it. -/
theorem withScope_eq {step : Resolve α} {table table' : SymbolTable} {a : α} :
    withScope step table = (a, table') ↔
      ∃ mid, step table.enter = (a, mid) ∧ table' = mid.leave := by
  simp only [withScope, bind_eq, modify_eq, pure_eq, Prod.mk.injEq]
  constructor
  · rintro ⟨_, _, ⟨-, rfl⟩, a', mid, hstep, _, _, ⟨-, rfl⟩, rfl, rfl⟩
    exact ⟨mid, hstep, rfl⟩
  · rintro ⟨mid, hstep, rfl⟩
    exact ⟨(), _, ⟨trivial, rfl⟩, a, mid, hstep, (), _, ⟨trivial, rfl⟩, rfl, rfl⟩

/-- A step keeps the problems that were reported, and closes the scopes it opens. -/
structure Orderly (step : Resolve α) : Prop where
  errors : ∀ {table table' a}, step table = (a, table') → table.errors <+: table'.errors
  depth : ∀ {table table' a}, step table = (a, table') → table'.inner.length = table.inner.length

/-- Doing nothing is orderly. -/
theorem Orderly.pure (a : α) : Orderly (pure a : Resolve α) where
  errors h := by
    cases pure_eq.mp h
    exact List.prefix_refl _
  depth h := by
    cases pure_eq.mp h
    rfl

/-- Two orderly steps in a row are orderly. -/
theorem Orderly.bind {x : Resolve α} {f : α → Resolve β} (hx : Orderly x)
    (hf : ∀ a, Orderly (f a)) : Orderly (x >>= f) where
  errors h := by
    obtain ⟨a, mid, hxa, hfa⟩ := bind_eq.mp h
    exact (hx.errors hxa).trans ((hf a).errors hfa)
  depth h := by
    obtain ⟨a, mid, hxa, hfa⟩ := bind_eq.mp h
    rw [(hf a).depth hfa, hx.depth hxa]

/-- So is an orderly step in a scope of its own: the scope it opens is closed again. -/
theorem Orderly.withScope {step : Resolve α} (h : Orderly step) : Orderly (withScope step) where
  errors hrun := by
    obtain ⟨mid, hstep, rfl⟩ := withScope_eq.mp hrun
    have herrors := h.errors hstep
    exact herrors
  depth hrun := by
    obtain ⟨mid, hstep, rfl⟩ := withScope_eq.mp hrun
    have hdepth := h.depth hstep
    rw [SymbolTable.leave, List.length_tail, hdepth]
    rfl

/-- Without a problem at the end there was none on the way. -/
theorem Orderly.quiet {step : Resolve α} (h : Orderly step) {table table' : SymbolTable} {a : α}
    (hrun : step table = (a, table')) (hquiet : table'.errors = []) : table.errors = [] := by
  have hprefix := h.errors hrun
  rw [hquiet] at hprefix
  exact List.prefix_nil.mp hprefix

end Resolve

/-! ## Declaring and using a name

Each of the two can end in two ways. A declaration fails if the scope at hand holds the name; a use
fails if no open scope does. In both cases a faulty symbol is made and a problem reported. -/

namespace SymbolTable

variable {table : SymbolTable} {pos : Position} {name : String} {ty : Ty}

/-- Declaring a name reports a problem, or gives a new symbol and binds it. -/
theorem add_cases (table : SymbolTable) (pos : Position) (name : String) (ty : Ty) :
    (∃ problem, (table.add pos name ty).2 = table.skipId.report problem) ∨
      table.add pos name ty =
        (.declared table.nextId name ty, table.skipId.bind (.declared table.nextId name ty)) := by
  unfold add
  split
  · exact .inl ⟨_, rfl⟩
  · exact .inr rfl

/-- Using a name reports a problem, or gives the symbol that is in scope and changes nothing. -/
theorem lookup_cases (table : SymbolTable) (pos : Position) (name : String) :
    (∃ problem, (table.lookup pos name).2 = table.skipId.report problem) ∨
      ∃ symbol, table.find? name = some symbol ∧ table.lookup pos name = (symbol, table) := by
  unfold lookup
  rcases h : table.find? name with _ | symbol
  · exact .inl ⟨_, rfl⟩
  · exact .inr ⟨symbol, rfl, rfl⟩

/-- Binding a symbol reports nothing. -/
@[simp]
theorem errors_bind (symbol : Symbol) : (table.bind symbol).errors = table.errors := by
  unfold bind
  split <;> rfl

/-- It uses up no id: that was done when the symbol was made. -/
@[simp]
theorem nextId_bind (symbol : Symbol) : (table.bind symbol).nextId = table.nextId := by
  unfold bind
  split <;> rfl

/-- It opens no scope. -/
@[simp]
theorem length_inner_bind (symbol : Symbol) :
    (table.bind symbol).inner.length = table.inner.length := by
  unfold bind
  rcases h : table.inner with _ | ⟨scope, rest⟩
  · rfl
  · rfl

end SymbolTable

namespace Ident

variable {ident ident' : Ident} {ty : Ty} {table table' : SymbolTable}

/-- To declare a name is to write the answer of the table into its slot. -/
theorem declare_eq :
    ident.declare ty table = (ident', table') ↔
      ident' = { ident with symbol := some (table.add ident.pos ident.name ty).1 } ∧
        table' = (table.add ident.pos ident.name ty).2 := by
  change (({ ident with symbol := some (table.add ident.pos ident.name ty).1 } : Ident),
    (table.add ident.pos ident.name ty).2) = _ ↔ _
  rw [Prod.mk.injEq, eq_comm, @eq_comm _ _ table']

/-- So it is to use one. -/
theorem resolve_eq :
    ident.resolve table = (ident', table') ↔
      ident' = { ident with symbol := some (table.lookup ident.pos ident.name).1 } ∧
        table' = (table.lookup ident.pos ident.name).2 := by
  change (({ ident with symbol := some (table.lookup ident.pos ident.name).1 } : Ident),
    (table.lookup ident.pos ident.name).2) = _ ↔ _
  rw [Prod.mk.injEq, eq_comm, @eq_comm _ _ table']

/-- Declaring a name is orderly. -/
theorem orderly_declare (ident : Ident) (ty : Ty) : Resolve.Orderly (ident.declare ty) where
  errors {table table' ident'} h := by
    obtain ⟨-, rfl⟩ := declare_eq.mp h
    rcases table.add_cases ident.pos ident.name ty with ⟨problem, hadd⟩ | hadd
    · rw [hadd]
      exact List.prefix_append _ _
    · rw [hadd, SymbolTable.errors_bind]
      exact List.prefix_refl _
  depth {table table' ident'} h := by
    obtain ⟨-, rfl⟩ := declare_eq.mp h
    rcases table.add_cases ident.pos ident.name ty with ⟨problem, hadd⟩ | hadd
    · rw [hadd]
      rfl
    · rw [hadd, SymbolTable.length_inner_bind]
      rfl

/-- So is using one. -/
theorem orderly_resolve (ident : Ident) : Resolve.Orderly ident.resolve where
  errors {table table' ident'} h := by
    obtain ⟨-, rfl⟩ := resolve_eq.mp h
    rcases table.lookup_cases ident.pos ident.name with ⟨problem, hlookup⟩ | ⟨symbol, -, hlookup⟩
    · rw [hlookup]
      exact List.prefix_append _ _
    · simp only [hlookup, List.prefix_refl]
  depth {table table' ident'} h := by
    obtain ⟨-, rfl⟩ := resolve_eq.mp h
    rcases table.lookup_cases ident.pos ident.name with ⟨problem, hlookup⟩ | ⟨symbol, -, hlookup⟩
    · rw [hlookup]
      rfl
    · rw [hlookup]

/-- A declaration without a problem. -/
theorem declared_of_quiet (h : ident.declare ty table = (ident', table'))
    (hquiet : table'.errors = []) :
    ident' = { ident with symbol := some (.declared table.nextId ident.name ty) } ∧
      table' = table.skipId.bind (.declared table.nextId ident.name ty) := by
  obtain ⟨rfl, rfl⟩ := declare_eq.mp h
  rcases table.add_cases ident.pos ident.name ty with ⟨problem, hadd⟩ | hadd
  · rw [hadd] at hquiet
    exact absurd hquiet (List.append_ne_nil_of_right_ne_nil _ (List.cons_ne_nil _ _))
  · rw [hadd]
    exact ⟨rfl, rfl⟩

/-- A use without a problem. -/
theorem found_of_quiet (h : ident.resolve table = (ident', table'))
    (hquiet : table'.errors = []) :
    ∃ symbol, table.find? ident.name = some symbol ∧
      ident' = { ident with symbol := some symbol } ∧ table' = table := by
  obtain ⟨rfl, rfl⟩ := resolve_eq.mp h
  rcases table.lookup_cases ident.pos ident.name with ⟨problem, hlookup⟩ | ⟨symbol, hfind, hlookup⟩
  · rw [hlookup] at hquiet
    exact absurd hquiet (List.append_ne_nil_of_right_ne_nil _ (List.cons_ne_nil _ _))
  · rw [hlookup]
    exact ⟨symbol, hfind, rfl, rfl⟩

end Ident

/-! ## Every step is orderly

By recursion on the tree. Each step is put together from declarations, uses and scopes, so there is
nothing more to it than following its definition. -/

mutual

/-- Resolving an expression is orderly. -/
theorem Expr.orderly_resolve : ∀ expr : Expr, Resolve.Orderly expr.resolve
  | .int _ _ => .pure _
  | .bool _ _ => .pure _
  | .var _ ident => ident.orderly_resolve.bind fun _ => .pure _
  | .index _ base position =>
    base.orderly_resolve.bind fun _ => (Expr.orderly_resolve position).bind fun _ => .pure _
  | .call _ callee args =>
    callee.orderly_resolve.bind fun _ => (Expr.orderly_resolveAll args).bind fun _ => .pure _
  | .unary _ _ operand => (Expr.orderly_resolve operand).bind fun _ => .pure _
  | .binary _ _ left right =>
    (Expr.orderly_resolve left).bind fun _ => (Expr.orderly_resolve right).bind fun _ => .pure _

/-- So is resolving several of them. -/
theorem Expr.orderly_resolveAll : ∀ exprs : List Expr, Resolve.Orderly (Expr.resolveAll exprs)
  | [] => .pure _
  | expr :: rest =>
    (Expr.orderly_resolve expr).bind fun _ => (Expr.orderly_resolveAll rest).bind fun _ => .pure _

end

/-- So is resolving a declaration. -/
theorem VarDecl.orderly_resolve (decl : VarDecl) : Resolve.Orderly decl.resolve :=
  (decl.ident.orderly_declare decl.declared).bind fun _ => .pure _

/-- So is resolving an assignment. -/
theorem Assignment.orderly_resolve (assignment : Assignment) :
    Resolve.Orderly assignment.resolve :=
  assignment.location.orderly_resolve.bind fun _ =>
    assignment.value.orderly_resolve.bind fun _ => .pure _

mutual

/-- So is resolving a statement. -/
theorem Stmt.orderly_resolve : ∀ stmt : Stmt, Resolve.Orderly stmt.resolve
  | .declare _ decl => decl.orderly_resolve.bind fun _ => .pure _
  | .assign _ assignment => assignment.orderly_resolve.bind fun _ => .pure _
  | .call _ callee args =>
    callee.orderly_resolve.bind fun _ => (Expr.orderly_resolveAll args).bind fun _ => .pure _
  | .ifElse _ cond onTrue onFalse =>
    cond.orderly_resolve.bind fun _ => (Stmt.orderly_resolveAll onTrue.stmts).withScope.bind
      fun _ =>
      (Stmt.orderly_resolveAll onFalse.stmts).withScope.bind fun _ => .pure _
  | .loop _ init cond increment body =>
    init.orderly_resolve.bind fun _ => cond.orderly_resolve.bind fun _ =>
      increment.orderly_resolve.bind fun _ =>
        (Stmt.orderly_resolveAll body.stmts).withScope.bind fun _ => .pure _
  | .leave _ => .pure _
  | .ret _ none => .pure _
  | .ret _ (some value) => value.orderly_resolve.bind fun _ => .pure _

/-- So is resolving a block. -/
theorem Stmt.orderly_resolveAll : ∀ stmts : List Stmt, Resolve.Orderly (Stmt.resolveAll stmts)
  | [] => .pure _
  | stmt :: rest =>
    (Stmt.orderly_resolve stmt).bind fun _ => (Stmt.orderly_resolveAll rest).bind fun _ => .pure _

end

end WordLang
