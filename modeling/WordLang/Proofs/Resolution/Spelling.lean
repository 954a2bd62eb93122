import Mathlib.Data.List.Nodup
import WordLang.Proofs.LocalNames

/-!
# How symbols are spelled

Every name gets a symbol from resolution, one that was made for it or for an earlier occurrence of
it. So what holds of the symbols when they are made holds of every name and its symbol
(`BoundAll.symbolsFit`): that they are spelled alike, for one. In the global scope of a tree that
resolves without problems no two names are the same: neither of its top declarations nor of run-time
functions (`Tree.Resolved.nodup_names`).

What a program refers to it has from a name of its tree (`Tree.exists_of_mem_references`). With the
first part, whatever the assembly refers to is then spelled like a name of the tree, and whatever it
defines is spelled like a top declaration.

Both parts use that resolution is known by the occurrences that it leaves, one after the other, and
need nothing of the symbol table.
-/

namespace WordLang

/-! ## Symbols of names

An induction over occurrences, from the left. A use has the symbol of an occurrence before it with
the same name, so whatever fits that one fits the use. -/

/-- Every occurrence has a symbol, which fits its name. -/
def SymbolsFit (fits : String → Symbol → Prop) (occurrences : List Occurrence) : Prop :=
  ∀ occurrence ∈ occurrences, ∃ symbol, occurrence.symbol = some symbol ∧
    fits occurrence.name symbol

section

variable {fits : String → Symbol → Prop} {seen new : List Occurrence} {occurrence : Occurrence}

/-- The symbols of the run-time functions are made for their names. -/
theorem symbolsFit_runtime (hdeclared : ∀ id name ty, fits name (.declared id name ty))
    (nextId : Nat) :
    SymbolsFit fits (runtimeDeclarations nextId) := by
  intro occurrence hmem
  obtain ⟨⟨entry, index⟩, -, rfl⟩ := List.mem_map.mp hmem
  exact ⟨_, rfl, hdeclared _ _ _⟩

/-- A symbol is made for a name, or is the symbol of an earlier occurrence of it. -/
theorem Occurrence.BoundAfter.exists_symbol
    (hdeclared : ∀ id name ty, fits name (.declared id name ty))
    (hfaulty : ∀ id name fault, fits name (.faulty id name fault)) (h : occurrence.BoundAfter seen)
    (hseen : SymbolsFit fits seen) :
    ∃ symbol, occurrence.symbol = some symbol ∧ fits occurrence.name symbol := by
  rcases hkind : occurrence.declared with _ | ty
  · rcases hdecl : designated seen occurrence.scope occurrence.name with _ | decl
    · obtain ⟨id, hsymbol⟩ := h.unresolved hkind hdecl
      exact ⟨_, hsymbol, hfaulty _ _ _⟩
    · obtain ⟨hmem, -, hname⟩ := mem_of_designated hdecl
      rw [h.found hkind decl hdecl, ← hname]
      exact hseen decl hmem
  · rcases hfirst : firstDeclaration seen occurrence.name occurrence.scope with _ | decl
    · obtain ⟨id, hsymbol⟩ := h.declared ty hkind hfirst
      exact ⟨_, hsymbol, hdeclared _ _ _⟩
    · obtain ⟨id, hsymbol⟩ := h.duplicate ty hkind (by rw [hfirst]; rfl)
      exact ⟨_, hsymbol, hfaulty _ _ _⟩

/-- If symbols fit the names that they are made for, then they fit wherever they are used. -/
theorem BoundAll.symbolsFit (hdeclared : ∀ id name ty, fits name (.declared id name ty))
    (hfaulty : ∀ id name fault, fits name (.faulty id name fault)) (h : BoundAll seen new)
    (hseen : SymbolsFit fits seen) : SymbolsFit fits (seen ++ new) := by
  induction new generalizing seen with
  | nil => rwa [List.append_nil]
  | cons occurrence rest ih =>
    have hsingle : SymbolsFit fits [occurrence] :=
      List.forall_mem_singleton.mpr (h.1.exists_symbol hdeclared hfaulty hseen)
    have hrest := ih h.2 (List.forall_mem_append.mpr ⟨hseen, hsingle⟩)
    rwa [List.append_assoc] at hrest

end

/-- Resolution gives every name a symbol. What holds of the symbols that it makes holds of all. -/
theorem Tree.symbolsFit_resolve {fits : String → Symbol → Prop}
    (hdeclared : ∀ id name ty, fits name (.declared id name ty))
    (hfaulty : ∀ id name fault, fits name (.faulty id name fault)) (tree : Tree) (nextId : Nat) :
    SymbolsFit fits (tree.resolve nextId).1.occurrences := by
  obtain ⟨n, hextends⟩ := tree.extends_resolve nextId
  intro occurrence hmem
  exact hextends.bound.symbolsFit hdeclared hfaulty (symbolsFit_runtime hdeclared nextId) occurrence
    (List.mem_append_right _ hmem)

/-! ## Names of the global scope

Only top declarations are in the global scope: what is inside of a function stands in a block. So
the names there are those of the items in order. -/

/-- The name that is declared in the global scope. -/
def Occurrence.globalName? (occurrence : Occurrence) : Option String :=
  if occurrence.declared.isSome ∧ occurrence.scope = [] then some occurrence.name else none

/-- The names that are declared in the global scope, in the order of their declarations. -/
def globalNames (occurrences : List Occurrence) : List String :=
  occurrences.filterMap Occurrence.globalName?

/-- A name of the global scope is that of a declaration in it. -/
theorem Occurrence.globalName?_eq_some {occurrence : Occurrence} {name : String} :
    occurrence.globalName? = some name ↔
      (occurrence.declared.isSome = true ∧ occurrence.scope = []) ∧ occurrence.name = name := by
  rw [globalName?]
  split <;> simp [*]

/-- Names are listed in the order of the occurrences. -/
theorem globalNames_append (first second : List Occurrence) :
    globalNames (first ++ second) = globalNames first ++ globalNames second :=
  List.filterMap_append

/-- The run-time functions come first. -/
theorem globalNames_runtime (nextId : Nat) :
    globalNames (runtimeDeclarations nextId) = builtins.map Prod.fst := rfl

/-- Nothing inside of a function is in the global scope. -/
theorem globalNames_inside (definition : FunDef) (n : Nat) :
    globalNames (definition.inside n) = [] := by
  refine List.filterMap_eq_nil_iff.mpr fun occurrence hmem => if_neg fun hglobal => ?_
  exact FunDef.scope_ne_nil hmem hglobal.2

/-- The names of the items are listed in order. -/
theorem globalNames_items (items : List Item) (n : Nat) :
    globalNames (Item.occurrencesAll n items) = items.map Item.name := by
  induction items generalizing n with
  | nil => rfl
  | cons item rest ih =>
    have hitem : globalNames (item.occurrences n) = [item.name] := by
      cases item with
      | global decl => rfl
      | function definition =>
        change globalNames ([definition.ident.declaredAs [] definition.ty] ++ definition.inside n) =
          _
        rw [globalNames_append, globalNames_inside]
        rfl
    rw [Item.occurrencesAll, globalNames_append, hitem, ih, List.map_cons]
    rfl

/-- A declaration that is not reported is the first one of its name. -/
theorem Occurrence.BoundAfter.nodup_globalNames {seen : List Occurrence} {occurrence : Occurrence}
    (h : occurrence.BoundAfter seen) (hquiet : occurrence.problem? = none)
    (hseen : (globalNames seen).Nodup) : (globalNames (seen ++ [occurrence])).Nodup := by
  rw [globalNames_append]
  rcases hname : occurrence.globalName? with _ | name
  · have hnone : globalNames [occurrence] = [] := List.filterMap_cons_none hname
    rwa [hnone, List.append_nil]
  · have hsome : globalNames [occurrence] = [name] := List.filterMap_cons_some hname
    obtain ⟨⟨hdeclared, hscope⟩, rfl⟩ := Occurrence.globalName?_eq_some.mp hname
    obtain ⟨ty, hty⟩ := Option.isSome_iff_exists.mp hdeclared
    have hnone := (h.of_declared hquiet hty).1
    rw [hsome, ← List.concat_eq_append]
    refine hseen.concat fun hmem => ?_
    obtain ⟨other, hother, hname⟩ := List.mem_filterMap.mp hmem
    obtain ⟨⟨hdeclared, hscope'⟩, hname⟩ := Occurrence.globalName?_eq_some.mp hname
    exact List.find?_eq_none.mp hnone other hother
      (Occurrence.declares_iff.mpr ⟨hdeclared, hscope'.trans hscope.symm, hname⟩)

/-- Without problems, no name of the global scope comes twice. -/
theorem BoundAll.nodup_globalNames {seen new : List Occurrence} (h : BoundAll seen new)
    (hquiet : ∀ occurrence ∈ new, occurrence.problem? = none) (hseen : (globalNames seen).Nodup) :
    (globalNames (seen ++ new)).Nodup := by
  induction new generalizing seen with
  | nil => rwa [List.append_nil]
  | cons occurrence rest ih =>
    rw [List.forall_mem_cons] at hquiet
    have hrest := ih h.2 hquiet.2 (h.1.nodup_globalNames hquiet.1 hseen)
    rwa [List.append_assoc] at hrest

/-- No two things of the global scope have the same name. -/
theorem Tree.Resolved.nodup_names {nextId : Nat} {tree : Tree} (h : tree.Resolved nextId) :
    (builtins.map Prod.fst ++ tree.items.map Item.name).Nodup := by
  have hnodup := h.bound.nodup_globalNames h.quiet (by rw [globalNames_runtime]; decide)
  rwa [globalNames_append, globalNames_runtime, Tree.occurrences, globalNames_items] at hnodup

/-! ## References

For each construct, what it refers to comes from its own names. The lists are in different orders,
so only membership is said. This needs no types, other than what is said of references of well-typed
trees. -/

/-- The references come from the occurrences. -/
def Sourced (occurrences : List Occurrence) (references : List (Reference Symbol)) : Prop :=
  ∀ reference ∈ references, ∃ occurrence ∈ occurrences, occurrence.symbol = some reference.target

namespace Sourced

variable {first second : List Occurrence} {references others : List (Reference Symbol)}
    {scope : List Nat}

/-- Without references there is nothing to show. -/
theorem nil {occurrences : List Occurrence} : Sourced occurrences [] :=
  fun _ hmem => absurd hmem List.not_mem_nil

/-- More occurrences do no harm. -/
theorem mono (h : Sourced first references) (hsub : first ⊆ second) :
    Sourced second references := by
  intro reference hmem
  obtain ⟨occurrence, hoccurrence, hsymbol⟩ := h reference hmem
  exact ⟨occurrence, hsub hoccurrence, hsymbol⟩

/-- References of two parts come from their names. -/
theorem append (h : Sourced first references) (h' : Sourced second others) :
    Sourced (first ++ second) (references ++ others) :=
  List.forall_mem_append.mpr
    ⟨h.mono (List.subset_append_left _ _), h'.mono (List.subset_append_right _ _)⟩

/-- The order of lowering is not that of reading. -/
theorem comm (h : Sourced first (references ++ others)) : Sourced first (others ++ references) :=
  List.forall_mem_append.mpr (List.forall_mem_append.mp h).symm

/-- A callee is a name. -/
theorem calls (ident : Ident) : Sourced [ident.used scope] ident.calls := by
  intro reference hmem
  obtain ⟨symbol, hsymbol, rfl⟩ := Option.map_eq_some_iff.mp (Option.mem_toList.mp hmem)
  exact ⟨_, List.mem_singleton_self _, hsymbol⟩

/-- So is an array. -/
theorem indexes (ident : Ident) : Sourced [ident.used scope] ident.indexes := by
  intro reference hmem
  obtain ⟨symbol, hsymbol, rfl⟩ := Option.map_eq_some_iff.mp (Option.mem_toList.mp hmem)
  exact ⟨_, List.mem_singleton_self _, hsymbol⟩

/-- So is a variable. -/
theorem loads (ident : Ident) (locals : List SymbolId) :
    Sourced [ident.used scope] (ident.loads locals) := by
  intro reference hmem
  obtain ⟨symbol, hsymbol, rfl⟩ := Option.map_eq_some_iff.mp (Option.mem_toList.mp hmem)
  exact ⟨_, List.mem_singleton_self _, (Option.filter_eq_some_iff.mp hsymbol).1⟩

end Sourced

section

variable {locals : List SymbolId}

mutual

/-- The references of an expression come from its names. -/
theorem Expr.sourced {scope : List Nat} : ∀ expr : Expr,
    Sourced (expr.occurrences scope) (expr.references locals)
  | .int _ _ => .nil
  | .bool _ _ => .nil
  | .var _ ident => .loads ident locals
  | .index _ base position => ((Sourced.indexes base).append position.sourced).comm
  | .call _ callee args => ((Sourced.calls callee).append (Expr.sourcedAll args)).comm
  | .unary _ _ operand => operand.sourced
  | .binary _ op left right => by
    have hboth : Sourced (left.occurrences scope ++ right.occurrences scope)
        (left.references locals ++ right.references locals) := left.sourced.append right.sourced
    cases op with
    | negate => exact (List.forall_mem_append.mp hboth).1
    | _ => exact hboth

/-- So do those of several expressions. -/
theorem Expr.sourcedAll {scope : List Nat} : ∀ exprs : List Expr,
    Sourced (Expr.occurrencesAll scope exprs) (Expr.referencesAll locals exprs)
  | [] => .nil
  | expr :: rest => expr.sourced.append (Expr.sourcedAll rest)

end

/-- So do those of an assignment. -/
theorem Assignment.sourced {scope : List Nat} (assignment : Assignment) :
    Sourced (assignment.occurrences scope) (assignment.references locals) := by
  obtain ⟨info, location, value⟩ := assignment
  have hboth : Sourced (location.occurrences scope ++ value.occurrences scope)
      (location.references locals ++ value.references locals) :=
        location.sourced.append value.sourced
  cases location with
  | var place ident => exact hboth.comm
  | _ => exact hboth

mutual

/-- So do those of a statement. -/
theorem Stmt.sourced : ∀ (stmt : Stmt) {scope : List Nat} {n : Nat},
    Sourced (stmt.occurrences scope n) (stmt.references locals)
  | .declare _ _, _, _ => .nil
  | .assign _ assignment, _, _ => assignment.sourced
  | .call _ callee args, _, _ => ((Sourced.calls callee).append (Expr.sourcedAll args)).comm
  | .ifElse _ cond onTrue onFalse, _, _ =>
    cond.sourced.append ((Stmt.sourcedAll onTrue.stmts).append (Stmt.sourcedAll onFalse.stmts))
  | .loop _ init cond increment body, _, _ =>
    init.sourced.append (cond.sourced.append
      (increment.sourced.append (Stmt.sourcedAll body.stmts)).comm)
  | .leave _, _, _ => .nil
  | .ret _ none, _, _ => .nil
  | .ret _ (some value), _, _ => value.sourced

/-- So do those of a block. -/
theorem Stmt.sourcedAll : ∀ (stmts : List Stmt) {scope : List Nat} {n : Nat},
    Sourced (Stmt.occurrencesAll scope n stmts) (Stmt.referencesAll locals stmts)
  | [], _, _ => .nil
  | stmt :: rest, _, _ => stmt.sourced.append (Stmt.sourcedAll rest)

end

end

/-- So do those of a tree. -/
theorem Item.sourcedAll (items : List Item) (n : Nat) :
    Sourced (Item.occurrencesAll n items) (items.flatMap Item.references) := by
  induction items generalizing n with
  | nil => exact .nil
  | cons item rest ih =>
    have hitem : Sourced (item.occurrences n) item.references := by
      cases item with
      | global decl => exact .nil
      | function definition =>
        have hinside : definition.inside n ⊆ definition.occurrences n := List.subset_cons_self _ _
        have hbody :
          Sourced (Stmt.occurrencesAll [n] 0 definition.body.stmts) definition.references :=
          Stmt.sourcedAll _
        exact hbody.mono (List.Subset.trans (List.subset_append_right _ _) hinside)
    rw [List.flatMap_cons]
    exact hitem.append (ih _)

/-- A program refers to nothing that is not spelled like a name of its tree. -/
theorem Tree.exists_of_mem_references {tree : Tree} {nextId : Nat} {program : Program}
    (hquiet : (tree.resolve nextId).2.errors = [])
    (hlower : (tree.check nextId).tree.lower = .ok program) {reference : Reference Symbol}
    (hmem : reference ∈ program.references) :
    ∃ occurrence ∈ tree.occurrences, occurrence.name = reference.target.name := by
  -- types do not matter here, so any of them will do
  have hplain : tree.plain (fun _ => true) = true := Tree.plain_of_lower hlower fun _ _ => rfl
  rw [Tree.references_of_lower (fun _ _ => rfl) hplain hquiet hlower] at hmem
  obtain ⟨occurrence, hoccurrence, hsymbol⟩ := Item.sourcedAll _ 0 reference hmem
  obtain ⟨n, hextends⟩ := tree.extends_resolve nextId
  have hspelled :
    SymbolsFit (fun name symbol => symbol.name = name) (tree.resolve nextId).1.occurrences :=
    tree.symbolsFit_resolve (fun _ _ _ => rfl) (fun _ _ _ => rfl) nextId
  obtain ⟨symbol, hbound, hspelled⟩ := hspelled occurrence hoccurrence
  obtain rfl := Option.some.inj (hbound.symm.trans hsymbol)
  have hbare : occurrence.bare ∈ tree.occurrences.map Occurrence.bare := by
    rw [← hextends.same]
    exact List.mem_map_of_mem hoccurrence
  obtain ⟨origin, horigin, hsame⟩ := List.mem_map.mp hbare
  have hname : origin.bare.name = occurrence.bare.name := by rw [hsame]
  exact ⟨origin, horigin, hname.trans hspelled.symm⟩

end WordLang
