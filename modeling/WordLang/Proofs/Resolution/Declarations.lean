import WordLang.Proofs.Semantics.Source
import WordLang.Proofs.Typing.Exactness

/-!
# What the names of a tree mean

A use inside of a function means one of four things: a run-time function, a function of the tree, a
global, or a parameter or local of that function (`Tree.Resolved.standsFor`). The first three stand
in the global scope, where no name is declared twice, so a name tells them apart
(`Tree.Resolved.eq_of_name_eq`).

What resolution guarantees is about occurrences in a row: each use is bound to the nearest
declaration before it, in a scope around it (`BoundAfter`). The work here is to see which item of
the tree that declaration belongs to. There are two things to go by:

* where it stands. An occurrence inside of a function stands in the block of that function or in a
  block inside of it, and no two functions have the same block, because blocks of the global scope
  are numbered (`Unopened`);
* what it declares. Its id and its type are among those that the function declares
  (`Occurrence.LocalTo`), which can be listed without resolving anything.

So a declaration in a scope around a use is in the same function, or in the global scope.
-/

namespace WordLang

/-! ## Symbols by what they stand for

Lists of symbols that a resolved tree has in its slots, sorted by what was declared. -/

/-- The symbols of the run-time functions, with ids from `nextId` on. -/
def runtimeSymbols (nextId : Nat) : List Symbol :=
  (runtimeDeclarations nextId).filterMap (·.symbol)

/-- The symbol of a function. -/
def Item.functionSymbol? : Item → Option Symbol
  | .global _ => none
  | .function definition => definition.ident.symbol

/-- The symbol of a global. -/
def Item.globalSymbol? : Item → Option Symbol
  | .global decl => decl.ident.symbol
  | .function _ => none

/-- The functions of a tree. -/
def Tree.functionSymbols (tree : Tree) : List Symbol :=
  tree.items.filterMap Item.functionSymbol?

/-- What there is to call: the run-time functions and those of the tree. -/
def Tree.callables (nextId : Nat) (tree : Tree) : List Symbol :=
  runtimeSymbols nextId ++ tree.functionSymbols

/-- The globals of a tree. -/
def Tree.globalSymbols (tree : Tree) : List Symbol :=
  tree.items.filterMap Item.globalSymbol?

/-- The parameters and locals of a tree. -/
def Tree.localSymbols (tree : Tree) : List Symbol :=
  (tree.occurrences.filter fun occurrence =>
    occurrence.declared.isSome && occurrence.scope ≠ []).filterMap (·.symbol)

/-! ## Occurrences by where they stand

An occurrence inside of a construct stands in the scope of the construct or further inside. In an
expression there is no further inside, and nothing is declared. The recursion is that of listing
occurrences; blocks put a number in front of the scope, so scopes are compared by suffixes. -/

mutual

/-- All names in an expression stand in its scope, and none is a declaration. -/
theorem Expr.mem_occurrences {scope : List Nat} : ∀ {expr : Expr} {occurrence : Occurrence},
    occurrence ∈ expr.occurrences scope → occurrence.scope = scope ∧ occurrence.declared = none
  | .int _ _, _, h => nomatch h
  | .bool _ _, _, h => nomatch h
  | .var _ ident, _, h => by
    obtain rfl := List.mem_singleton.mp h
    exact ⟨rfl, rfl⟩
  | .index _ base position, _, h => by
    rcases List.mem_cons.mp h with rfl | h
    · exact ⟨rfl, rfl⟩
    · exact Expr.mem_occurrences h
  | .call _ callee args, _, h => by
    rcases List.mem_cons.mp h with rfl | h
    · exact ⟨rfl, rfl⟩
    · exact Expr.mem_occurrencesAll h
  | .unary _ _ operand, _, h => by
    have h' : _ ∈ operand.occurrences scope := h
    exact Expr.mem_occurrences h'
  | .binary _ _ left right, _, h => by
    rcases List.mem_append.mp h with h | h
    · exact Expr.mem_occurrences h
    · exact Expr.mem_occurrences h

/-- So it is for several expressions. -/
theorem Expr.mem_occurrencesAll {scope : List Nat} :
    ∀ {exprs : List Expr} {occurrence : Occurrence}, occurrence ∈ Expr.occurrencesAll scope exprs →
      occurrence.scope = scope ∧ occurrence.declared = none
  | [], _, h => nomatch h
  | expr :: rest, _, h => by
    rcases List.mem_append.mp h with h | h
    · exact Expr.mem_occurrences h
    · exact Expr.mem_occurrencesAll h

end

/-- And for an assignment. -/
theorem Assignment.mem_occurrences {scope : List Nat} {assignment : Assignment}
    {occurrence : Occurrence} (h : occurrence ∈ assignment.occurrences scope) :
    occurrence.scope = scope ∧ occurrence.declared = none := by
  rcases List.mem_append.mp h with h | h
  · exact Expr.mem_occurrences h
  · exact Expr.mem_occurrences h

mutual

/-- The types of the locals that a statement declares. -/
def Stmt.localTypes : Stmt → List Ty
  | .declare _ decl => [decl.declared]
  | .ifElse _ _ onTrue onFalse =>
    Stmt.localTypesAll onTrue.stmts ++ Stmt.localTypesAll onFalse.stmts
  | .loop _ _ _ _ body => Stmt.localTypesAll body.stmts
  | _ => []

/-- The types of the locals that statements declare. -/
def Stmt.localTypesAll : List Stmt → List Ty
  | [] => []
  | stmt :: rest => stmt.localTypes ++ Stmt.localTypesAll rest

end

/-- The types of the parameters and locals of a function. -/
def FunDef.localTypes (definition : FunDef) : List Ty :=
  definition.params.map (·.declared) ++ Stmt.localTypesAll definition.body.stmts

/-- An occurrence stands in a scope or in a block of it. If it is a declaration, then its id and its
type are among those given. -/
structure Occurrence.LocalTo (scope : List Nat) (ids : List SymbolId) (types : List Ty)
    (occurrence : Occurrence) : Prop where
  under : scope <:+ occurrence.scope
  id_mem : occurrence.declared.isSome = true → ∀ symbol, occurrence.symbol = some symbol →
    symbol.id ∈ ids
  ty_mem : ∀ ty, occurrence.declared = some ty → ty ∈ types

namespace Occurrence.LocalTo

variable {scope scope' : List Nat} {ids ids' : List SymbolId} {types types' : List Ty}
  {occurrence : Occurrence}

/-- An occurrence that is local to an inner scope is local to an outer one, with more declarations.
-/
theorem mono (h : occurrence.LocalTo scope' ids' types') (hscope : scope <:+ scope')
    (hids : ids' ⊆ ids) (htypes : types' ⊆ types) : occurrence.LocalTo scope ids types where
  under := hscope.trans h.under
  id_mem hdeclared symbol hsymbol := hids (h.id_mem hdeclared symbol hsymbol)
  ty_mem ty hty := htypes (h.ty_mem ty hty)

/-- A use declares nothing. -/
theorem of_used (h : occurrence.scope = scope ∧ occurrence.declared = none) :
    occurrence.LocalTo scope ids types where
  under := h.1 ▸ List.suffix_refl _
  id_mem hdeclared := by
    rw [h.2] at hdeclared
    cases hdeclared
  ty_mem ty hty := by
    rw [h.2] at hty
    cases hty

/-- A declaration is local to its scope, with what it declares. -/
theorem of_declared (ident : Ident) (ty : Ty) :
    (ident.declaredAs scope ty).LocalTo scope ident.id?.toList [ty] where
  under := List.suffix_refl _
  id_mem _ symbol hsymbol := by
    have hsymbol : ident.symbol = some symbol := hsymbol
    rw [Ident.id?, hsymbol]
    exact List.mem_singleton_self _
  ty_mem other hother := by
    obtain rfl := Option.some.inj hother
    exact List.mem_singleton_self _

end Occurrence.LocalTo

mutual

/-- The names in a statement are local to its scope, and declare what the statement declares. -/
theorem Stmt.localTo_of_mem {scope : List Nat} : ∀ {stmt : Stmt} {n : Nat}
    {occurrence : Occurrence}, occurrence ∈ stmt.occurrences scope n →
      occurrence.LocalTo scope stmt.declares stmt.localTypes
  | .declare _ decl, _, _, h => by
    obtain rfl := List.mem_singleton.mp h
    exact .of_declared decl.ident decl.declared
  | .assign _ assignment, _, _, h => .of_used (Assignment.mem_occurrences h)
  | .call info callee args, _, _, h => by
    have hcall : _ ∈ (Expr.call info callee args).occurrences scope := h
    exact .of_used (Expr.mem_occurrences hcall)
  | .ifElse _ cond onTrue onFalse, _, _, h => by
    rcases List.mem_append.mp h with h | h
    · exact .of_used (Expr.mem_occurrences h)
    rcases List.mem_append.mp h with h | h
    -- a scope inside a block is inside the scope around it
    · exact (Stmt.localTo_of_memAll h).mono (List.suffix_cons _ _) (List.subset_append_right _ _)
        (List.subset_append_left _ _)
    · exact (Stmt.localTo_of_memAll h).mono (List.suffix_cons _ _) (List.subset_append_left _ _)
        (List.subset_append_right _ _)
  | .loop _ init cond increment body, _, _, h => by
    rcases List.mem_append.mp h with h | h
    · exact .of_used (Assignment.mem_occurrences h)
    rcases List.mem_append.mp h with h | h
    · exact .of_used (Expr.mem_occurrences h)
    rcases List.mem_append.mp h with h | h
    · exact .of_used (Assignment.mem_occurrences h)
    · exact (Stmt.localTo_of_memAll h).mono (List.suffix_cons _ _) (List.Subset.refl _)
        (List.Subset.refl _)
  | .leave _, _, _, h => nomatch h
  | .ret _ none, _, _, h => nomatch h
  | .ret _ (some value), _, _, h => by
    have hvalue : _ ∈ value.occurrences scope := h
    exact .of_used (Expr.mem_occurrences hvalue)

/-- So it is for several statements. -/
theorem Stmt.localTo_of_memAll {scope : List Nat} : ∀ {stmts : List Stmt} {n : Nat}
    {occurrence : Occurrence}, occurrence ∈ Stmt.occurrencesAll scope n stmts →
      occurrence.LocalTo scope (Stmt.declaresAll stmts) (Stmt.localTypesAll stmts)
  | [], _, _, h => nomatch h
  | stmt :: rest, _, _, h => by
    rcases List.mem_append.mp h with h | h
    · exact (Stmt.localTo_of_mem h).mono (List.suffix_refl _) (List.subset_append_right _ _)
        (List.subset_append_left _ _)
    · exact (Stmt.localTo_of_memAll h).mono (List.suffix_refl _) (List.subset_append_left _ _)
        (List.subset_append_right _ _)

end

/-- Parameters are declared in the scope of the body. -/
theorem Param.localTo_of_mem {scope : List Nat} {params : List Param} {occurrence : Occurrence}
    (h : occurrence ∈ params.map (Param.occurrence scope)) :
    occurrence.LocalTo scope (Param.declaresAll params) (params.map (·.declared)) := by
  induction params with
  | nil => cases h
  | cons param rest ih =>
    rcases List.mem_cons.mp h with rfl | h
    · exact (Occurrence.LocalTo.of_declared param.ident param.declared).mono (List.suffix_refl _)
        (List.subset_append_right _ _) (List.subset_append_left _ _)
    · exact (ih h).mono (List.suffix_refl _) (List.subset_append_left _ _)
        (List.subset_append_right [param.declared] _)

/-- The names inside of a function: its parameters and those of its body. -/
def FunDef.inside (n : Nat) (definition : FunDef) : List Occurrence :=
  definition.params.map (Param.occurrence [n]) ++ Stmt.occurrencesAll [n] 0 definition.body.stmts

/-- The names inside of a function are local to its block. -/
theorem FunDef.localTo_of_mem {definition : FunDef} {n : Nat} {occurrence : Occurrence}
    (h : occurrence ∈ definition.inside n) :
    occurrence.LocalTo [n] definition.scope definition.localTypes := by
  rcases List.mem_append.mp h with h | h
  · exact (Param.localTo_of_mem h).mono (List.suffix_refl _) (List.subset_append_right _ _)
      (List.subset_append_left _ _)
  · exact (Stmt.localTo_of_memAll h).mono (List.suffix_refl _) (List.subset_append_left _ _)
      (List.subset_append_right _ _)

/-- None of them stands in the global scope. -/
theorem FunDef.scope_ne_nil {definition : FunDef} {n : Nat} {occurrence : Occurrence}
    (h : occurrence ∈ definition.inside n) : occurrence.scope ≠ [] := by
  intro hscope
  have hunder := (FunDef.localTo_of_mem h).under
  rw [hscope] at hunder
  exact absurd (List.suffix_nil.mp hunder) (List.cons_ne_nil _ _)

/-! ## Items

The occurrences of a tree are those of its items, one item after the other. Each function among them
opens a block, so the number that an item starts with depends on the items before it. -/

/-- An occurrence belongs to an item. -/
theorem Item.exists_of_mem_occurrencesAll {items : List Item} {n : Nat} {occurrence : Occurrence}
    (h : occurrence ∈ Item.occurrencesAll n items) :
    ∃ item ∈ items, ∃ m, occurrence ∈ item.occurrences m := by
  induction items generalizing n with
  | nil => cases h
  | cons first rest ih =>
    rcases List.mem_append.mp h with h | h
    · exact ⟨first, List.mem_cons_self, n, h⟩
    · obtain ⟨item, hitem, hmem⟩ := ih h
      exact ⟨item, List.mem_cons_of_mem _ hitem, hmem⟩

/-- The occurrences of an item are among those of the tree. -/
theorem Item.subset_occurrencesAll {items : List Item} {item : Item} (n : Nat) (h : item ∈ items) :
    ∃ m, item.occurrences m ⊆ Item.occurrencesAll n items := by
  induction items generalizing n with
  | nil => cases h
  | cons first rest ih =>
    rcases List.mem_cons.mp h with rfl | h
    · exact ⟨n, List.subset_append_left _ _⟩
    · obtain ⟨m, hsub⟩ := ih (n + first.blocks) h
      exact ⟨m, List.Subset.trans hsub (List.subset_append_right _ _)⟩

/-- What stands in the global scope declares a global or a function. -/
theorem Item.mem_of_scope_eq_nil {items : List Item} {n : Nat} {occurrence : Occurrence}
    (h : occurrence ∈ Item.occurrencesAll n items) (hscope : occurrence.scope = []) :
    (∃ decl, Item.global decl ∈ items ∧ occurrence = decl.occurrence []) ∨
      ∃ definition, Item.function definition ∈ items ∧
        occurrence = definition.ident.declaredAs [] definition.ty := by
  obtain ⟨item, hitem, m, hmem⟩ := Item.exists_of_mem_occurrencesAll h
  cases item with
  | global decl => exact .inl ⟨decl, hitem, List.mem_singleton.mp hmem⟩
  | function definition =>
    rcases List.mem_cons.mp hmem with rfl | hmem
    · exact .inr ⟨definition, hitem, rfl⟩
    · exact absurd hscope (FunDef.scope_ne_nil hmem)

/-! ## Types of locals

No local is an array: a rule of typing says so for each declaration. -/

mutual

/-- No local of a well-typed statement is an array. -/
theorem Stmt.WellTyped.isArray_localTypes {ret : Ty} : ∀ {stmt : Stmt} {inLoop : Bool},
    stmt.WellTyped ret inLoop → ∀ ty ∈ stmt.localTypes, ty.isArray = false
  | .declare _ decl, _, h => by
    cases h with
    | declare hdecl => exact List.forall_mem_singleton.mpr hdecl
  | .ifElse _ cond onTrue onFalse, _, h => by
    cases h with
    | ifElse hcond htrue hfalse =>
      exact List.forall_mem_append.mpr ⟨Stmt.AllWellTyped.isArray_localTypes htrue,
        Stmt.AllWellTyped.isArray_localTypes hfalse⟩
  | .loop _ init cond increment body, _, h => by
    cases h with
    | loop hinit hcond hincrement hbody => exact Stmt.AllWellTyped.isArray_localTypes hbody
  | .assign _ _, _, _ | .call _ _ _, _, _ | .leave _, _, _ | .ret _ _, _, _ =>
    fun _ hty => absurd hty List.not_mem_nil

/-- Nor is one of several statements. -/
theorem Stmt.AllWellTyped.isArray_localTypes {ret : Ty} : ∀ {stmts : List Stmt} {inLoop : Bool},
    Stmt.AllWellTyped ret inLoop stmts → ∀ ty ∈ Stmt.localTypesAll stmts, ty.isArray = false
  | [], _, _ => fun _ hty => absurd hty List.not_mem_nil
  | stmt :: rest, _, h => by
    cases h with
    | cons hstmt hrest =>
      exact List.forall_mem_append.mpr ⟨Stmt.WellTyped.isArray_localTypes hstmt,
        Stmt.AllWellTyped.isArray_localTypes hrest⟩

end

/-- Nor is a parameter, or a local of a well-typed function. -/
theorem FunDef.WellTyped.isArray_localTypes {definition : FunDef} (h : definition.WellTyped) :
    ∀ ty ∈ definition.localTypes, ty.isArray = false := by
  refine List.forall_mem_append.mpr ⟨?_, h.body.isArray_localTypes⟩
  rw [List.forall_mem_map]
  exact h.params

/-! ## Blocks by number

Going through the items from left to right, the blocks that were opened so far have smaller numbers
than those still to come. So a declaration that stands in the block of a function cannot be one of
those that came before the function. -/

/-- No block of the global scope with a number from `n` on has been opened. -/
def Unopened (n : Nat) (seen : List Occurrence) : Prop :=
  ∀ occurrence ∈ seen, ∀ block, [block] <:+ occurrence.scope → block < n

/-- Two blocks of the global scope around the same thing are one. -/
theorem block_eq_of_suffix {block n : Nat} {scope : List Nat} (h : [block] <:+ scope)
    (h' : [n] <:+ scope) : block = n := by
  have heq : [block] = [n] :=
    List.IsSuffix.eq_of_length (List.suffix_of_suffix_length_le h h' (Nat.le_refl _)) rfl
  exact (List.cons.inj heq).1

/-- After an item, its blocks have been opened and the next ones have not. -/
theorem Unopened.item {n : Nat} {seen : List Occurrence} (h : Unopened n seen) (item : Item) :
    Unopened (n + item.blocks) (seen ++ item.occurrences n) := by
  have hnil : ∀ block : Nat, ¬ [block] <:+ [] := fun block hsuffix =>
    absurd (List.suffix_nil.mp hsuffix) (List.cons_ne_nil _ _)
  refine List.forall_mem_append.mpr ⟨fun occurrence hmem block hsuffix => ?_, ?_⟩
  · exact Nat.lt_add_right _ (h occurrence hmem block hsuffix)
  cases item with
  | global decl =>
    refine List.forall_mem_singleton.mpr fun block hsuffix => ?_
    exact absurd hsuffix (hnil block)
  | function definition =>
    refine List.forall_mem_cons.mpr ⟨fun block hsuffix => absurd hsuffix (hnil block), ?_⟩
    intro occurrence hmem block hsuffix
    rw [block_eq_of_suffix hsuffix (FunDef.localTo_of_mem hmem).under]
    exact Nat.lt_succ_self n

/-- If all occurrences in a row are bound, then those of its first part are, and those of the rest
are bound after them. -/
theorem BoundAll.of_append {seen new more : List Occurrence} (h : BoundAll seen (new ++ more)) :
    BoundAll seen new ∧ BoundAll (seen ++ new) more := by
  induction new generalizing seen with
  | nil =>
    rw [List.append_nil]
    exact ⟨trivial, h⟩
  | cons occurrence rest ih =>
    obtain ⟨hrest, hmore⟩ := ih h.2
    rw [List.append_assoc] at hmore
    exact ⟨⟨h.1, hrest⟩, hmore⟩

/-- The names of a function, after those of the items before it. -/
theorem Item.bound_of_mem {items : List Item} {n : Nat} {seen : List Occurrence}
    {definition : FunDef} (hmem : Item.function definition ∈ items)
    (h : BoundAll seen (Item.occurrencesAll n items)) (hfresh : Unopened n seen) :
    ∃ m before, BoundAll before (definition.occurrences m) ∧ Unopened m before ∧
      before ⊆ seen ++ Item.occurrencesAll n items ∧
      definition.occurrences m ⊆ Item.occurrencesAll n items := by
  -- every item before it opens its own blocks, so that of the function has a new number
  induction items generalizing n seen with
  | nil => cases hmem
  | cons item rest ih =>
    obtain ⟨hitem, hrest⟩ := BoundAll.of_append h
    rcases List.mem_cons.mp hmem with rfl | hmem
    · exact ⟨n, seen, hitem, hfresh, List.subset_append_left _ _, List.subset_append_left _ _⟩
    · obtain ⟨m, before, hbound, hunopened, hbefore, hsub⟩ := ih hmem hrest (hfresh.item item)
      rw [List.append_assoc] at hbefore
      have hsub' := List.Subset.trans hsub (List.subset_append_right (item.occurrences n) _)
      exact ⟨m, before, hbound, hunopened, hbefore, hsub'⟩

/-! ## Uses and their declarations

A tree that was resolved without problems, and what its symbols stand for. A declaration has its own
id and type. A use has the symbol of its declaration, and that one is local to the same function or
global. -/

/-- A tree whose names were resolved without problems. -/
structure Tree.Resolved (nextId : Nat) (tree : Tree) : Prop where
  bound : BoundAll (runtimeDeclarations nextId) tree.occurrences
  quiet : ∀ occurrence ∈ tree.occurrences, occurrence.problem? = none

/-- Resolution without problems leaves a resolved tree. -/
theorem Tree.resolved_of_resolve {tree : Tree} {nextId : Nat}
    (hquiet : (tree.resolve nextId).2.errors = []) : (tree.resolve nextId).1.Resolved nextId := by
  obtain ⟨n, h⟩ := tree.extends_resolve nextId
  have herrors := h.errors
  rw [hquiet] at herrors
  exact ⟨h.bound, List.filterMap_eq_nil_iff.mp (List.append_eq_nil_iff.mp herrors.symm).2⟩

/-- Without a problem, a declaration is the first one of its name in its scope, and has a new
symbol. -/
theorem Occurrence.BoundAfter.of_declared {seen : List Occurrence} {occurrence : Occurrence}
    {ty : Ty} (h : occurrence.BoundAfter seen) (hquiet : occurrence.problem? = none)
    (hty : occurrence.declared = some ty) :
    firstDeclaration seen occurrence.name occurrence.scope = none ∧
      ∃ id, occurrence.symbol = some (.declared id occurrence.name ty) := by
  rcases hfirst : firstDeclaration seen occurrence.name occurrence.scope with _ | decl
  · exact ⟨rfl, h.declared ty hty hfirst⟩
  · obtain ⟨id, hsymbol⟩ := h.duplicate ty hty (by rw [hfirst]; rfl)
    rw [Occurrence.problem?, hsymbol] at hquiet
    cases hquiet

/-- Without a problem, a use has the symbol of a declaration before it, in a scope around it. -/
theorem Occurrence.BoundAfter.of_used {seen : List Occurrence} {occurrence : Occurrence}
    (h : occurrence.BoundAfter seen) (hquiet : occurrence.problem? = none)
    (hused : occurrence.declared = none) :
    ∃ decl ∈ seen, decl.declared.isSome = true ∧ decl.scope <:+ occurrence.scope ∧
      occurrence.symbol = decl.symbol := by
  rcases hdecl : designated seen occurrence.scope occurrence.name with _ | decl
  · obtain ⟨id, hsymbol⟩ := h.unresolved hused hdecl
    rw [Occurrence.problem?, hsymbol] at hquiet
    cases hquiet
  · obtain ⟨scope, hscope, hfirst⟩ := List.exists_of_findSome?_eq_some hdecl
    rw [firstDeclaration] at hfirst
    have hdeclares := List.find?_some hfirst
    obtain ⟨hisSome, rfl, -⟩ := Occurrence.declares_iff.mp hdeclares
    exact ⟨decl, List.mem_of_find?_eq_some hfirst, hisSome, (List.mem_tails _ _).mp hscope,
      h.found hused decl hdecl⟩

/-- What a symbol stands for that is used in a function. -/
inductive Tree.StandsFor (nextId : Nat) (tree : Tree) (definition : FunDef) (symbol : Symbol) : Prop
    where
  | runtime (h : symbol ∈ runtimeSymbols nextId)
  | function (h : symbol ∈ tree.functionSymbols)
  | global (h : symbol ∈ tree.globalSymbols)
  /-- a parameter or local of that function -/
  | inside (h : symbol ∈ tree.localSymbols) (hid : symbol.id ∈ definition.scope)
      (hty : ∀ ty, symbol.ty = some ty → ty ∈ definition.localTypes)

namespace Tree.Resolved

variable {nextId : Nat} {tree : Tree}

/-- The symbol of a declaration has its name and its type. -/
theorem declared (h : tree.Resolved nextId) {occurrence : Occurrence} {ty : Ty}
    (hmem : occurrence ∈ tree.occurrences) (hty : occurrence.declared = some ty) :
    ∃ id, occurrence.symbol = some (.declared id occurrence.name ty) := by
  obtain ⟨before, after, hsplit⟩ := List.append_of_mem hmem
  have hbound := h.bound
  rw [hsplit] at hbound
  exact (hbound.at.of_declared (h.quiet occurrence hmem) hty).2

/-- The declarations of the global scope. -/
theorem standsFor_of_scope_eq_nil (h : tree.Resolved nextId) {decl : Occurrence}
    (hmem : decl ∈ runtimeDeclarations nextId ++ tree.occurrences) (hscope : decl.scope = [])
    (definition : FunDef) :
    ∃ symbol, decl.symbol = some symbol ∧ tree.StandsFor nextId definition symbol := by
  rcases List.mem_append.mp hmem with hmem | hmem
  · obtain ⟨entry, hentry, rfl⟩ := List.mem_map.mp hmem
    exact ⟨_, rfl, .runtime (List.mem_filterMap.mpr ⟨_, hmem, rfl⟩)⟩
  · rcases Item.mem_of_scope_eq_nil hmem hscope with ⟨global, hitem, rfl⟩ | ⟨function, hitem, rfl⟩
    · obtain ⟨id, hsymbol⟩ := h.declared hmem rfl
      exact ⟨_, hsymbol, .global (List.mem_filterMap.mpr ⟨_, hitem, hsymbol⟩)⟩
    · obtain ⟨id, hsymbol⟩ := h.declared hmem rfl
      exact ⟨_, hsymbol, .function (List.mem_filterMap.mpr ⟨_, hitem, hsymbol⟩)⟩

/-- The declarations of a function. -/
theorem standsFor_of_mem_inside (h : tree.Resolved nextId) {definition : FunDef} {m : Nat}
    {decl : Occurrence} (hmem : decl ∈ definition.inside m)
    (hsub : definition.inside m ⊆ tree.occurrences) (hdeclared : decl.declared.isSome = true) :
    ∃ symbol, decl.symbol = some symbol ∧ tree.StandsFor nextId definition symbol := by
  have hlocal := FunDef.localTo_of_mem hmem
  obtain ⟨ty, hty⟩ := Option.isSome_iff_exists.mp hdeclared
  obtain ⟨id, hsymbol⟩ := h.declared (hsub hmem) hty
  refine ⟨_, hsymbol, .inside ?_ (hlocal.id_mem hdeclared _ hsymbol) fun other hother => ?_⟩
  · have hscope := FunDef.scope_ne_nil hmem
    exact List.mem_filterMap.mpr
      ⟨decl, List.mem_filter.mpr ⟨hsub hmem, by simp [hdeclared, hscope]⟩, hsymbol⟩
  · obtain rfl := Option.some.inj hother
    exact hlocal.ty_mem ty hty

/-- A use in a function means something global, or something of that function. -/
theorem standsFor (h : tree.Resolved nextId) {definition : FunDef}
    (hmem : Item.function definition ∈ tree.items) :
    ∃ m, definition.inside m ⊆ tree.occurrences ∧
      ∀ occurrence ∈ definition.inside m, occurrence.declared = none →
        ∃ symbol, occurrence.symbol = some symbol ∧ tree.StandsFor nextId definition symbol := by
  have hruntime : Unopened 0 (runtimeDeclarations nextId) := by
    intro occurrence hmem block hsuffix
    obtain ⟨entry, -, rfl⟩ := List.mem_map.mp hmem
    exact absurd (List.suffix_nil.mp hsuffix) (List.cons_ne_nil _ _)
  obtain ⟨m, before, hbound, hunopened, hbefore, hsub⟩ := Item.bound_of_mem hmem h.bound hruntime
  have hinside : definition.inside m ⊆ tree.occurrences :=
    List.Subset.trans (List.subset_cons_self _ _) hsub
  refine ⟨m, hinside, fun occurrence hoccurrence hused => ?_⟩
  -- what the use may mean was seen before the function or stands before the use in it
  obtain ⟨first, last, hsplit⟩ := List.append_of_mem hoccurrence
  have hat : occurrence.BoundAfter
      (before ++ definition.ident.declaredAs [] definition.ty :: first) := by
    have hoccurrences : definition.occurrences m =
        (definition.ident.declaredAs [] definition.ty :: first) ++ occurrence :: last :=
      congrArg (List.cons _) hsplit
    rw [hoccurrences] at hbound
    exact hbound.at
  obtain ⟨decl, hdecl, hisSome, hscope, hsame⟩ :=
    hat.of_used (h.quiet occurrence (hinside hoccurrence)) hused
  rw [hsame]
  by_cases hnil : decl.scope = []
  · refine h.standsFor_of_scope_eq_nil ?_ hnil definition
    rcases List.mem_append.mp hdecl with hdecl | hdecl
    · exact hbefore hdecl
    · refine List.mem_append_right _ (hsub ?_)
      rw [FunDef.occurrences, ← FunDef.inside, hsplit]
      exact List.mem_append_left _ hdecl
  · -- the block that the declaration stands in is that of the function, which is new
    have hblock : [decl.scope.getLast hnil] <:+ decl.scope :=
      ⟨decl.scope.dropLast, List.dropLast_append_getLast hnil⟩
    rw [block_eq_of_suffix (hblock.trans hscope)
      (FunDef.localTo_of_mem hoccurrence).under] at hblock
    rcases List.mem_append.mp hdecl with hdecl | hdecl
    · exact absurd (hunopened decl hdecl m hblock) (Nat.lt_irrefl m)
    · rcases List.mem_cons.mp hdecl with rfl | hdecl
      · exact absurd rfl hnil
      · refine h.standsFor_of_mem_inside ?_ hinside hisSome
        rw [hsplit]
        exact List.mem_append_left _ hdecl

end Tree.Resolved

/-! ## Types and names

In the other direction: a symbol of one of the lists has a declaration in the tree, with its name
and its type. No name is declared twice in one scope, and so a name of the global scope has one
symbol only. -/

/-- No name is declared twice in one scope. -/
def OncePerScope (occurrences : List Occurrence) : Prop :=
  ∀ first ∈ occurrences, ∀ second ∈ occurrences, first.declared.isSome = true →
    second.declared.isSome = true → first.scope = second.scope → first.name = second.name →
    first.symbol = second.symbol

/-- A declaration without a problem is a new one in its scope. -/
theorem OncePerScope.concat {seen : List Occurrence} {occurrence : Occurrence}
    (h : OncePerScope seen) (hbound : occurrence.BoundAfter seen)
    (hquiet : occurrence.problem? = none) :
    OncePerScope (seen ++ [occurrence]) := by
  -- a declaration that is not reported is the first one of its name
  have hnew : ∀ other ∈ seen, other.declared.isSome = true → occurrence.declared.isSome = true →
      other.scope = occurrence.scope → other.name ≠ occurrence.name := by
    intro other hother hisSome hdeclared hscope hname
    obtain ⟨ty, hty⟩ := Option.isSome_iff_exists.mp hdeclared
    have hnone := (hbound.of_declared hquiet hty).1
    exact List.find?_eq_none.mp hnone other hother
      (Occurrence.declares_iff.mpr ⟨hisSome, hscope, hname⟩)
  intro first hfirst second hsecond hfirstSome hsecondSome hscope hname
  rw [List.mem_append, List.mem_singleton] at hfirst hsecond
  rcases hfirst with hold | rfl <;> rcases hsecond with hold' | rfl
  · exact h first hold second hold' hfirstSome hsecondSome hscope hname
  · exact absurd hname (hnew first hold hfirstSome hsecondSome hscope)
  · exact absurd hname.symm (hnew second hold' hsecondSome hfirstSome hscope.symm)
  · rfl

/-- So no name is declared twice if all occurrences are without problems. By induction on the
occurrences, from the left. -/
theorem BoundAll.oncePerScope {seen new : List Occurrence} (h : BoundAll seen new)
    (hquiet : ∀ occurrence ∈ new, occurrence.problem? = none) (hseen : OncePerScope seen) :
    OncePerScope (seen ++ new) := by
  induction new generalizing seen with
  | nil => rwa [List.append_nil]
  | cons occurrence rest ih =>
    rw [List.forall_mem_cons] at hquiet
    have hrest := ih h.2 hquiet.2 (hseen.concat h.1 hquiet.1)
    rwa [List.append_assoc] at hrest

/-- The run-time functions have different names. -/
theorem oncePerScope_runtime (nextId : Nat) : OncePerScope (runtimeDeclarations nextId) := by
  intro first hfirst second hsecond _ _ _ hname
  obtain ⟨⟨entry, index⟩, hentry, rfl⟩ := List.mem_map.mp hfirst
  obtain ⟨⟨entry', index'⟩, hentry', rfl⟩ := List.mem_map.mp hsecond
  obtain ⟨hle, hentry⟩ := List.mk_mem_zipIdx_iff_le_and_getElem?_sub.mp hentry
  obtain ⟨hle', hentry'⟩ := List.mk_mem_zipIdx_iff_le_and_getElem?_sub.mp hentry'
  have hnames : (builtins.map Prod.fst)[index - nextId]? =
      (builtins.map Prod.fst)[index' - nextId]? := by
    rw [List.getElem?_map, List.getElem?_map, hentry, hentry']
    exact congrArg some hname
  have hlt : index - nextId < (builtins.map Prod.fst).length := by
    rw [List.length_map]
    exact (List.getElem?_eq_some_iff.mp hentry).1
  have hindex := (List.getElem?_inj hlt (by decide)).mp hnames
  obtain rfl : index = index' := by omega
  obtain rfl := Option.some.inj (hentry.symm.trans hentry')
  rfl

namespace Tree.Resolved

variable {nextId : Nat} {tree : Tree} {symbol : Symbol}

/-- A function of the tree has its symbol, with its name and its type. -/
theorem exists_function (h : tree.Resolved nextId) (hmem : symbol ∈ tree.functionSymbols) :
    ∃ definition, Item.function definition ∈ tree.items ∧
      definition.ident.declaredAs [] definition.ty ∈ tree.occurrences ∧
      definition.ident.symbol = some symbol ∧ symbol.name = definition.ident.name ∧
      symbol.ty = some definition.ty := by
  obtain ⟨item, hitem, hsymbol⟩ := List.mem_filterMap.mp hmem
  cases item with
  | global decl => cases hsymbol
  | function definition =>
    obtain ⟨m, hsub⟩ := Item.subset_occurrencesAll 0 hitem
    have hdecl := hsub List.mem_cons_self
    obtain ⟨id, hdeclared⟩ := h.declared hdecl rfl
    have hsame : definition.ident.symbol = some symbol := hsymbol
    obtain rfl := Option.some.inj (hsame.symm.trans hdeclared)
    exact ⟨definition, hitem, hdecl, hsame, rfl, rfl⟩

/-- So has a global. -/
theorem exists_global (h : tree.Resolved nextId) (hmem : symbol ∈ tree.globalSymbols) :
    ∃ decl, Item.global decl ∈ tree.items ∧ decl.occurrence [] ∈ tree.occurrences ∧
      decl.ident.symbol = some symbol ∧ symbol.name = decl.ident.name ∧
      symbol.ty = some decl.declared := by
  obtain ⟨item, hitem, hsymbol⟩ := List.mem_filterMap.mp hmem
  cases item with
  | function definition => cases hsymbol
  | global decl =>
    obtain ⟨m, hsub⟩ := Item.subset_occurrencesAll 0 hitem
    have hdecl := hsub (List.mem_singleton_self _)
    obtain ⟨id, hdeclared⟩ := h.declared hdecl rfl
    have hsame : decl.ident.symbol = some symbol := hsymbol
    obtain rfl := Option.some.inj (hsame.symm.trans hdeclared)
    exact ⟨decl, hitem, hdecl, hsame, rfl, rfl⟩

/-- What is local is declared in a scope inside of the global one. -/
theorem exists_local (h : tree.Resolved nextId) (hmem : symbol ∈ tree.localSymbols) :
    ∃ occurrence ∈ tree.occurrences, occurrence.scope ≠ [] ∧ occurrence.declared = symbol.ty := by
  obtain ⟨occurrence, hoccurrence, hsymbol⟩ := List.mem_filterMap.mp hmem
  obtain ⟨hoccurrence, hlocal⟩ := List.mem_filter.mp hoccurrence
  rw [Bool.and_eq_true, decide_eq_true_eq] at hlocal
  obtain ⟨ty, hty⟩ := Option.isSome_iff_exists.mp hlocal.1
  obtain ⟨id, hdeclared⟩ := h.declared hoccurrence hty
  obtain rfl := Option.some.inj (hsymbol.symm.trans hdeclared)
  exact ⟨occurrence, hoccurrence, hlocal.2, hty⟩

/-- A run-time function is one of those in the table of them. -/
theorem exists_runtime (hmem : symbol ∈ runtimeSymbols nextId) :
    ∃ entry ∈ builtins, symbol.name = entry.1 ∧ symbol.ty = some entry.2 := by
  obtain ⟨decl, hdecl, hsymbol⟩ := List.mem_filterMap.mp hmem
  obtain ⟨⟨entry, index⟩, hentry, rfl⟩ := List.mem_map.mp hdecl
  obtain rfl := Option.some.inj hsymbol
  exact ⟨entry, List.fst_mem_of_mem_zipIdx hentry, rfl, rfl⟩

/-- Something global has a declaration in the global scope. -/
theorem exists_declaration (h : tree.Resolved nextId)
    (hmem : symbol ∈ tree.callables nextId ++ tree.globalSymbols) :
    ∃ decl ∈ runtimeDeclarations nextId ++ tree.occurrences, decl.declared.isSome = true ∧
      decl.scope = [] ∧ decl.symbol = some symbol ∧ decl.name = symbol.name := by
  rcases List.mem_append.mp hmem with hmem | hmem
  · rcases List.mem_append.mp hmem with hmem | hmem
    · obtain ⟨decl, hdecl, hsymbol⟩ := List.mem_filterMap.mp hmem
      refine ⟨decl, List.mem_append_left _ hdecl, ?_⟩
      obtain ⟨entry, -, rfl⟩ := List.mem_map.mp hdecl
      obtain rfl := Option.some.inj hsymbol
      exact ⟨rfl, rfl, rfl, rfl⟩
    · obtain ⟨definition, -, hdecl, hsymbol, hname, -⟩ := h.exists_function hmem
      exact ⟨_, List.mem_append_right _ hdecl, rfl, rfl, hsymbol, hname.symm⟩
  · obtain ⟨decl, -, hdecl, hsymbol, hname, -⟩ := h.exists_global hmem
    exact ⟨_, List.mem_append_right _ hdecl, rfl, rfl, hsymbol, hname.symm⟩

/-- What is global is known by its name. -/
theorem eq_of_name_eq (h : tree.Resolved nextId) {other : Symbol}
    (hmem : symbol ∈ tree.callables nextId ++ tree.globalSymbols)
    (hother : other ∈ tree.callables nextId ++ tree.globalSymbols)
    (hname : symbol.name = other.name) : symbol = other := by
  obtain ⟨decl, hdecl, hdeclared, hscope, hsymbol, hdeclName⟩ := h.exists_declaration hmem
  obtain ⟨decl', hdecl', hdeclared', hscope', hsymbol', hdeclName'⟩ := h.exists_declaration hother
  have honce := h.bound.oncePerScope h.quiet (oncePerScope_runtime nextId)
  have hsame := honce decl hdecl decl' hdecl' hdeclared hdeclared' (hscope.trans hscope'.symm)
    (by rw [hdeclName, hdeclName', hname])
  rw [hsymbol, hsymbol'] at hsame
  exact Option.some.inj hsame

end Tree.Resolved

end WordLang
