import Mathlib.Data.List.Forall2
import WordLang.Proofs.Resolution.Occurrences
import WordLang.Proofs.Resolution.Orderly

/-!
# Resolution follows lexical scoping

While a tree is resolved, the symbol table mirrors the occurrences that were read (`Tracks`): the
open scopes are the scope at hand and those around it, and each of them holds the first declarations
of its names. A block that is about to open has a number that no occurrence has in its scope, so it
starts out empty; when it closes, the scopes around it are as they were.

`Extends` says what a step of resolution adds: occurrences with the right symbols, ids that were not
in use, and the problems in the order of reading. There is one lemma for each construct, and the one
about trees is the main statement (`Tree.resolve_lexical`).

The rule for names speaks of occurrences alone: of the scopes that they stand in and of the order in
which they are read (`Occurrence.BoundAfter`). It knows of no table. A table forgets a scope when it
is closed, while the list of occurrences keeps everything, so the two agree only on the scopes that
are open. That a closed block cannot be meant any more is in the scopes: a scope is a row of block
numbers, blocks are numbered in the order in which they open, and so a later block never has the row
of an earlier one.

The two operations of resolution are to use a name and to declare one, and each has its lemma
(`Ident.extends_resolve`, `Ident.extends_declare`). Every construct is made of these two and of
opening and closing blocks (`Extends.append`, `Extends.block`).
-/

namespace WordLang

/-! ## First declarations

What a scope holds under a name is the first declaration of the name in it: one that comes later is
a duplicate, and changes nothing. -/

section FirstDeclaration

variable {seen : List Occurrence} {occurrence : Occurrence} {name : String} {scope : List Nat}

/-- An occurrence declares a name in a scope if it is a declaration of that name there. -/
theorem Occurrence.declares_iff :
    occurrence.declares scope name = true ↔
      occurrence.declared.isSome = true ∧ occurrence.scope = scope ∧ occurrence.name = name := by
  simp [Occurrence.declares, Occurrence.name, and_assoc]

/-- One more occurrence is the first declaration of its name only if there was none before it. -/
theorem firstDeclaration_concat (seen : List Occurrence) (occurrence : Occurrence) (name : String)
    (scope : List Nat) :
    firstDeclaration (seen ++ [occurrence]) name scope =
      (firstDeclaration seen name scope).or
        (if occurrence.declares scope name = true then some occurrence else none) := by
  rw [firstDeclaration, List.find?_append, List.find?_singleton]
  rfl

/-- Nothing is held by a scope that no occurrence is in. -/
theorem firstDeclaration_eq_none (h : ∀ occurrence ∈ seen, occurrence.scope ≠ scope) :
    firstDeclaration seen name scope = none := by
  refine List.find?_eq_none.mpr fun occurrence hmem hdeclares => ?_
  exact h occurrence hmem (Occurrence.declares_iff.mp hdeclares).2.1

end FirstDeclaration

/-! ## Occurrences one after the other

What has to be shown of the occurrences of a tree: that each has the symbol it should have, and that
no two declarations share an id. Both can be shown in parts. -/

/-- The occurrences `new` have the symbols they should have, when `seen` come before them. -/
def BoundAll : List Occurrence → List Occurrence → Prop
  | _, [] => True
  | seen, occurrence :: rest => occurrence.BoundAfter seen ∧ BoundAll (seen ++ [occurrence]) rest

/-- If occurrences in a row have the symbols they should have, and others do after them, then all of
them do. -/
theorem BoundAll.append {seen new more : List Occurrence} (h₁ : BoundAll seen new)
    (h₂ : BoundAll (seen ++ new) more) : BoundAll seen (new ++ more) := by
  induction new generalizing seen with
  | nil => rwa [List.append_nil] at h₂
  | cons occurrence rest ih =>
    refine ⟨h₁.1, ih h₁.2 ?_⟩
    rwa [List.append_assoc]

/-- The occurrence at some place in a row, after those before it. -/
theorem BoundAll.at {seen before after : List Occurrence} {occurrence : Occurrence}
    (h : BoundAll seen (before ++ occurrence :: after)) :
    occurrence.BoundAfter (seen ++ before) := by
  induction before generalizing seen with
  | nil =>
    rw [List.append_nil]
    exact h.1
  | cons first before ih =>
    have hrest := ih h.2
    rwa [List.append_assoc] at hrest

/-- The ids of the declarations are between the bounds, and each of them is used once. -/
structure Numbered (low high : Nat) (occurrences : List Occurrence) : Prop where
  between : low ≤ high
  bounds : ∀ id ∈ occurrences.filterMap Occurrence.declaredId?, low ≤ id.index ∧ id.index < high
  nodup : (occurrences.filterMap Occurrence.declaredId?).Nodup

/-- No declarations, and no ids. -/
theorem Numbered.nil (low : Nat) : Numbered low low [] :=
  ⟨Nat.le_refl _, fun _ hid => absurd hid List.not_mem_nil, List.nodup_nil⟩

/-- A use declares nothing. -/
theorem Numbered.used {scope : List Nat} {low high : Nat} (h : low ≤ high) (ident : Ident) :
    Numbered low high [ident.used scope] :=
  ⟨h, fun _ hid => absurd hid List.not_mem_nil, List.nodup_nil⟩

/-- Ids go on from where they left off, so those of the second part differ from those of the first.
-/
theorem Numbered.append {low mid high : Nat} {first second : List Occurrence}
    (h₁ : Numbered low mid first) (h₂ : Numbered mid high second) :
    Numbered low high (first ++ second) where
  between := h₁.between.trans h₂.between
  bounds := by
    rw [List.filterMap_append, List.forall_mem_append]
    exact ⟨fun id hid => ⟨(h₁.bounds id hid).1, (h₁.bounds id hid).2.trans_le h₂.between⟩,
      fun id hid => ⟨h₁.between.trans (h₂.bounds id hid).1, (h₂.bounds id hid).2⟩⟩
  nodup := by
    rw [List.filterMap_append, List.nodup_append]
    refine ⟨h₁.nodup, h₂.nodup, fun id hid other hother heq => ?_⟩
    subst heq
    exact absurd (h₁.bounds id hid).2 (Nat.not_lt.mpr (h₂.bounds id hother).1)

/-! ## The table mirrors what was read

The invariant. A scope agrees with a list of occurrences if it holds their first declarations; the
open scopes of the table agree with the scope at hand and its tails. -/

/-- A scope of the table holds the symbols of the first declarations. -/
structure Agrees (seen : List Occurrence) (scope : List Nat) (bindings : Scope) : Prop where
  first : ∀ name, (firstDeclaration seen name scope).map (·.symbol) =
    (bindings.lookup name).map some
  faultless : ∀ name symbol, bindings.lookup name = some symbol → symbol.fault = none

namespace Agrees

variable {seen : List Occurrence} {occurrence : Occurrence} {scope : List Nat} {bindings : Scope}

/-- A scope holds a name exactly if the name has been declared in it. -/
theorem isSome_iff (h : Agrees seen scope bindings) (name : String) :
    (firstDeclaration seen name scope).isSome = (bindings.lookup name).isSome := by
  rw [← Option.isSome_map, h.first name, Option.isSome_map]

/-- An occurrence that declares nothing new in a scope changes nothing there. -/
theorem concat (h : Agrees seen scope bindings)
    (hold : ∀ name, occurrence.declares scope name = true →
      (firstDeclaration seen name scope).isSome = true) :
    Agrees (seen ++ [occurrence]) scope bindings where
  first name := by
    rw [← h.first name, firstDeclaration_concat]
    split
    · next hdeclares =>
      obtain ⟨decl, hdecl⟩ := Option.isSome_iff_exists.mp (hold name hdeclares)
      rw [hdecl, Option.some_or]
    · rw [Option.or_none]
  faultless := h.faultless

/-- A declaration of a name that is not held makes a scope hold it. -/
theorem concat_cons (h : Agrees seen scope bindings) {symbol : Symbol}
    (hscope : occurrence.scope = scope) (hdeclared : occurrence.declared.isSome = true)
    (hsymbol : occurrence.symbol = some symbol) (hfault : symbol.fault = none)
    (hnew : firstDeclaration seen occurrence.name scope = none) :
    Agrees (seen ++ [occurrence]) scope ((occurrence.name, symbol) :: bindings) where
  first name := by
    rw [firstDeclaration_concat, List.lookup_cons]
    by_cases hname : occurrence.name = name
    · subst hname
      rw [if_pos (Occurrence.declares_iff.mpr ⟨hdeclared, hscope, rfl⟩), hnew, beq_self_eq_true]
      exact congrArg some hsymbol
    · rw [if_neg fun hdeclares => hname (Occurrence.declares_iff.mp hdeclares).2.2, Option.or_none,
        beq_false_of_ne (Ne.symm hname)]
      exact h.first name
  faultless name other hlookup := by
    rw [List.lookup_cons] at hlookup
    split at hlookup
    · cases hlookup
      exact hfault
    · exact h.faultless name other hlookup

/-- An occurrence in another scope changes nothing. -/
theorem forall₂_concat {scopes : List (List Nat)} {bindings : List Scope}
    (h : List.Forall₂ (Agrees seen) scopes bindings) (hscope : occurrence.scope ∉ scopes) :
    List.Forall₂ (Agrees (seen ++ [occurrence])) scopes bindings := by
  induction h with
  | nil => exact .nil
  | cons hhead _ ih =>
    rw [List.mem_cons, not_or] at hscope
    refine .cons (hhead.concat fun name hdeclares => ?_) (ih hscope.2)
    exact absurd (Occurrence.declares_iff.mp hdeclares).2.1 hscope.1

/-- The innermost scope that holds a name is the same on both sides, and what it holds has no fault.
-/
theorem findSome?_eq {scopes : List (List Nat)} {bindings : List Scope}
    (h : List.Forall₂ (Agrees seen) scopes bindings) (name : String) :
    (scopes.findSome? (firstDeclaration seen name)).map (·.symbol) =
        (bindings.findSome? (List.lookup name)).map some ∧
      ∀ symbol, bindings.findSome? (List.lookup name) = some symbol → symbol.fault = none := by
  induction h with
  | nil => exact ⟨rfl, fun symbol hsymbol => nomatch hsymbol⟩
  | @cons scope bindings _ _ hhead _ ih =>
    rw [List.findSome?_cons, List.findSome?_cons]
    have hname := hhead.first name
    rcases hdecl : firstDeclaration seen name scope with _ | decl
    · rw [hdecl] at hname
      rw [Option.map_eq_none_iff.mp hname.symm]
      exact ih
    · rw [hdecl] at hname
      obtain ⟨symbol, hsymbol, hsome⟩ := Option.map_eq_some_iff.mp hname.symm
      have hfault := hhead.faultless name symbol hsymbol
      rw [hsymbol]
      refine ⟨congrArg some hsome.symm, fun other hother => ?_⟩
      rwa [← Option.some.inj hother]

end Agrees

/-- A scope is not among those around it. -/
theorem not_mem_tail_tails (scope : List Nat) : scope ∉ scope.tails.tail := by
  cases scope with
  | nil => exact List.not_mem_nil
  | cons block scope =>
    intro hmem
    exact absurd ((List.mem_tails _ _).mp hmem).length_le (Nat.not_succ_le_self _)

/-- The table after the occurrences `seen`, in a scope of which `n` blocks have been opened. Each
scope of the table holds what was declared in the block that it stands for, and blocks that will be
opened have no declarations yet. -/
structure Tracks (scope : List Nat) (n : Nat) (seen : List Occurrence) (table : SymbolTable) :
    Prop where
  mirrors : List.Forall₂ (Agrees seen) scope.tails table.scopes
  fresh : ∀ occurrence ∈ seen, ∀ block, (block :: scope) <:+ occurrence.scope → block < n

namespace Tracks

variable {scope : List Nat} {n : Nat} {seen : List Occurrence} {table table' : SymbolTable}
  {occurrence : Occurrence}

/-- The innermost scope of the table is the scope at hand, and the others are those around it, in
the same order. -/
theorem split (h : Tracks scope n seen table) :
    Agrees seen scope table.current ∧
      List.Forall₂ (Agrees seen) scope.tails.tail table.scopes.tail := by
  have hmirrors := h.mirrors
  rw [table.scopes_eq_cons] at hmirrors
  cases scope with
  | nil => exact List.forall₂_cons.mp hmirrors
  | cons block scope => exact List.forall₂_cons.mp hmirrors

/-- An occurrence in the scope at hand leaves the scopes around it alone. -/
theorem concat (h : Tracks scope n seen table) (hscope : occurrence.scope = scope)
    (hcurrent : Agrees (seen ++ [occurrence]) scope table'.current)
    (haround : table'.scopes.tail = table.scopes.tail) :
    Tracks scope n (seen ++ [occurrence]) table' where
  mirrors := by
    have hrest :
      List.Forall₂ (Agrees (seen ++ [occurrence])) scope.tails.tail table.scopes.tail := by
      refine Agrees.forall₂_concat h.split.2 ?_
      rw [hscope]
      exact not_mem_tail_tails scope
    rw [table'.scopes_eq_cons, haround]
    cases scope with
    | nil => exact .cons hcurrent hrest
    | cons block scope => exact .cons hcurrent hrest
  fresh := by
    rw [List.forall_mem_append, List.forall_mem_singleton, hscope]
    refine ⟨h.fresh, fun block hsuffix => ?_⟩
    exact absurd hsuffix.length_le (Nat.not_succ_le_self _)

/-- A block that opens is empty. -/
theorem enter (h : Tracks scope n seen table) : Tracks (n :: scope) 0 seen table.enter where
  mirrors := by
    have hempty : ∀ name, firstDeclaration seen name (n :: scope) = none := by
      refine fun name => firstDeclaration_eq_none fun occurrence hmem hscope => ?_
      exact absurd (h.fresh occurrence hmem n (hscope ▸ List.suffix_refl _)) (Nat.lt_irrefl n)
    refine .cons ⟨fun name => ?_, fun name symbol hlookup => nomatch hlookup⟩ h.mirrors
    rw [hempty]
    rfl
  fresh occurrence hmem block hsuffix :=
    absurd (h.fresh occurrence hmem n ((List.suffix_cons _ _).trans hsuffix)) (Nat.lt_irrefl n)

/-- A block that closes leaves the scopes around it. What was declared in the block is in its own
scope, which is dropped; the others have not changed since it was opened. -/
theorem leave {new : List Occurrence} {m : Nat} (h : Tracks scope n seen table)
    (hblock : Tracks (n :: scope) m (seen ++ new) table')
    (hunder : ∀ occurrence ∈ new, (n :: scope) <:+ occurrence.scope) :
    Tracks scope (n + 1) (seen ++ new) table'.leave where
  mirrors := by
    have hinner : table'.leave.scopes = table'.scopes.tail := by
      have hlength := hblock.mirrors.length_eq
      rw [List.length_tails, SymbolTable.scopes, List.length_append] at hlength
      rcases hinner : table'.inner with _ | ⟨bindings, rest⟩
      · rw [hinner] at hlength
        exact absurd hlength (by simp)
      · simp [SymbolTable.leave, SymbolTable.scopes, hinner]
    rw [hinner]
    exact hblock.split.2
  fresh := by
    rw [List.forall_mem_append]
    refine ⟨fun occurrence hmem block hsuffix => ?_, fun occurrence hmem block hsuffix => ?_⟩
    · exact Nat.lt_succ_of_lt (h.fresh occurrence hmem block hsuffix)
    · have hsame : block :: scope = n :: scope :=
        List.IsSuffix.eq_of_length
          (List.suffix_of_suffix_length_le hsuffix (hunder occurrence hmem) (Nat.le_refl _)) rfl
      rw [(List.cons.inj hsame).1]
      exact Nat.lt_succ_self n

end Tracks

/-! ## What a step of resolution adds

The step lemma for each construct is that its resolution extends the occurrences by its own. Here is
how steps are put together. -/

/-- What resolving a part of a tree adds after the occurrences `seen`. The part has the occurrences
`old` before and `new` after it is resolved. Everything that is to be shown of a whole tree is a
field here, because it is shown of all parts together. -/
structure Extends (scope : List Nat) (n : Nat) (seen : List Occurrence) (table table' : SymbolTable)
    (old new : List Occurrence) : Prop where
  same : new.map Occurrence.bare = old.map Occurrence.bare
  under : ∀ occurrence ∈ new, scope <:+ occurrence.scope
  bound : BoundAll seen new
  numbered : Numbered table.nextId table'.nextId new
  errors : table'.errors = table.errors ++ new.filterMap Occurrence.problem?
  tracks : Tracks scope n (seen ++ new) table'

namespace Extends

variable {scope : List Nat} {n : Nat} {seen : List Occurrence} {table table' : SymbolTable}

/-- Doing nothing adds nothing. -/
theorem nil (h : Tracks scope n seen table) : Extends scope n seen table table [] [] where
  same := rfl
  under _ hmem := absurd hmem List.not_mem_nil
  bound := trivial
  numbered := .nil _
  errors := (List.append_nil _).symm
  tracks := by rwa [List.append_nil]

/-- One step after another adds what both add. The second step starts with what the first one left,
both in the table and in what was seen. -/
theorem append {m : Nat} {mid : SymbolTable} {old new old' new' : List Occurrence}
    (h₁ : Extends scope m seen table mid old new)
    (h₂ : Extends scope n (seen ++ new) mid table' old' new') :
    Extends scope n seen table table' (old ++ old') (new ++ new') where
  same := by rw [List.map_append, List.map_append, h₁.same, h₂.same]
  under := List.forall_mem_append.mpr ⟨h₁.under, h₂.under⟩
  bound := h₁.bound.append h₂.bound
  numbered := h₁.numbered.append h₂.numbered
  errors := by rw [h₂.errors, h₁.errors, List.filterMap_append, List.append_assoc]
  tracks := by
    rw [← List.append_assoc]
    exact h₂.tracks

/-- A block adds what its statements add. -/
theorem block {m : Nat} {old new : List Occurrence} (h : Tracks scope n seen table)
    (hblock : Extends (n :: scope) m seen table.enter table' old new) :
    Extends scope (n + 1) seen table table'.leave old new where
  same := hblock.same
  under occurrence hmem := (List.suffix_cons _ _).trans (hblock.under occurrence hmem)
  bound := hblock.bound
  numbered := hblock.numbered
  errors := hblock.errors
  tracks := h.leave hblock.tracks hblock.under

end Extends

/-! ## Names

The two operations that resolution is made of. Both have to be compared with the table only where it
answers: a use finds the innermost scope that holds the name, a declaration looks at the scope at
hand. -/

/-- A symbol that is bound comes first in the current scope. -/
theorem SymbolTable.current_bind (table : SymbolTable) (symbol : Symbol) :
    (table.bind symbol).current = (symbol.name, symbol) :: table.current := by
  unfold bind current
  cases table.inner <;> rfl

section

variable {scope : List Nat} {n : Nat} {seen : List Occurrence} {table table' : SymbolTable}

/-- A use changes no scope. -/
theorem Tracks.used (h : Tracks scope n seen table) (ident : Ident)
    (hcurrent : table'.current = table.current)
    (haround : table'.scopes.tail = table.scopes.tail) :
    Tracks scope n (seen ++ [ident.used scope]) table' := by
  refine h.concat rfl ?_ haround
  rw [hcurrent]
  exact h.split.1.concat fun name hdeclares => nomatch (Occurrence.declares_iff.mp hdeclares).1

/-- A use is bound rightly if it has the symbol of the declaration it means, and a fault if it means
none. -/
theorem Ident.boundAll_used {ident : Ident}
    (hfound : ∀ decl, designated seen scope ident.name = some decl → ident.symbol = decl.symbol)
    (hnone : designated seen scope ident.name = none →
      ∃ id, ident.symbol = some (.faulty id ident.name .unresolved)) :
    BoundAll seen [ident.used scope] where
  left :=
    { found := fun _ => hfound
      unresolved := fun _ => hnone
      declared := fun _ hty => nomatch hty
      duplicate := fun _ hty => nomatch hty }
  right := trivial

/-- A declaration is bound rightly if it has a symbol of its own, and a fault if its name is held
already. -/
theorem Ident.boundAll_declaredAs {ident : Ident} {ty : Ty}
    (hnew : firstDeclaration seen ident.name scope = none →
      ∃ id, ident.symbol = some (.declared id ident.name ty))
    (hheld : (firstDeclaration seen ident.name scope).isSome = true →
      ∃ id, ident.symbol = some (.faulty id ident.name .duplicate)) :
    BoundAll seen [ident.declaredAs scope ty] where
  left :=
    { found := fun hty => nomatch hty
      unresolved := fun hty => nomatch hty
      declared := by
        rintro _ ⟨⟩
        exact hnew
      duplicate := fun _ _ => hheld }
  right := trivial

/-- A name that is used gets the symbol of the declaration it means. The table looks through its
scopes from the innermost on, and so does the meaning of a name through the blocks around it. -/
theorem Ident.extends_resolve {ident ident' : Ident} (h : Tracks scope n seen table)
    (hrun : ident.resolve table = (ident', table')) :
    Extends scope n seen table table' [ident.used scope] [ident'.used scope] := by
  obtain ⟨rfl, rfl⟩ := Ident.resolve_eq.mp hrun
  -- the table finds what the history designates, or neither has anything
  obtain ⟨hdesignated, hfaultless⟩ := Agrees.findSome?_eq h.mirrors ident.name
  change (designated seen scope ident.name).map _ = (table.find? ident.name).map some at hdesignated
  rcases hfind : table.find? ident.name with _ | symbol
  · have hlookup : table.lookup ident.pos ident.name =
        (.faulty table.nextId ident.name .unresolved,
          table.skipId.report (.unresolved ident.pos ident.name)) := by
      rw [SymbolTable.lookup, hfind]
    rw [hfind] at hdesignated
    have hnone : designated seen scope ident.name = none := Option.map_eq_none_iff.mp hdesignated
    rw [hlookup]
    exact {
      same := rfl
      under := List.forall_mem_singleton.mpr (List.suffix_refl _)
      bound := Ident.boundAll_used (fun decl hdecl => nomatch hnone.symm.trans hdecl)
        fun _ => ⟨_, rfl⟩
      numbered := .used (Nat.le_succ _) _
      errors := rfl
      tracks := h.used _ rfl rfl }
  · have hlookup : table.lookup ident.pos ident.name = (symbol, table) := by
      rw [SymbolTable.lookup, hfind]
    rw [hfind] at hdesignated
    have hfault : symbol.fault = none := hfaultless symbol hfind
    obtain ⟨decl, hdecl, hsymbol⟩ := Option.map_eq_some_iff.mp hdesignated
    rw [hlookup]
    exact {
      same := rfl
      under := List.forall_mem_singleton.mpr (List.suffix_refl _)
      bound := by
        refine Ident.boundAll_used (fun other hother => ?_) fun hnone =>
          nomatch hdecl.symm.trans hnone
        rw [← Option.some.inj (hdecl.symm.trans hother)]
        exact hsymbol.symm
      numbered := .used (Nat.le_refl _) _
      errors := by simp [Occurrence.problem?, Occurrence.symbol, Ident.used, hfault]
      tracks := h.used _ rfl rfl }

/-- A name that is declared gets a symbol of its own, unless its scope holds the name. Only
declarations of the very same block count for that. -/
theorem Ident.extends_declare {ident ident' : Ident} {ty : Ty} (h : Tracks scope n seen table)
    (hrun : ident.declare ty table = (ident', table')) :
    Extends scope n seen table table' [ident.declaredAs scope ty]
      [ident'.declaredAs scope ty] := by
  obtain ⟨rfl, rfl⟩ := Ident.declare_eq.mp hrun
  -- the name is taken in the innermost scope exactly when it has been declared there before
  have hsome := h.split.1.isSome_iff ident.name
  by_cases hlookup : (table.current.lookup ident.name).isSome = true
  · rw [SymbolTable.add, if_pos hlookup]
    rw [hlookup] at hsome
    exact {
      same := rfl
      under := List.forall_mem_singleton.mpr (List.suffix_refl _)
      bound := by
        refine Ident.boundAll_declaredAs (fun hnone => ?_) fun _ => ⟨_, rfl⟩
        rw [show firstDeclaration seen ident.name scope = none from hnone] at hsome
        cases hsome
      numbered := by
        refine ⟨Nat.le_succ _, ?_, List.pairwise_singleton _ _⟩
        exact List.forall_mem_singleton.mpr ⟨Nat.le_refl _, Nat.lt_succ_self _⟩
      errors := rfl
      tracks := by
        refine h.concat rfl (h.split.1.concat fun name hdeclares => ?_) rfl
        obtain ⟨-, -, rfl⟩ := Occurrence.declares_iff.mp hdeclares
        exact hsome }
  · rw [SymbolTable.add, if_neg hlookup]
    rw [Bool.not_eq_true] at hlookup
    rw [hlookup] at hsome
    have hnone : firstDeclaration seen ident.name scope = none :=
      Option.isNone_iff_eq_none.mp (Option.isSome_eq_false_iff.mp hsome)
    exact {
      same := rfl
      under := List.forall_mem_singleton.mpr (List.suffix_refl _)
      bound := by
        refine Ident.boundAll_declaredAs (fun _ => ⟨_, rfl⟩) fun hheld => ?_
        rw [show firstDeclaration seen ident.name scope = none from hnone] at hheld
        cases hheld
      numbered := by
        rw [SymbolTable.nextId_bind]
        refine ⟨Nat.le_succ _, ?_, List.pairwise_singleton _ _⟩
        exact List.forall_mem_singleton.mpr ⟨Nat.le_refl _, Nat.lt_succ_self _⟩
      errors := by
        rw [SymbolTable.errors_bind]
        exact (List.append_nil _).symm
      tracks := by
        refine h.concat rfl ?_ ?_
        · rw [SymbolTable.current_bind]
          exact h.split.1.concat_cons rfl rfl rfl rfl hnone
        · rw [SymbolTable.scopes_bind]
          rfl }

end

/-! ## Expressions

Expressions only use names, from left to right. By recursion on the expression, for every table that
tracks what was read. -/

mutual

/-- Resolving an expression adds the names in it. -/
theorem Expr.extends_resolve {scope : List Nat} {n : Nat} {seen : List Occurrence}
    {table table' : SymbolTable} (h : Tracks scope n seen table) :
    ∀ {expr expr' : Expr}, expr.resolve table = (expr', table') →
      Extends scope n seen table table' (expr.occurrences scope) (expr'.occurrences scope)
  | .int _ _, _, hrun => by
    cases Resolve.pure_eq.mp hrun
    exact .nil h
  | .bool _ _, _, hrun => by
    cases Resolve.pure_eq.mp hrun
    exact .nil h
  | .var _ ident, _, hrun => by
    obtain ⟨ident', mid, hident, hrun⟩ := Resolve.bind_eq.mp hrun
    cases Resolve.pure_eq.mp hrun
    exact Ident.extends_resolve h hident
  | .index _ base position, _, hrun => by
    obtain ⟨base', mid, hbase, hrun⟩ := Resolve.bind_eq.mp hrun
    obtain ⟨position', mid', hposition, hrun⟩ := Resolve.bind_eq.mp hrun
    cases Resolve.pure_eq.mp hrun
    have hbase := Ident.extends_resolve h hbase
    exact hbase.append (Expr.extends_resolve hbase.tracks hposition)
  | .call _ callee args, _, hrun => by
    obtain ⟨callee', mid, hcallee, hrun⟩ := Resolve.bind_eq.mp hrun
    obtain ⟨args', mid', hargs, hrun⟩ := Resolve.bind_eq.mp hrun
    cases Resolve.pure_eq.mp hrun
    have hcallee := Ident.extends_resolve h hcallee
    exact hcallee.append (Expr.extends_resolveAll hcallee.tracks hargs)
  | .unary _ _ operand, _, hrun => by
    obtain ⟨operand', mid, hoperand, hrun⟩ := Resolve.bind_eq.mp hrun
    cases Resolve.pure_eq.mp hrun
    have hoperand := Expr.extends_resolve h hoperand
    exact hoperand
  | .binary _ _ left right, _, hrun => by
    obtain ⟨left', mid, hleft, hrun⟩ := Resolve.bind_eq.mp hrun
    obtain ⟨right', mid', hright, hrun⟩ := Resolve.bind_eq.mp hrun
    cases Resolve.pure_eq.mp hrun
    have hleft := Expr.extends_resolve h hleft
    exact hleft.append (Expr.extends_resolve hleft.tracks hright)

/-- Resolving several expressions adds the names in them, in order. -/
theorem Expr.extends_resolveAll {scope : List Nat} {n : Nat} {seen : List Occurrence}
    {table table' : SymbolTable} (h : Tracks scope n seen table) :
    ∀ {exprs exprs' : List Expr}, Expr.resolveAll exprs table = (exprs', table') →
      Extends scope n seen table table' (Expr.occurrencesAll scope exprs)
        (Expr.occurrencesAll scope exprs')
  | [], _, hrun => by
    cases Resolve.pure_eq.mp hrun
    exact .nil h
  | expr :: rest, _, hrun => by
    obtain ⟨expr', mid, hexpr, hrun⟩ := Resolve.bind_eq.mp hrun
    obtain ⟨rest', mid', hrest, hrun⟩ := Resolve.bind_eq.mp hrun
    cases Resolve.pure_eq.mp hrun
    have hexpr := Expr.extends_resolve h hexpr
    exact hexpr.append (Expr.extends_resolveAll hexpr.tracks hrest)

end

/-! ## Statements

Statements declare names and open blocks. A statement that opens blocks uses up their numbers, so
what comes after it starts with a higher one. -/

section

variable {scope : List Nat} {n : Nat} {seen : List Occurrence} {table table' : SymbolTable}

/-- Resolving a declaration adds the name that it declares. -/
theorem VarDecl.extends_resolve {decl decl' : VarDecl} (h : Tracks scope n seen table)
    (hrun : decl.resolve table = (decl', table')) :
    Extends scope n seen table table' [decl.occurrence scope] [decl'.occurrence scope] := by
  obtain ⟨ident', mid, hident, hrun⟩ := Resolve.bind_eq.mp hrun
  cases Resolve.pure_eq.mp hrun
  exact Ident.extends_declare h hident

/-- Resolving an assignment adds the names of its location, then those of its value. -/
theorem Assignment.extends_resolve {assignment assignment' : Assignment}
    (h : Tracks scope n seen table) (hrun : assignment.resolve table = (assignment', table')) :
    Extends scope n seen table table' (assignment.occurrences scope)
      (assignment'.occurrences scope) := by
  obtain ⟨location', mid, hlocation, hrun⟩ := Resolve.bind_eq.mp hrun
  obtain ⟨value', mid', hvalue, hrun⟩ := Resolve.bind_eq.mp hrun
  cases Resolve.pure_eq.mp hrun
  have hlocation := Expr.extends_resolve h hlocation
  exact hlocation.append (Expr.extends_resolve hlocation.tracks hvalue)

/-- Resolving changes no block. -/
theorem Stmt.blocks_of_resolve {stmt stmt' : Stmt} (hrun : stmt.resolve table = (stmt', table')) :
    stmt'.blocks = stmt.blocks := by
  -- no statement changes its number of blocks, since names are all that resolution writes
  cases stmt with
  | declare _ decl =>
    obtain ⟨_, _, _, hrun⟩ := Resolve.bind_eq.mp hrun
    cases Resolve.pure_eq.mp hrun
    rfl
  | assign _ assignment =>
    obtain ⟨_, _, _, hrun⟩ := Resolve.bind_eq.mp hrun
    cases Resolve.pure_eq.mp hrun
    rfl
  | call _ callee args =>
    obtain ⟨_, _, _, hrun⟩ := Resolve.bind_eq.mp hrun
    obtain ⟨_, _, _, hrun⟩ := Resolve.bind_eq.mp hrun
    cases Resolve.pure_eq.mp hrun
    rfl
  | ifElse _ cond onTrue onFalse =>
    obtain ⟨_, _, _, hrun⟩ := Resolve.bind_eq.mp hrun
    obtain ⟨_, _, _, hrun⟩ := Resolve.bind_eq.mp hrun
    obtain ⟨_, _, _, hrun⟩ := Resolve.bind_eq.mp hrun
    cases Resolve.pure_eq.mp hrun
    rfl
  | loop _ init cond increment body =>
    obtain ⟨_, _, _, hrun⟩ := Resolve.bind_eq.mp hrun
    obtain ⟨_, _, _, hrun⟩ := Resolve.bind_eq.mp hrun
    obtain ⟨_, _, _, hrun⟩ := Resolve.bind_eq.mp hrun
    obtain ⟨_, _, _, hrun⟩ := Resolve.bind_eq.mp hrun
    cases Resolve.pure_eq.mp hrun
    rfl
  | leave _ =>
    cases Resolve.pure_eq.mp hrun
    rfl
  | ret _ value =>
    cases value with
    | none =>
      cases Resolve.pure_eq.mp hrun
      rfl
    | some value =>
      obtain ⟨_, _, _, hrun⟩ := Resolve.bind_eq.mp hrun
      cases Resolve.pure_eq.mp hrun
      rfl

end

mutual

/-- Resolving a statement adds the names in it, and opens its blocks. A loop's head belongs to the
block around it, its body is a block of its own. -/
theorem Stmt.extends_resolve {scope : List Nat} {n : Nat} {seen : List Occurrence}
    {table table' : SymbolTable} (h : Tracks scope n seen table) :
    ∀ {stmt stmt' : Stmt}, stmt.resolve table = (stmt', table') →
      Extends scope (n + stmt.blocks) seen table table' (stmt.occurrences scope n)
        (stmt'.occurrences scope n)
  | .declare _ decl, _, hrun => by
    obtain ⟨decl', mid, hdecl, hrun⟩ := Resolve.bind_eq.mp hrun
    cases Resolve.pure_eq.mp hrun
    exact VarDecl.extends_resolve h hdecl
  | .assign _ assignment, _, hrun => by
    obtain ⟨assignment', mid, hassignment, hrun⟩ := Resolve.bind_eq.mp hrun
    cases Resolve.pure_eq.mp hrun
    exact Assignment.extends_resolve h hassignment
  | .call _ callee args, _, hrun => by
    obtain ⟨callee', mid, hcallee, hrun⟩ := Resolve.bind_eq.mp hrun
    obtain ⟨args', mid', hargs, hrun⟩ := Resolve.bind_eq.mp hrun
    cases Resolve.pure_eq.mp hrun
    have hcallee := Ident.extends_resolve h hcallee
    exact hcallee.append (Expr.extends_resolveAll hcallee.tracks hargs)
  | .ifElse _ cond onTrue onFalse, _, hrun => by
    obtain ⟨cond', mid, hcond, hrun⟩ := Resolve.bind_eq.mp hrun
    obtain ⟨trueStmts, mid', htrue, hrun⟩ := Resolve.bind_eq.mp hrun
    obtain ⟨falseStmts, mid'', hfalse, hrun⟩ := Resolve.bind_eq.mp hrun
    cases Resolve.pure_eq.mp hrun
    obtain ⟨inTrue, hinTrue, rfl⟩ := Resolve.withScope_eq.mp htrue
    obtain ⟨inFalse, hinFalse, rfl⟩ := Resolve.withScope_eq.mp hfalse
    have hcond := Expr.extends_resolve h hcond
    obtain ⟨m, hinTrue⟩ := Stmt.extends_resolveAll hcond.tracks.enter hinTrue
    -- the second branch starts from the table that the first has left, and gets a scope of its own
    have hbranch := hinTrue.block hcond.tracks
    obtain ⟨m', hinFalse⟩ := Stmt.extends_resolveAll hbranch.tracks.enter hinFalse
    exact hcond.append (hbranch.append (hinFalse.block hbranch.tracks))
  | .loop _ init cond increment body, _, hrun => by
    obtain ⟨init', mid₁, hinit, hrun⟩ := Resolve.bind_eq.mp hrun
    obtain ⟨cond', mid₂, hcond, hrun⟩ := Resolve.bind_eq.mp hrun
    obtain ⟨increment', mid₃, hincrement, hrun⟩ := Resolve.bind_eq.mp hrun
    obtain ⟨stmts, mid₄, hbody, hrun⟩ := Resolve.bind_eq.mp hrun
    cases Resolve.pure_eq.mp hrun
    obtain ⟨inBody, hinBody, rfl⟩ := Resolve.withScope_eq.mp hbody
    have hinit := Assignment.extends_resolve h hinit
    have hcond := Expr.extends_resolve hinit.tracks hcond
    have hincrement := Assignment.extends_resolve hcond.tracks hincrement
    obtain ⟨m, hinBody⟩ := Stmt.extends_resolveAll hincrement.tracks.enter hinBody
    exact hinit.append (hcond.append (hincrement.append (hinBody.block hincrement.tracks)))
  | .leave _, _, hrun => by
    cases Resolve.pure_eq.mp hrun
    exact .nil h
  | .ret _ none, _, hrun => by
    cases Resolve.pure_eq.mp hrun
    exact .nil h
  | .ret _ (some value), _, hrun => by
    obtain ⟨value', mid, hvalue, hrun⟩ := Resolve.bind_eq.mp hrun
    cases Resolve.pure_eq.mp hrun
    exact Expr.extends_resolve h hvalue

/-- Resolving several statements adds the names in them, in order. -/
theorem Stmt.extends_resolveAll {scope : List Nat} {n : Nat} {seen : List Occurrence}
    {table table' : SymbolTable} (h : Tracks scope n seen table) :
    ∀ {stmts stmts' : List Stmt}, Stmt.resolveAll stmts table = (stmts', table') →
      ∃ m, Extends scope m seen table table' (Stmt.occurrencesAll scope n stmts)
        (Stmt.occurrencesAll scope n stmts')
  | [], _, hrun => by
    cases Resolve.pure_eq.mp hrun
    exact ⟨n, .nil h⟩
  | stmt :: rest, _, hrun => by
    obtain ⟨stmt', mid, hstmt, hrun⟩ := Resolve.bind_eq.mp hrun
    obtain ⟨rest', mid', hrest, hrun⟩ := Resolve.bind_eq.mp hrun
    cases Resolve.pure_eq.mp hrun
    have hblocks := Stmt.blocks_of_resolve hstmt
    have hstmt := Stmt.extends_resolve h hstmt
    obtain ⟨m, hrest⟩ := Stmt.extends_resolveAll hstmt.tracks hrest
    refine ⟨m, ?_⟩
    rw [Stmt.occurrencesAll, Stmt.occurrencesAll, hblocks]
    exact hstmt.append hrest

end

/-! ## Programs

A function is declared in the global scope, and its parameters and the declarations of its body
share one block. -/

section

variable {scope : List Nat} {n : Nat} {seen : List Occurrence} {table table' : SymbolTable}

/-- Resolving parameters declares them, in order. -/
theorem Param.extends_resolveAll {params params' : List Param} (h : Tracks scope n seen table)
    (hrun : params.mapM Param.resolve table = (params', table')) :
    Extends scope n seen table table' (params.map (Param.occurrence scope))
      (params'.map (Param.occurrence scope)) := by
  induction params generalizing params' seen table with
  | nil =>
    cases Resolve.pure_eq.mp hrun
    exact .nil h
  | cons param rest ih =>
    rw [List.mapM_cons] at hrun
    obtain ⟨param', mid, hparam, hrun⟩ := Resolve.bind_eq.mp hrun
    obtain ⟨rest', mid', hrest, hrun⟩ := Resolve.bind_eq.mp hrun
    cases Resolve.pure_eq.mp hrun
    obtain ⟨ident', mid, hident, hrun⟩ := Resolve.bind_eq.mp hparam
    cases Resolve.pure_eq.mp hrun
    have hident := Ident.extends_declare h hident
    exact hident.append (ih hident.tracks hrest)

/-- Resolving keeps the types that parameters are declared with. -/
theorem Param.declared_of_resolveAll {params params' : List Param}
    (hrun : params.mapM Param.resolve table = (params', table')) :
    params'.map (·.declared) = params.map (·.declared) := by
  induction params generalizing params' table with
  | nil =>
    cases Resolve.pure_eq.mp hrun
    rfl
  | cons param rest ih =>
    rw [List.mapM_cons] at hrun
    obtain ⟨param', mid, hparam, hrun⟩ := Resolve.bind_eq.mp hrun
    obtain ⟨rest', mid', hrest, hrun⟩ := Resolve.bind_eq.mp hrun
    cases Resolve.pure_eq.mp hrun
    obtain ⟨ident', mid, hident, hrun⟩ := Resolve.bind_eq.mp hparam
    cases Resolve.pure_eq.mp hrun
    rw [List.map_cons, List.map_cons, ih hrest]

/-- Resolving a function declares its name, and adds what is in its block. -/
theorem FunDef.extends_resolve {definition definition' : FunDef} (h : Tracks [] n seen table)
    (hrun : definition.resolve table = (definition', table')) :
    Extends [] (n + 1) seen table table' (definition.occurrences n)
      (definition'.occurrences n) := by
  obtain ⟨ident', mid, hident, hrun⟩ := Resolve.bind_eq.mp hrun
  obtain ⟨inside, hinside, rfl⟩ := Resolve.withScope_eq.mp hrun
  obtain ⟨params', mid', hparams, hinside⟩ := Resolve.bind_eq.mp hinside
  obtain ⟨stmts, mid'', hbody, hinside⟩ := Resolve.bind_eq.mp hinside
  cases Resolve.pure_eq.mp hinside
  have hty : ({ definition with
      ident := ident', params := params'
      body := { definition.body with stmts } } : FunDef).ty = definition.ty := by
    rw [FunDef.ty, FunDef.ty, Param.declared_of_resolveAll hparams]
  have hident := Ident.extends_declare h hident
  have hparams := Param.extends_resolveAll hident.tracks.enter hparams
  obtain ⟨m, hbody⟩ := Stmt.extends_resolveAll hparams.tracks hbody
  rw [FunDef.occurrences, FunDef.occurrences, hty]
  exact hident.append ((hparams.append hbody).block hident.tracks)

/-- Resolving the items of a tree adds what each of them has, in order. -/
theorem Item.extends_resolveAll {items items' : List Item} (h : Tracks [] n seen table)
    (hrun : items.mapM Item.resolve table = (items', table')) :
    ∃ m, Extends [] m seen table table' (Item.occurrencesAll n items)
      (Item.occurrencesAll n items') := by
  induction items generalizing items' n seen table with
  | nil =>
    cases Resolve.pure_eq.mp hrun
    exact ⟨n, .nil h⟩
  | cons item rest ih =>
    rw [List.mapM_cons] at hrun
    obtain ⟨item', mid, hitem, hrun⟩ := Resolve.bind_eq.mp hrun
    obtain ⟨rest', mid', hrest, hrun⟩ := Resolve.bind_eq.mp hrun
    cases Resolve.pure_eq.mp hrun
    cases item with
    | global decl =>
      obtain ⟨decl', _, hdecl, hitem⟩ := Resolve.bind_eq.mp hitem
      cases Resolve.pure_eq.mp hitem
      have hdecl := VarDecl.extends_resolve h hdecl
      obtain ⟨m, hrest⟩ := ih hdecl.tracks hrest
      exact ⟨m, hdecl.append hrest⟩
    | function definition =>
      obtain ⟨definition', _, hdefinition, hitem⟩ := Resolve.bind_eq.mp hitem
      cases Resolve.pure_eq.mp hitem
      have hdefinition := FunDef.extends_resolve h hdefinition
      obtain ⟨m, hrest⟩ := ih hdefinition.tracks hrest
      exact ⟨m, hdefinition.append hrest⟩

end

/-! ## The start

Before the first item the table holds the run-time functions, as if they had been declared by
occurrences in the global scope. -/

/-- A scope holds what is declared in it at once. -/
theorem Agrees.declareAll {entries : List (String × Ty)} {index : Nat} {seen : List Occurrence}
    {bindings : Scope} (h : Agrees seen [] bindings)
    (hnew : ∀ entry ∈ entries, firstDeclaration seen entry.1 [] = none)
    (hnodup : (entries.map Prod.fst).Nodup) :
    Agrees (seen ++ (entries.zipIdx index).map runtimeDeclaration) []
      (SymbolTable.declareAll index entries bindings) := by
  induction entries generalizing index seen bindings with
  | nil => rwa [List.zipIdx_nil, List.map_nil, List.append_nil]
  | cons entry rest ih =>
    obtain ⟨name, ty⟩ := entry
    rw [List.forall_mem_cons] at hnew
    rw [List.map_cons, List.nodup_cons] at hnodup
    have hfirst : Agrees (seen ++ [runtimeDeclaration ((name, ty), index)]) []
        ((name, .declared index name ty) :: bindings) :=
      h.concat_cons rfl rfl rfl rfl hnew.1
    rw [List.zipIdx_cons, List.map_cons, List.append_cons]
    refine ih hfirst (fun other hother => ?_) hnodup.2
    rw [firstDeclaration_concat, hnew.2 other hother, Option.none_or, if_neg]
    intro hdeclares
    have hname : name = other.1 := (Occurrence.declares_iff.mp hdeclares).2.2
    exact hnodup.1 (List.mem_map.mpr ⟨other, hother, hname.symm⟩)

/-- The run-time functions have the first ids. -/
theorem numbered_runtime (entries : List (String × Ty)) (index : Nat) :
    Numbered index (index + entries.length) ((entries.zipIdx index).map runtimeDeclaration) := by
  induction entries generalizing index with
  | nil => exact .nil index
  | cons entry rest ih =>
    have hfirst : Numbered index (index + 1) [runtimeDeclaration (entry, index)] := by
      refine ⟨Nat.le_succ _, ?_, List.pairwise_singleton _ _⟩
      exact List.forall_mem_singleton.mpr ⟨Nat.le_refl _, Nat.lt_succ_self _⟩
    have hrest := hfirst.append (ih (index + 1))
    rwa [Nat.add_assoc, Nat.add_comm 1] at hrest

/-- The first table holds the run-time functions. -/
theorem tracks_new (nextId : Nat) :
    Tracks [] 0 (runtimeDeclarations nextId) (SymbolTable.new nextId) where
  mirrors := by
    have hempty : Agrees [] [] [] := ⟨fun _ => rfl, fun _ _ hlookup => nomatch hlookup⟩
    have hglobals : Agrees (runtimeDeclarations nextId) [] (SymbolTable.new nextId).globals :=
      @Agrees.declareAll builtins nextId [] [] hempty (fun _ _ => rfl) (by decide)
    exact .cons hglobals .nil
  fresh occurrence hmem block hsuffix := by
    obtain ⟨entry, -, rfl⟩ := List.mem_map.mp hmem
    exact absurd hsuffix.length_le (Nat.not_succ_le_zero _)

/-- Resolving a tree adds its occurrences to those of the run-time functions. -/
theorem Tree.extends_resolve (tree : Tree) (nextId : Nat) :
    ∃ n, Extends [] n (runtimeDeclarations nextId) (SymbolTable.new nextId)
      (tree.resolve nextId).2 tree.occurrences (tree.resolve nextId).1.occurrences :=
  Item.extends_resolveAll (tracks_new nextId) rfl

/-- Resolution follows lexical scoping. The names of the resolved tree are those of the tree; each
has the symbol that it should have after the names before it; no two declarations have the same id,
those of the run-time functions included; and the problems are those of the faulty names, in the
order of reading.

What a name should have is said in `Occurrence.BoundAfter` without a table: a use means the first
declaration of its name in the nearest block around it that has one so far. -/
theorem Tree.resolve_lexical (tree : Tree) (nextId : Nat) :
    (tree.resolve nextId).1.occurrences.map Occurrence.bare =
        tree.occurrences.map Occurrence.bare ∧
      (∀ before occurrence after,
        (tree.resolve nextId).1.occurrences = before ++ occurrence :: after →
          occurrence.BoundAfter (runtimeDeclarations nextId ++ before)) ∧
      ((runtimeDeclarations nextId ++ (tree.resolve nextId).1.occurrences).filterMap
        Occurrence.declaredId?).Nodup ∧
      (tree.resolve nextId).2.errors =
        (tree.resolve nextId).1.occurrences.filterMap Occurrence.problem? := by
  obtain ⟨n, h⟩ := tree.extends_resolve nextId
  refine ⟨h.same, fun before occurrence after hsplit => ?_, ?_, h.errors⟩
  · have hbound := h.bound
    rw [hsplit] at hbound
    exact hbound.at
  · exact ((numbered_runtime builtins nextId).append h.numbered).nodup

/-- A parameter hides a global, a branch hides the parameter, and the loop after it means the
parameter again; the body declares the name once more and uses one that nobody declares. -/
def shadowingTree : Tree :=
  let name (text : String) : Ident := { name := text }
  let x : Expr := .var {} (name "x")
  let bump : Assignment :=
    { location := x, value := .binary {} (.arith .add) x (.var {} (name "y")) }
  { items :=
      [.global { ident := name "x", declared := .int },
        .function
          { ident := name "f", params := [{ ident := name "x", declared := .int }], ret := .void
            body := { stmts :=
              [.ifElse {} x
                  { stmts := [.assign {} bump, .declare {} { ident := name "x", declared := .bool },
                      .assign {} { location := x, value := x }] }
                  { stmts := [] },
                .loop {} bump x bump
                  { stmts := [.declare {} { ident := name "y", declared := .int }] },
                .declare {} { ident := name "x", declared := .int }] } }] }

/-- In the branch the name means the declaration of the branch, which hides the parameter. -/
theorem Tree.resolve_lexical_shadowing :
    ∃ before occurrence after,
      (shadowingTree.resolve 3).1.occurrences = before ++ occurrence :: after ∧
        occurrence.BoundAfter (runtimeDeclarations 3 ++ before) ∧
        occurrence.name = "x" ∧ occurrence.symbol = some (.declared 13 "x" .bool) := by
  let names := (shadowingTree.resolve 3).1.occurrences
  let inBranch : Ident := { name := "x", symbol := some (.declared 13 "x" .bool) }
  have hsplit : names = names.take 8 ++ inBranch.used [0, 0] :: names.drop 9 := rfl
  exact ⟨_, _, _, hsplit, (shadowingTree.resolve_lexical 3).2.1 _ _ _ hsplit, rfl, rfl⟩

end WordLang
