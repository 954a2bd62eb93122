import WordLang.Compiler
import WordLang.Proofs.Relabelling.Basic
import WordLang.Proofs.Resolution.Declarations
import WordLang.Proofs.Typing.Annotation

/-!
# What is assigned to

Only a variable and an element of one can be assigned to. A tree may say otherwise: nothing keeps a
call from standing where a location should, and neither names nor types are wrong then. Lowering
finds it, because it has no way to lower such an assignment. So a tree that was lowered assigns to
places only (`Tree.plain_of_lower`), and theorems about trees that have a program need not ask for
it: what they have to ask of a tree are its declared types.

The types that a lowered tree declares are those of the tree as it was read, since resolution
changes neither where a name stands nor what it is declared with (`Tree.exists_origin`).
-/

namespace WordLang

/-- Resolution changes neither where a name stands nor what it is declared with. -/
theorem Tree.exists_origin {tree : Tree} {nextId : Nat} {occurrence : Occurrence}
    (h : occurrence ∈ (tree.resolve nextId).1.occurrences) :
    ∃ origin ∈ tree.occurrences, origin.scope = occurrence.scope ∧
      origin.declared = occurrence.declared := by
  obtain ⟨n, hextends⟩ := tree.extends_resolve nextId
  have hbare : occurrence.bare ∈ tree.occurrences.map Occurrence.bare := by
    rw [← hextends.same]
    exact List.mem_map_of_mem h
  obtain ⟨origin, horigin, hsame⟩ := List.mem_map.mp hbare
  have hscope : origin.bare.scope = occurrence.bare.scope := by rw [hsame]
  have hdeclared : origin.bare.declared = occurrence.bare.declared := by rw [hsame]
  exact ⟨origin, horigin, hscope, hdeclared⟩

/-! ## Trees that are lowered assign to places

By recursion on the tree. An assignment that was lowered is to a place; the types that are declared
are those of the declarations among the occurrences, which is how they are known of the whole tree.
-/

section

variable {ok : Ty → Bool}

/-- Whether an expression is a place shows in its kind, which a relabelling keeps. -/
theorem Expr.isPlace_relabel (f : Relabelling) (expr : Expr) :
    (expr.relabel f).isPlace = expr.isPlace := by
  cases expr <;> rfl

mutual

/-- What a statement assigns to and declares is the same after relabelling. -/
theorem Stmt.plain_relabel (f : Relabelling) :
    ∀ stmt : Stmt, (stmt.relabel f).plain ok = stmt.plain ok
  | .declare _ _ => rfl
  | .assign _ assignment => Expr.isPlace_relabel f assignment.location
  | .call _ _ _ => rfl
  | .ifElse _ _ onTrue onFalse => by
    rw [Stmt.relabel, Stmt.plain, Stmt.plainAll_relabel f onTrue.stmts,
      Stmt.plainAll_relabel f onFalse.stmts, Stmt.plain]
  | .loop _ init _ increment body => by
    rw [Stmt.relabel, Stmt.plain, Stmt.plainAll_relabel f body.stmts, Assignment.relabel,
      Assignment.relabel, Expr.isPlace_relabel, Expr.isPlace_relabel, Stmt.plain]
  | .leave _ => rfl
  | .ret _ none => rfl
  | .ret _ (some _) => rfl

/-- So it is for a block. -/
theorem Stmt.plainAll_relabel (f : Relabelling) : ∀ stmts : List Stmt,
    Stmt.plainAll ok (Stmt.relabelAll f stmts) = Stmt.plainAll ok stmts
  | [] => rfl
  | stmt :: rest => by
    rw [Stmt.relabelAll, Stmt.plainAll, Stmt.plain_relabel f stmt, Stmt.plainAll_relabel f rest,
      Stmt.plainAll]

end

/-- And for a tree, as far as its slots are concerned. -/
theorem Tree.plain_erase (tree : Tree) : tree.erase.plain ok = tree.plain ok := by
  rw [Tree.plain, Tree.erase, Tree.relabel, List.all_map, Tree.plain]
  congr 1
  funext item
  cases item with
  | global decl => rfl
  | function definition =>
    simp only [Function.comp_apply, Item.relabel, Item.plain, FunDef.plain, FunDef.ty_relabel]
    simp only [FunDef.relabel, List.all_map, Stmt.plainAll_relabel]
    rfl

/-- The types that are declared are `ok`. -/
def DeclaresOk (ok : Ty → Bool) (occurrences : List Occurrence) : Prop :=
  ∀ occurrence ∈ occurrences, ∀ ty, occurrence.declared = some ty → ok ty = true

/-- An assignment that was lowered has a variable or an element for its location. -/
theorem Assignment.isPlace_of_lower {assignment : Assignment} {b b' : Builder} {chain : Chain}
    (h : assignment.lower b = .ok (chain, b')) : assignment.location.isPlace = true := by
  rcases Assignment.location_of_lower_eq_ok h with ⟨place, ident, h⟩ | ⟨place, base, position, h⟩
  · rw [h]
    rfl
  · rw [h]
    rfl

mutual

/-- A statement that was lowered assigns to places. -/
theorem Stmt.plain_of_lower : ∀ {stmt : Stmt} {loopExit : Option InstId} {b b' : Builder}
    {chain : Chain} {scope : List Nat} {n : Nat},
    stmt.lower loopExit b = .ok (chain, b') → DeclaresOk ok (stmt.occurrences scope n) →
      stmt.plain ok = true
  | .declare _ decl, _, _, _, _, _, _, _, hok => hok _ (List.mem_singleton_self _) _ rfl
  | .assign _ assignment, _, _, _, _, _, _, h, _ => by
    rw [Stmt.lower_assign] at h
    exact Assignment.isPlace_of_lower h
  | .call _ _ _, _, _, _, _, _, _, _, _ => rfl
  | .ifElse _ cond onTrue onFalse, _, _, _, _, _, _, h, hok => by
    obtain ⟨_, _, _, _, _, _, _, htrue, _, _, hfalse, -⟩ := Stmt.lower_ifElse_eq_ok.mp h
    have hblocks := (List.forall_mem_append.mp hok).2
    obtain ⟨hokTrue, hokFalse⟩ := List.forall_mem_append.mp hblocks
    rw [Stmt.plain, Stmt.plainAll_of_lower htrue hokTrue, Stmt.plainAll_of_lower hfalse hokFalse]
    rfl
  | .loop _ init cond increment body, _, _, _, _, _, _, h, hok => by
    obtain ⟨_, _, hinit, _, _, _, _, _, _, _, hbody, _, _, hstep, -⟩ := Stmt.lower_loop_eq_ok.mp h
    have hrest := (List.forall_mem_append.mp (List.forall_mem_append.mp hok).2).2
    rw [Stmt.plain, Assignment.isPlace_of_lower hinit, Assignment.isPlace_of_lower hstep,
      Stmt.plainAll_of_lower hbody (List.forall_mem_append.mp hrest).2]
    rfl
  | .leave _, _, _, _, _, _, _, _, _ => rfl
  | .ret _ none, _, _, _, _, _, _, _, _ => rfl
  | .ret _ (some _), _, _, _, _, _, _, _, _ => rfl

/-- So does a block. -/
theorem Stmt.plainAll_of_lower : ∀ {stmts : List Stmt} {loopExit : Option InstId} {b b' : Builder}
    {exit last : InstId} {scope : List Nat} {n : Nat},
    Stmt.lowerAll loopExit exit stmts b = .ok (last, b') →
      DeclaresOk ok (Stmt.occurrencesAll scope n stmts) → Stmt.plainAll ok stmts = true
  | [], _, _, _, _, _, _, _, _, _ => rfl
  | stmt :: rest, _, _, _, _, _, _, _, h, hok => by
    obtain ⟨_, _, hstmt, hrest⟩ := Stmt.lowerAll_cons_eq_ok.mp h
    obtain ⟨hokStmt, hokRest⟩ := List.forall_mem_append.mp hok
    rw [Stmt.plainAll, Stmt.plain_of_lower hstmt hokStmt, Stmt.plainAll_of_lower hrest hokRest]
    rfl

end

/-- So does a function, whose parameters and return type count as well. -/
theorem FunDef.plain_of_lower {definition : FunDef} {constants pool : List Constant}
    {routine : Routine} {n : Nat} (h : definition.lower constants = .ok (routine, pool))
    (hok : DeclaresOk ok (definition.occurrences n)) : definition.plain ok = true := by
  obtain ⟨_, -, _, _, -, _, _, hbody, -⟩ := FunDef.lower_eq_ok.mp h
  obtain ⟨hself, hinside⟩ := List.forall_mem_cons.mp hok
  obtain ⟨hparams, hstmts⟩ := List.forall_mem_append.mp hinside
  have hall : definition.params.all (fun param => ok param.declared) = true := by
    rw [List.all_eq_true]
    intro param hparam
    exact hparams _ (List.mem_map_of_mem hparam) _ rfl
  rw [FunDef.plain, hself _ rfl, hall, Stmt.plainAll_of_lower hbody hstmts]
  rfl

/-- So do all items of a tree. -/
theorem Item.plain_of_lowerAll {items : List Item} {program program' : Program} {n : Nat}
    (h : items.foldlM Item.lower program = .ok program')
    (hok : DeclaresOk ok (Item.occurrencesAll n items)) : items.all (Item.plain ok) = true := by
  induction items generalizing program n with
  | nil => rfl
  | cons item rest ih =>
    obtain ⟨mid, hitem, hrest⟩ := Item.lowerAll_cons_eq_ok.mp h
    obtain ⟨hokItem, hokRest⟩ := List.forall_mem_append.mp hok
    have hplain : item.plain ok = true := by
      cases item with
      | global decl => exact hokItem _ (List.mem_singleton_self _) _ rfl
      | function definition =>
        obtain ⟨routine, pool, hlower, -⟩ := Item.lower_function_eq_ok.mp hitem
        exact FunDef.plain_of_lower hlower hokItem
    rw [List.all_cons, hplain, ih hrest hokRest]
    rfl

/-- What has a program assigns to places only. -/
theorem Tree.plain_of_lower {tree : Tree} {nextId : Nat} {program : Program}
    (hlower : (tree.check nextId).tree.lower = .ok program)
    (hok : ∀ ty ∈ tree.declaredTypes, ok ty = true) : tree.plain ok = true := by
  have hresolved : DeclaresOk ok (tree.resolve nextId).1.occurrences := by
    intro occurrence hmem ty hty
    obtain ⟨origin, horigin, -, hdeclared⟩ := Tree.exists_origin hmem
    exact hok ty (List.mem_filterMap.mpr ⟨origin, horigin, hdeclared.trans hty⟩)
  have hplain : (tree.resolve nextId).1.plain ok = true :=
    Item.plain_of_lowerAll ((Tree.lower_annotate _).symm.trans hlower) hresolved
  rw [← tree.plain_erase, ← tree.erase_resolve nextId, Tree.plain_erase]
  exact hplain

end

end WordLang
