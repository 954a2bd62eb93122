import WordLang.Proofs.Format.Writing
import WordLang.Tree.Parser

/-!
# What is read has empty slots

Whatever the spelling, whatever is passed over, and wherever the value comes from: reading fills no
slot of the tree it gives. So what is read is written in one way only, and reading that again gives
the same tree.

A value can spell a tree in several ways. Records may be objects or arrays, members may come in any
order, unknown members are passed over, and some may be left out. None of that is seen here: the
proofs follow the recursion of reading, and in each case all that matters is that the node was made
with empty slots and that its parts were read before.

Together with the theorem on writing this gives the main statement (`Tree.format_faithful`): reading
what was written, writing what was read, and no two trees being written alike, all up to slots.
-/

namespace WordLang

/-- What keeps each of the things that are read keeps the list of them. Applied to emptying slots:
if each item was read with empty slots, so was the list. -/
theorem Json.map_of_mapM {α : Type} {read : Json → Option α} {f : α → α}
    (hread : ∀ json a, read json = some a → f a = a) {items : List Json} {found : List α}
    (h : items.mapM read = some found) : found.map f = found := by
  induction items generalizing found with
  | nil =>
    cases h
    rfl
  | cons item rest ih =>
    rw [List.mapM_cons] at h
    obtain ⟨a, ha, h⟩ := Option.bind_eq_some_iff.mp h
    obtain ⟨others, hothers, h⟩ := Option.bind_eq_some_iff.mp h
    obtain rfl := Option.some.inj h
    rw [List.map_cons, hread item a ha, ih hothers]

/-- What reading keeps of each item, it keeps of a whole array. -/
theorem Json.map_of_list? {α : Type} {read : Nat → Json → Option α} {f : α → α}
    (hread : ∀ budget json a, read budget json = some a → f a = a) {budget : Nat} {json : Json}
    {found : List α} (h : Json.list? read budget json = some found) : found.map f = found := by
  unfold Json.list? at h
  split at h
  · exact Json.map_of_mapM (hread _) h
  · cases h

/-- Relabelling several expressions is relabelling each of them. -/
theorem Expr.relabelAll_eq_map (f : Relabelling) (exprs : List Expr) :
    Expr.relabelAll f exprs = exprs.map (Expr.relabel f) := by
  induction exprs with
  | nil => rfl
  | cons expr rest ih => rw [Expr.relabelAll, List.map_cons, ih]

/-- So it is for several statements. -/
theorem Stmt.relabelAll_eq_map (f : Relabelling) (stmts : List Stmt) :
    Stmt.relabelAll f stmts = stmts.map (Stmt.relabel f) := by
  induction stmts with
  | nil => rfl
  | cons stmt rest ih => rw [Stmt.relabelAll, List.map_cons, ih]

/-! ## Expressions

By recursion on the budget that is left, as reading itself is. -/

/-- A name that was read has no symbol. -/
theorem Ident.erase_of_ofJson? {budget : Nat} {json : Json} {ident : Ident}
    (h : Ident.ofJson? budget json = some ident) : Relabelling.erase.ident ident = ident := by
  unfold Ident.ofJson? at h
  split at h
  · split at h
    · obtain ⟨pos, -, h⟩ := Option.bind_eq_some_iff.mp h
      obtain ⟨name, -, h⟩ := Option.bind_eq_some_iff.mp h
      obtain rfl := Option.some.inj h
      rfl
    · cases h
  · cases h

/-- An expression that was read has empty slots. The cases are the ways through the reader that give
an expression; those that give nothing are closed at once. -/
theorem Expr.erase_of_ofJson? (origin : Json.Origin) (budget : Nat) (json : Json) (expr : Expr)
    (h : Expr.ofJson? origin budget json = some expr) : expr.relabel .erase = expr := by
  -- the parts of an expression are read with a smaller budget
  induction budget using Nat.strongRecOn generalizing json expr with
  | _ budget ih =>
    unfold Expr.ofJson? at h
    split at h
    next budget =>
      split at h
      · obtain ⟨pos, -, h⟩ := Option.bind_eq_some_iff.mp h
        split at h
        next =>
          obtain ⟨value, -, rfl⟩ := Option.map_eq_some_iff.mp h
          rfl
        next =>
          obtain ⟨value, -, rfl⟩ := Option.map_eq_some_iff.mp h
          rfl
        next =>
          obtain ⟨ident, hident, rfl⟩ := Option.map_eq_some_iff.mp h
          rw [Expr.relabel, Ident.erase_of_ofJson? hident]
          rfl
        next =>
          split at h
          · obtain ⟨base, hbase, h⟩ := Option.bind_eq_some_iff.mp h
            obtain ⟨position, hposition, h⟩ := Option.bind_eq_some_iff.mp h
            obtain rfl := Option.some.inj h
            rw [Expr.relabel, Ident.erase_of_ofJson? hbase, ih _ (by omega) _ _ hposition]
            rfl
          · cases h
        next =>
          split at h
          · obtain ⟨callee, hcallee, h⟩ := Option.bind_eq_some_iff.mp h
            obtain ⟨args, hargs, h⟩ := Option.bind_eq_some_iff.mp h
            obtain rfl := Option.some.inj h
            rw [Expr.relabel, Ident.erase_of_ofJson? hcallee, Expr.relabelAll_eq_map,
              Json.map_of_mapM (ih _ (by omega)) hargs]
            rfl
          · cases h
        next =>
          split at h
          · obtain ⟨op, -, h⟩ := Option.bind_eq_some_iff.mp h
            obtain ⟨left, hleft, h⟩ := Option.bind_eq_some_iff.mp h
            have hleft := ih _ (by omega) _ _ hleft
            split at h
            · obtain rfl := Option.some.inj h
              rw [Expr.relabel, hleft]
              rfl
            · obtain rfl := Option.some.inj h
              rw [Expr.relabel, hleft]
              rfl
            · obtain ⟨right, hright, rfl⟩ := Option.map_eq_some_iff.mp h
              rw [Expr.relabel, hleft, ih _ (by omega) _ _ hright]
              rfl
          · cases h
        next => cases h
      · cases h
    next => cases h

/-! ## Statements

Statements and blocks are read by turns, so the two theorems are proved together. -/

/-- So has a declaration. -/
theorem VarDecl.erase_of_ofJson? {origin : Json.Origin} {budget : Nat} {json : Json}
    {decl : VarDecl} (h : VarDecl.ofJson? origin budget json = some decl) :
    decl.relabel .erase = decl := by
  unfold VarDecl.ofJson? at h
  split at h
  · split at h
    · obtain ⟨pos, -, h⟩ := Option.bind_eq_some_iff.mp h
      obtain ⟨ident, hident, h⟩ := Option.bind_eq_some_iff.mp h
      obtain ⟨declared, -, h⟩ := Option.bind_eq_some_iff.mp h
      obtain rfl := Option.some.inj h
      rw [VarDecl.relabel, Ident.erase_of_ofJson? hident]
      rfl
    · cases h
  · cases h

/-- So has an assignment. -/
theorem Assignment.erase_of_ofJson? {origin : Json.Origin} {budget : Nat} {json : Json}
    {assignment : Assignment} (h : Assignment.ofJson? origin budget json = some assignment) :
    assignment.relabel .erase = assignment := by
  unfold Assignment.ofJson? at h
  split at h
  · split at h
    · obtain ⟨pos, -, h⟩ := Option.bind_eq_some_iff.mp h
      obtain ⟨location, hlocation, h⟩ := Option.bind_eq_some_iff.mp h
      obtain ⟨value, hvalue, h⟩ := Option.bind_eq_some_iff.mp h
      obtain rfl := Option.some.inj h
      rw [Assignment.relabel, Expr.erase_of_ofJson? _ _ _ _ hlocation,
        Expr.erase_of_ofJson? _ _ _ _ hvalue]
      rfl
    · cases h
  · cases h

mutual

/-- So has a statement, and with it the expressions, assignments and blocks in it. What the budget
is does not matter, except that it goes down from a statement to a block in it. -/
theorem Stmt.erase_of_ofJson? (origin : Json.Origin) (budget : Nat) (json : Json) (stmt : Stmt)
    (h : Stmt.ofJson? origin budget json = some stmt) : stmt.relabel .erase = stmt := by
  unfold Stmt.ofJson? at h
  -- every way through the reader builds its node with empty slots
  split at h
  next budget =>
    split at h
    · obtain ⟨pos, -, h⟩ := Option.bind_eq_some_iff.mp h
      split at h
      next =>
        obtain rfl := Option.some.inj h
        rfl
      next =>
        obtain rfl := Option.some.inj h
        rfl
      next =>
        obtain rfl := Option.some.inj h
        rfl
      next =>
        obtain ⟨value, hvalue, rfl⟩ := Option.map_eq_some_iff.mp h
        rw [Stmt.relabel, Expr.erase_of_ofJson? _ _ _ _ hvalue]
        rfl
      next =>
        obtain ⟨decl, hdecl, rfl⟩ := Option.map_eq_some_iff.mp h
        rw [Stmt.relabel, VarDecl.erase_of_ofJson? hdecl]
        rfl
      next =>
        obtain ⟨assignment, hassignment, rfl⟩ := Option.map_eq_some_iff.mp h
        rw [Stmt.relabel, Assignment.erase_of_ofJson? hassignment]
        rfl
      next =>
        split at h
        · obtain ⟨callee, hcallee, h⟩ := Option.bind_eq_some_iff.mp h
          obtain ⟨args, hargs, h⟩ := Option.bind_eq_some_iff.mp h
          obtain rfl := Option.some.inj h
          rw [Stmt.relabel, Ident.erase_of_ofJson? hcallee, Expr.relabelAll_eq_map,
            Json.map_of_list? (Expr.erase_of_ofJson? origin) hargs]
          rfl
        · cases h
      next =>
        split at h
        · obtain ⟨cond, hcond, h⟩ := Option.bind_eq_some_iff.mp h
          obtain ⟨onTrue, htrue, h⟩ := Option.bind_eq_some_iff.mp h
          obtain ⟨onFalse, hfalse, h⟩ := Option.bind_eq_some_iff.mp h
          obtain rfl := Option.some.inj h
          rw [Stmt.relabel, Expr.erase_of_ofJson? _ _ _ _ hcond,
            Block.erase_of_ofJson? origin _ _ _ htrue, Block.erase_of_ofJson? origin _ _ _ hfalse]
          rfl
        · cases h
      next =>
        split at h
        · obtain ⟨init, hinit, h⟩ := Option.bind_eq_some_iff.mp h
          obtain ⟨cond, hcond, h⟩ := Option.bind_eq_some_iff.mp h
          obtain ⟨increment, hincrement, h⟩ := Option.bind_eq_some_iff.mp h
          obtain ⟨body, hbody, h⟩ := Option.bind_eq_some_iff.mp h
          obtain rfl := Option.some.inj h
          rw [Stmt.relabel, Assignment.erase_of_ofJson? hinit, Expr.erase_of_ofJson? _ _ _ _ hcond,
            Assignment.erase_of_ofJson? hincrement, Block.erase_of_ofJson? origin _ _ _ hbody]
          rfl
        · cases h
      next => cases h
    · cases h
  next => cases h
termination_by budget

/-- So have the statements of a block. -/
theorem Block.erase_of_ofJson? (origin : Json.Origin) (budget : Nat) (json : Json)
    (block : Block Stmt) (h : Block.ofJson? origin budget json = some block) :
    { pos := Relabelling.erase.place block.pos, stmts := Stmt.relabelAll .erase block.stmts } =
      block := by
  unfold Block.ofJson? at h
  split at h
  next budget =>
    split at h
    · obtain ⟨pos, -, h⟩ := Option.bind_eq_some_iff.mp h
      obtain ⟨stmts, hstmts, h⟩ := Option.bind_eq_some_iff.mp h
      obtain rfl := Option.some.inj h
      rw [Stmt.relabelAll_eq_map, Json.map_of_mapM (Stmt.erase_of_ofJson? origin budget) hstmts]
      rfl
    · cases h
  next => cases h
termination_by budget

end

/-! ## Programs

What is read as a tree, and the main statement. -/

/-- So has a parameter. -/
theorem Param.erase_of_ofJson? (origin : Json.Origin) (budget : Nat) (json : Json) (param : Param)
    (h : Param.ofJson? origin budget json = some param) : param.relabel .erase = param := by
  unfold Param.ofJson? at h
  split at h
  · split at h
    · obtain ⟨ident, hident, h⟩ := Option.bind_eq_some_iff.mp h
      obtain ⟨declared, -, h⟩ := Option.bind_eq_some_iff.mp h
      obtain rfl := Option.some.inj h
      rw [Param.relabel, Ident.erase_of_ofJson? hident]
    · cases h
  · cases h

/-- So has a function. -/
theorem FunDef.erase_of_ofJson? {origin : Json.Origin} {budget : Nat} {json : Json}
    {definition : FunDef} (h : FunDef.ofJson? origin budget json = some definition) :
    definition.relabel .erase = definition := by
  unfold FunDef.ofJson? at h
  split at h
  · split at h
    · obtain ⟨pos, -, h⟩ := Option.bind_eq_some_iff.mp h
      obtain ⟨ident, hident, h⟩ := Option.bind_eq_some_iff.mp h
      obtain ⟨params, hparams, h⟩ := Option.bind_eq_some_iff.mp h
      obtain ⟨ret, -, h⟩ := Option.bind_eq_some_iff.mp h
      obtain ⟨body, hbody, h⟩ := Option.bind_eq_some_iff.mp h
      obtain rfl := Option.some.inj h
      rw [FunDef.relabel, Ident.erase_of_ofJson? hident,
        Json.map_of_list? (Param.erase_of_ofJson? origin) hparams,
        Block.erase_of_ofJson? _ _ _ _ hbody]
      rfl
    · cases h
  · cases h

/-- So has a top declaration. -/
theorem Item.erase_of_ofJson? (origin : Json.Origin) (budget : Nat) (json : Json) (item : Item)
    (h : Item.ofJson? origin budget json = some item) : item.relabel .erase = item := by
  unfold Item.ofJson? at h
  split at h
  · obtain ⟨decl, hdecl, rfl⟩ := Option.map_eq_some_iff.mp h
    rw [Item.relabel, VarDecl.erase_of_ofJson? hdecl]
  · obtain ⟨definition, hdefinition, rfl⟩ := Option.map_eq_some_iff.mp h
    rw [Item.relabel, FunDef.erase_of_ofJson? hdefinition]
  · cases h

/-- A tree that was read has no slot filled: reading leaves to the passes what the passes are there
for. -/
theorem Tree.erase_of_ofJsonWithin? {origin : Json.Origin} {budget : Nat} {json : Json}
    {tree : Tree} (h : Tree.ofJsonWithin? origin budget json = some tree) : tree.erase = tree := by
  unfold Tree.ofJsonWithin? at h
  split at h
  · split at h
    · obtain ⟨items, hitems, rfl⟩ := Option.map_eq_some_iff.mp h
      exact congrArg Tree.mk (Json.map_of_list? (Item.erase_of_ofJson? origin) hitems)
    · cases h
  · cases h

/-- The written form of a tree is read back as the tree with its slots emptied, from a value in
memory and, where the nesting is allowed, from a text. Whatever is read as a tree, in any of the
spellings that reading takes, has a written form that is read as the same tree. Trees with empty
slots have the same written form only if they are equal. -/
theorem Tree.format_faithful :
    (∀ tree : Tree, Tree.ofJson? tree.toJson = some tree.erase ∧
      ∀ origin budget, tree.toJson.depth ≤ budget →
        Tree.ofJsonWithin? origin budget tree.toJson = some tree.erase) ∧
    (∀ origin budget json tree, Tree.ofJsonWithin? origin budget json = some tree →
      Tree.ofJson? tree.toJson = some tree ∧
      ∀ origin' budget', tree.toJson.depth ≤ budget' →
        Tree.ofJsonWithin? origin' budget' tree.toJson = some tree) ∧
    ∀ tree tree' : Tree, tree.erase = tree → tree'.erase = tree' → tree.toJson = tree'.toJson →
      tree = tree' := by
  refine ⟨fun tree => ⟨?_, ?_⟩, fun origin budget json tree h => ?_,
    fun tree tree' hslots hslots' hjson => ?_⟩
  · exact tree.ofJsonWithin?_toJson .memory (Nat.le_refl _)
  · exact fun origin budget hdepth => tree.ofJsonWithin?_toJson origin hdepth
  · have hread : ∀ origin' budget', tree.toJson.depth ≤ budget' →
        Tree.ofJsonWithin? origin' budget' tree.toJson = some tree := by
      intro origin' budget' hdepth
      rw [tree.ofJsonWithin?_toJson origin' hdepth, Tree.erase_of_ofJsonWithin? h]
    exact ⟨hread .memory _ (Nat.le_refl _), hread⟩
  · have hread := tree.ofJsonWithin?_toJson .memory (Nat.le_refl _)
    rw [hjson, tree'.ofJsonWithin?_toJson .memory (Nat.le_refl _), hslots, hslots'] at hread
    exact (Option.some.inj hread).symm

/-- A program in unusual spellings: records as arrays, places left out, operators with their right
operand left out and with `null` for it, tags without content that map to `null`, and members of
unknown names, one of which holds what no tree has. -/
def variedJson : Json :=
  let name (text : String) : Json := .obj [("name", .str text)]
  let node (kind : Json) : Json := .obj [("note", .other), ("kind", kind)]
  let no (rest : List (String × Json)) : Json :=
    node (.obj [("Op", .obj ([("lhs", node (.obj [("LiteralBool", .bool true)])),
      ("op", .obj [("LogicNot", .null)])] ++ rest))])
  .obj [("version", .int 2), ("items", .arr
    [.obj [("Decl", .arr [.arr [.int 5, .int 6], name "row",
        .obj [("Array", .arr [.str "Int", .int 3])]])],
      .obj [("Function", .arr [.obj [("column", .int 4), ("line", .int 3)], name "main", .arr [],
        .obj [("Void", .null)], .obj [("stmts", .arr
          [node (.obj [("IfElse", .arr [no [],
              .obj [("stmts", .arr [node (.obj [("Break", .null)])])],
              .arr [.arr [.int 0, .int 9], .arr []]])]),
            node (.obj [("Return", no [("rhs", .null)])]),
            node (.obj [("Return", .null)])])]])]])]

/-- The program that it spells. -/
def variedTree : Tree :=
  let no : Expr := .unary {} .negate (.bool {} true)
  let stmts : List Stmt :=
    [.ifElse {} no { stmts := [.leave {}] } { pos := ⟨0, 9⟩, stmts := [] }, .ret {} (some no),
      .ret {} none]
  { items :=
      [.global { info := { pos := ⟨5, 6⟩ }, ident := { name := "row" }, declared := .array .int 3 },
        .function { pos := ⟨3, 4⟩, ident := { name := "main" }, params := [], ret := .void,
                    body := { stmts := stmts } }] }

/-- The value above is read as the tree below it, and so is what that tree is written as. -/
theorem Tree.format_faithful_varied :
    Tree.ofJsonWithin? .text Tree.nestingLimit variedJson = some variedTree ∧
      Tree.ofJson? variedTree.toJson = some variedTree ∧
      Tree.ofJsonWithin? .text Tree.nestingLimit variedTree.toJson = some variedTree := by
  have hread : Tree.ofJsonWithin? .text Tree.nestingLimit variedJson = some variedTree := by rfl
  obtain ⟨hmemory, htext⟩ := Tree.format_faithful.2.1 _ _ _ _ hread
  exact ⟨hread, hmemory, htext .text _ (by decide +kernel)⟩

end WordLang
