import WordLang.Resolution
import WordLang.Tree.Format
import WordLang.Typing

/-!
# Relabelling trees

A relabelling changes what is written at the nodes of a tree: where they stand, how names are
spelled, and what is in the slots. It keeps the shape of the tree, its literals and operators, and
the types that are declared. Two trees are alike in all but some of these things if a relabelling
that forgets them makes them equal.

Relabellings are what all the statements of this directory are said with. That the places in a tree
do not matter, that names can be changed, that slots are only written to: each is a statement about
the tree and its relabelled form, and is proved for all relabellings that keep what does matter.

`erase` empties the slots. Resolution and checking write to the slots and nowhere else: whatever
they do to a tree, erasing gives back the same one (`Tree.erase_resolve`, `Tree.erase_annotate`),
and so does writing it down, for slots are not written (`Tree.toJson_erase`).

Each of these facts is proved along the recursion of the pass it is about, one theorem for each kind
of node.
-/

namespace WordLang

/-- A change of what is written at the nodes of a tree. -/
structure Relabelling where
  place : Position → Position := id
  name : String → String := id
  symbol : Option Symbol → Option Symbol := id
  ty : Option Ty → Option Ty := id

namespace Relabelling

/-- Relabels the place and slot of a node. -/
def info (f : Relabelling) (info : Info) : Info where
  pos := f.place info.pos
  ty := f.ty info.ty

/-- Relabels a name where it occurs. -/
def ident (f : Relabelling) (ident : Ident) : Ident where
  pos := f.place ident.pos
  name := f.name ident.name
  symbol := f.symbol ident.symbol

end Relabelling

/-! ## The nodes of a tree

A relabelling goes through a tree once. Names stand in expressions, in declarations and at
functions; everything else that can change is the place and the slot of a node. -/

mutual

/-- Relabels an expression. -/
def Expr.relabel (f : Relabelling) : Expr → Expr
  | .int info value => .int (f.info info) value
  | .bool info value => .bool (f.info info) value
  | .var info ident => .var (f.info info) (f.ident ident)
  | .index info base position => .index (f.info info) (f.ident base) (position.relabel f)
  | .call info callee args => .call (f.info info) (f.ident callee) (Expr.relabelAll f args)
  | .unary info op operand => .unary (f.info info) op (operand.relabel f)
  | .binary info op left right => .binary (f.info info) op (left.relabel f) (right.relabel f)

/-- Relabels several expressions. -/
def Expr.relabelAll (f : Relabelling) : List Expr → List Expr
  | [] => []
  | expr :: rest => expr.relabel f :: Expr.relabelAll f rest

end

/-- Relabels a declaration. -/
def VarDecl.relabel (f : Relabelling) (decl : VarDecl) : VarDecl where
  info := f.info decl.info
  ident := f.ident decl.ident
  declared := decl.declared

/-- Relabels an assignment. -/
def Assignment.relabel (f : Relabelling) (assignment : Assignment) : Assignment where
  info := f.info assignment.info
  location := assignment.location.relabel f
  value := assignment.value.relabel f

mutual

/-- Relabels a statement. -/
def Stmt.relabel (f : Relabelling) : Stmt → Stmt
  | .declare info decl => .declare (f.info info) (decl.relabel f)
  | .assign info assignment => .assign (f.info info) (assignment.relabel f)
  | .call info callee args => .call (f.info info) (f.ident callee) (Expr.relabelAll f args)
  | .ifElse info cond onTrue onFalse =>
    .ifElse (f.info info) (cond.relabel f)
      { pos := f.place onTrue.pos, stmts := Stmt.relabelAll f onTrue.stmts }
      { pos := f.place onFalse.pos, stmts := Stmt.relabelAll f onFalse.stmts }
  | .loop info init cond increment body =>
    .loop (f.info info) (init.relabel f) (cond.relabel f) (increment.relabel f)
      { pos := f.place body.pos, stmts := Stmt.relabelAll f body.stmts }
  | .leave info => .leave (f.info info)
  | .ret info none => .ret (f.info info) none
  | .ret info (some value) => .ret (f.info info) (some (value.relabel f))

/-- Relabels several statements. -/
def Stmt.relabelAll (f : Relabelling) : List Stmt → List Stmt
  | [] => []
  | stmt :: rest => stmt.relabel f :: Stmt.relabelAll f rest

end

/-- Relabels a parameter. -/
def Param.relabel (f : Relabelling) (param : Param) : Param where
  ident := f.ident param.ident
  declared := param.declared

/-- Relabels a function. -/
def FunDef.relabel (f : Relabelling) (definition : FunDef) : FunDef where
  pos := f.place definition.pos
  ident := f.ident definition.ident
  params := definition.params.map (Param.relabel f)
  ret := definition.ret
  body :=
    { pos := f.place definition.body.pos, stmts := Stmt.relabelAll f definition.body.stmts }

/-- Relabels a top declaration. -/
def Item.relabel (f : Relabelling) : Item → Item
  | .global decl => .global (decl.relabel f)
  | .function definition => .function (definition.relabel f)

/-- Relabels a program. -/
def Tree.relabel (f : Relabelling) (tree : Tree) : Tree where
  items := tree.items.map (Item.relabel f)

/-- The place of an expression is the place of its node, whatever kind of expression it is. -/
@[simp]
theorem Expr.pos_relabel (f : Relabelling) (expr : Expr) :
    (expr.relabel f).pos = f.place expr.pos := by
  cases expr <;> rfl

/-- Declared types are kept, so a function has the type that it had. -/
@[simp]
theorem FunDef.ty_relabel (f : Relabelling) (definition : FunDef) :
    (definition.relabel f).ty = definition.ty := by
  simp [FunDef.ty, FunDef.relabel, Function.comp_def, Param.relabel]

/-! ## Emptying the slots -/

/-- Empties the slots. -/
def Relabelling.erase : Relabelling where
  symbol _ := none
  ty _ := none

/-- The tree with all its slots empty. -/
def Tree.erase (tree : Tree) : Tree :=
  tree.relabel .erase

/-! ### Resolution fills the slots of names

A step of resolution gives a tree and a new table. What is erased does not depend on the table, so
the theorems are for every table, and steps that come later may do with it what they like. -/

namespace Resolve

variable {α β : Type}

/-- Two steps in a row, started with a table. -/
theorem bind_apply (x : Resolve α) (f : α → Resolve β) (table : SymbolTable) :
    (x >>= f) table = f (x table).1 (x table).2 := rfl

/-- A step that does nothing leaves the table alone. -/
theorem pure_apply (a : α) (table : SymbolTable) : (pure a : Resolve α) table = (a, table) := rfl

/-- A step in a scope of its own: the scope is entered before and left after. -/
theorem withScope_apply (step : Resolve α) (table : SymbolTable) :
    withScope step table = ((step table.enter).1, (step table.enter).2.leave) := rfl

end Resolve

/-- Declaring a name writes to its slot. -/
theorem Ident.erase_declare (ident : Ident) (ty : Ty) (table : SymbolTable) :
    Relabelling.erase.ident (ident.declare ty table).1 = Relabelling.erase.ident ident := rfl

/-- So does looking it up. -/
theorem Ident.erase_resolve (ident : Ident) (table : SymbolTable) :
    Relabelling.erase.ident (ident.resolve table).1 = Relabelling.erase.ident ident := rfl

mutual

/-- Resolution of an expression fills slots and does nothing else. -/
theorem Expr.erase_resolve : ∀ (expr : Expr) (table : SymbolTable),
    (expr.resolve table).1.relabel .erase = expr.relabel .erase
  | .int _ _, _ => rfl
  | .bool _ _, _ => rfl
  | .var _ _, _ => rfl
  | .index _ base position, table => by
    simp only [Expr.resolve, Resolve.bind_apply, Resolve.pure_apply, Expr.relabel,
      Ident.erase_resolve, Expr.erase_resolve position]
  | .call _ callee args, table => by
    simp only [Expr.resolve, Resolve.bind_apply, Resolve.pure_apply, Expr.relabel,
      Ident.erase_resolve, Expr.erase_resolveAll args]
  | .unary _ _ operand, table => by
    simp only [Expr.resolve, Resolve.bind_apply, Resolve.pure_apply, Expr.relabel,
      Expr.erase_resolve operand]
  | .binary _ _ left right, table => by
    simp only [Expr.resolve, Resolve.bind_apply, Resolve.pure_apply, Expr.relabel,
      Expr.erase_resolve left, Expr.erase_resolve right]

/-- So does that of several expressions. -/
theorem Expr.erase_resolveAll : ∀ (exprs : List Expr) (table : SymbolTable),
    Expr.relabelAll .erase (Expr.resolveAll exprs table).1 = Expr.relabelAll .erase exprs
  | [], _ => rfl
  | expr :: rest, table => by
    simp only [Expr.resolveAll, Resolve.bind_apply, Resolve.pure_apply, Expr.relabelAll,
      Expr.erase_resolve expr, Expr.erase_resolveAll rest]

end

/-- So does that of an assignment. -/
theorem Assignment.erase_resolve (assignment : Assignment) (table : SymbolTable) :
    (assignment.resolve table).1.relabel .erase = assignment.relabel .erase := by
  simp only [Assignment.resolve, Resolve.bind_apply, Resolve.pure_apply, Assignment.relabel,
    Expr.erase_resolve]

mutual

/-- So does that of a statement. Scopes are entered and left on the way, which only concerns the
table. -/
theorem Stmt.erase_resolve : ∀ (stmt : Stmt) (table : SymbolTable),
    (stmt.resolve table).1.relabel .erase = stmt.relabel .erase
  | .declare _ _, _ => rfl
  | .assign _ assignment, table => by
    simp only [Stmt.resolve, Resolve.bind_apply, Resolve.pure_apply, Stmt.relabel,
      Assignment.erase_resolve]
  | .call _ callee args, table => by
    simp only [Stmt.resolve, Resolve.bind_apply, Resolve.pure_apply, Stmt.relabel,
      Ident.erase_resolve, Expr.erase_resolveAll]
  | .ifElse _ cond onTrue onFalse, table => by
    simp only [Stmt.resolve, Resolve.bind_apply, Resolve.pure_apply, Resolve.withScope_apply,
      Stmt.relabel, Expr.erase_resolve, Stmt.erase_resolveAll onTrue.stmts,
      Stmt.erase_resolveAll onFalse.stmts]
  | .loop _ init cond increment body, table => by
    simp only [Stmt.resolve, Resolve.bind_apply, Resolve.pure_apply, Resolve.withScope_apply,
      Stmt.relabel, Expr.erase_resolve, Assignment.erase_resolve, Stmt.erase_resolveAll body.stmts]
  | .leave _, _ => rfl
  | .ret _ none, _ => rfl
  | .ret _ (some value), table => by
    simp only [Stmt.resolve, Resolve.bind_apply, Resolve.pure_apply, Stmt.relabel,
      Expr.erase_resolve]

/-- So does that of several statements. -/
theorem Stmt.erase_resolveAll : ∀ (stmts : List Stmt) (table : SymbolTable),
    Stmt.relabelAll .erase (Stmt.resolveAll stmts table).1 = Stmt.relabelAll .erase stmts
  | [], _ => rfl
  | stmt :: rest, table => by
    simp only [Stmt.resolveAll, Resolve.bind_apply, Resolve.pure_apply, Stmt.relabelAll,
      Stmt.erase_resolve stmt, Stmt.erase_resolveAll rest]

end

/-- What a step keeps of each member, it keeps of all of them. -/
theorem Resolve.map_mapM {α γ : Type} {step : α → Resolve α} {f : α → γ}
    (h : ∀ a table, f (step a table).1 = f a) (items : List α) (table : SymbolTable) :
    (items.mapM step table).1.map f = items.map f := by
  induction items generalizing table with
  | nil => rfl
  | cons item rest ih =>
    simp only [List.mapM_cons, Resolve.bind_apply, Resolve.pure_apply, List.map_cons, h, ih]

/-- So does that of a function, with its parameters. -/
theorem FunDef.erase_resolve (definition : FunDef) (table : SymbolTable) :
    (definition.resolve table).1.relabel .erase = definition.relabel .erase := by
  have hparams : ∀ (param : Param) (table : SymbolTable),
      (param.resolve table).1.relabel .erase = param.relabel .erase := fun _ _ => rfl
  simp only [FunDef.resolve, Resolve.bind_apply, Resolve.pure_apply, Resolve.withScope_apply,
    FunDef.relabel, Ident.erase_declare, Stmt.erase_resolveAll, Resolve.map_mapM hparams]

/-- So does that of a top declaration. -/
theorem Item.erase_resolve (item : Item) (table : SymbolTable) :
    (item.resolve table).1.relabel .erase = item.relabel .erase := by
  cases item with
  | global decl => rfl
  | function definition => exact congrArg Item.function (definition.erase_resolve table)

/-- Resolution changes nothing but slots. -/
theorem Tree.erase_resolve (tree : Tree) (nextId : Nat) :
    (tree.resolve nextId).1.erase = tree.erase :=
  congrArg Tree.mk (Resolve.map_mapM Item.erase_resolve tree.items (.new nextId))

/-! ### Checking fills the slots of types

Said for every relabelling that forgets types, as it is also of use for one that forgets nothing
else. -/

/-- A relabelling that forgets what type is in a slot. -/
def Relabelling.ForgetsTypes (f : Relabelling) : Prop :=
  ∀ info ty, f.info (info.withTy ty) = f.info info

section

variable {f : Relabelling}

mutual

/-- Types that were written into an expression are forgotten again. -/
theorem Expr.relabel_annotate (hf : f.ForgetsTypes) : ∀ expr : Expr,
    expr.annotate.relabel f = expr.relabel f
  | .int _ _ => by rw [Expr.annotate, Expr.relabel, hf, Expr.relabel]
  | .bool _ _ => by rw [Expr.annotate, Expr.relabel, hf, Expr.relabel]
  | .var _ _ => by rw [Expr.annotate, Expr.relabel, hf, Expr.relabel]
  | .index _ base position => by
    rw [Expr.annotate, Expr.relabel, hf, Expr.relabel_annotate hf position, Expr.relabel]
  | .call _ callee args => by
    rw [Expr.annotate, Expr.relabel, hf, Expr.relabelAll_annotateAll hf args, Expr.relabel]
  | .unary _ _ operand => by
    rw [Expr.annotate, Expr.relabel, hf, Expr.relabel_annotate hf operand, Expr.relabel]
  | .binary _ _ left right => by
    rw [Expr.annotate, Expr.relabel, hf, Expr.relabel_annotate hf left,
      Expr.relabel_annotate hf right, Expr.relabel]

/-- So are those written into several expressions. -/
theorem Expr.relabelAll_annotateAll (hf : f.ForgetsTypes) : ∀ exprs : List Expr,
    Expr.relabelAll f (Expr.annotateAll exprs) = Expr.relabelAll f exprs
  | [] => rfl
  | expr :: rest => by
    rw [Expr.annotateAll, Expr.relabelAll, Expr.relabel_annotate hf expr,
      Expr.relabelAll_annotateAll hf rest, Expr.relabelAll]

end

/-- So is the type written at a declaration. -/
theorem VarDecl.relabel_annotate (hf : f.ForgetsTypes) (decl : VarDecl) :
    decl.annotate.relabel f = decl.relabel f := by
  rw [VarDecl.annotate, VarDecl.relabel, hf, VarDecl.relabel]

/-- So are those written into an assignment. -/
theorem Assignment.relabel_annotate (hf : f.ForgetsTypes) (assignment : Assignment) :
    assignment.annotate.relabel f = assignment.relabel f := by
  simp only [Assignment.annotate, Assignment.relabel, hf _ _, Expr.relabel_annotate hf]

mutual

/-- So are those written into a statement. -/
theorem Stmt.relabel_annotate (hf : f.ForgetsTypes) : ∀ stmt : Stmt,
    stmt.annotate.relabel f = stmt.relabel f
  | .declare _ decl => by
    rw [Stmt.annotate, Stmt.relabel, hf, VarDecl.relabel_annotate hf, Stmt.relabel]
  | .assign _ assignment => by
    rw [Stmt.annotate, Stmt.relabel, hf, Assignment.relabel_annotate hf, Stmt.relabel]
  | .call _ callee args => by
    rw [Stmt.annotate, Stmt.relabel, hf, Expr.relabelAll_annotateAll hf, Stmt.relabel]
  | .ifElse _ cond onTrue onFalse => by
    rw [Stmt.annotate, Stmt.relabel, hf, Expr.relabel_annotate hf,
      Stmt.relabelAll_annotateAll hf onTrue.stmts, Stmt.relabelAll_annotateAll hf onFalse.stmts,
      Stmt.relabel]
  | .loop _ init cond increment body => by
    rw [Stmt.annotate, Stmt.relabel, hf, Assignment.relabel_annotate hf, Expr.relabel_annotate hf,
      Assignment.relabel_annotate hf, Stmt.relabelAll_annotateAll hf body.stmts, Stmt.relabel]
  | .leave _ => by rw [Stmt.annotate, Stmt.relabel, hf, Stmt.relabel]
  | .ret _ none => by rw [Stmt.annotate, Stmt.relabel, hf, Stmt.relabel]
  | .ret _ (some value) => by
    rw [Stmt.annotate, Stmt.relabel, hf, Expr.relabel_annotate hf, Stmt.relabel]

/-- So are those written into several statements. -/
theorem Stmt.relabelAll_annotateAll (hf : f.ForgetsTypes) : ∀ stmts : List Stmt,
    Stmt.relabelAll f (Stmt.annotateAll stmts) = Stmt.relabelAll f stmts
  | [] => rfl
  | stmt :: rest => by
    rw [Stmt.annotateAll, Stmt.relabelAll, Stmt.relabel_annotate hf stmt,
      Stmt.relabelAll_annotateAll hf rest, Stmt.relabelAll]

end

/-- So are those written into a function. A function with a faulty signature gets none. -/
theorem FunDef.relabel_annotate (hf : f.ForgetsTypes) (definition : FunDef) :
    definition.annotate.relabel f = definition.relabel f := by
  unfold FunDef.annotate
  split
  · rfl
  · simp only [FunDef.relabel, Stmt.relabelAll_annotateAll hf]

/-- So are those written into a top declaration. -/
theorem Item.relabel_annotate (hf : f.ForgetsTypes) (item : Item) :
    item.annotate.relabel f = item.relabel f := by
  cases item with
  | global decl => exact congrArg Item.global (decl.relabel_annotate hf)
  | function definition => exact congrArg Item.function (definition.relabel_annotate hf)

/-- What checking writes to the slots is not seen by what forgets it. -/
theorem Tree.relabel_annotate (hf : f.ForgetsTypes) (tree : Tree) :
    tree.annotate.relabel f = tree.relabel f := by
  simp only [Tree.relabel, Tree.annotate, List.map_map, Tree.mk.injEq]
  exact List.map_congr_left fun item _ => item.relabel_annotate hf

end

/-- Checking changes nothing but slots. -/
theorem Tree.erase_annotate (tree : Tree) : tree.annotate.erase = tree.erase :=
  tree.relabel_annotate fun _ _ => rfl

/-! ### Slots are not written down

The written form of a node shows its place, and not its slot. -/

mutual

/-- An expression is written in the same way after its slots were emptied. -/
theorem Expr.toJson_erase : ∀ expr : Expr, (expr.relabel .erase).toJson = expr.toJson
  | .int _ _ => rfl
  | .bool _ _ => rfl
  | .var _ _ => rfl
  | .index _ base position => by
    rw [Expr.relabel, Expr.toJson, Expr.toJson_erase position, Expr.toJson]
    rfl
  | .call _ callee args => by
    rw [Expr.relabel, Expr.toJson, Expr.listToJson_erase args, Expr.toJson]
    rfl
  | .unary _ _ operand => by
    rw [Expr.relabel, Expr.toJson, Expr.toJson_erase operand, Expr.toJson]
    rfl
  | .binary _ _ left right => by
    rw [Expr.relabel, Expr.toJson, Expr.toJson_erase left, Expr.toJson_erase right, Expr.toJson]
    rfl

/-- So are several expressions. -/
theorem Expr.listToJson_erase : ∀ exprs : List Expr,
    Expr.listToJson (Expr.relabelAll .erase exprs) = Expr.listToJson exprs
  | [] => rfl
  | expr :: rest => by
    rw [Expr.relabelAll, Expr.listToJson, Expr.toJson_erase expr, Expr.listToJson_erase rest,
      Expr.listToJson]

end

/-- So is an assignment. -/
theorem Assignment.toJson_erase (assignment : Assignment) :
    (assignment.relabel .erase).toJson = assignment.toJson := by
  rw [Assignment.toJson, Assignment.toJson, Assignment.relabel, Expr.toJson_erase,
    Expr.toJson_erase]
  rfl

/-- A block is written with its place and its statements. -/
theorem Block.toJson_eq (block : Block Stmt) :
    Block.toJson block =
      .record [("pos", block.pos.toJson), ("stmts", .arr (Stmt.listToJson block.stmts))] := by
  cases block
  rw [Block.toJson]

mutual

/-- So is a statement. -/
theorem Stmt.toJson_erase : ∀ stmt : Stmt, (stmt.relabel .erase).toJson = stmt.toJson
  | .declare _ _ => rfl
  | .assign _ assignment => by
    rw [Stmt.relabel, Stmt.toJson, Assignment.toJson_erase, Stmt.toJson]
    rfl
  | .call _ callee args => by
    rw [Stmt.relabel, Stmt.toJson, Expr.listToJson_erase, Stmt.toJson]
    rfl
  | .ifElse _ cond onTrue onFalse => by
    simp only [Stmt.relabel, Stmt.toJson, Expr.toJson_erase, Block.toJson_eq,
      Stmt.listToJson_erase onTrue.stmts, Stmt.listToJson_erase onFalse.stmts]
    rfl
  | .loop _ init cond increment body => by
    simp only [Stmt.relabel, Stmt.toJson, Assignment.toJson_erase, Expr.toJson_erase,
      Block.toJson_eq, Stmt.listToJson_erase body.stmts]
    rfl
  | .leave _ => rfl
  | .ret _ none => rfl
  | .ret _ (some value) => by
    rw [Stmt.relabel, Stmt.toJson, Option.map_some, Expr.toJson_erase, Stmt.toJson]
    rfl

/-- So are several statements. -/
theorem Stmt.listToJson_erase : ∀ stmts : List Stmt,
    Stmt.listToJson (Stmt.relabelAll .erase stmts) = Stmt.listToJson stmts
  | [] => rfl
  | stmt :: rest => by
    rw [Stmt.relabelAll, Stmt.listToJson, Stmt.toJson_erase stmt, Stmt.listToJson_erase rest,
      Stmt.listToJson]

end

/-- So is a function. -/
theorem FunDef.toJson_erase (definition : FunDef) :
    (definition.relabel .erase).toJson = definition.toJson := by
  simp only [FunDef.toJson, FunDef.relabel, Block.toJson_eq, Stmt.listToJson_erase, List.map_map]
  rfl

/-- So is a top declaration. -/
theorem Item.toJson_erase (item : Item) : (item.relabel .erase).toJson = item.toJson := by
  cases item with
  | global decl => rfl
  | function definition => exact congrArg (Json.tagged "Function") definition.toJson_erase

/-- The written form of a tree does not show its slots. -/
theorem Tree.toJson_erase (tree : Tree) : tree.erase.toJson = tree.toJson := by
  simp only [Tree.toJson, Tree.erase, Tree.relabel, List.map_map, Function.comp_def,
    Item.toJson_erase]

end WordLang
