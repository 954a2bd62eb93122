import WordLang.Proofs.Relabelling.Typing
import WordLang.Proofs.Resolution.Spelling

/-!
# What is reported, and where

Checking goes through a program by *checks*: it looks at a whole expression, call or assignment, or
it applies a rule to what it has just looked at (`Tree.checks`). The first kind goes to every node,
parts before the whole (`Node.postorder`), and each node adds what is wrong with it (`Node.pushed`).

A node whose type is a fault is reported, with its place and the message of its type, if it is not
poisoned: none of the types it is made from is a fault. So a fault is reported where it arises and
not again further out. Nor is it lost: from a node with a faulty type one comes, by way of parts
with faulty types, to a node that is reported or to a name that resolution or a declaration has
already spoilt (`Node.exists_source`).

There are many constructs, but they need to be told apart only once. A node has a type, the types it
is made from, and parts, and what it adds depends on nothing else (`pushed_eq`). What has to be
shown of every node is shown from its parts to the whole (`Node.byParts`).

The statement is about the tree after checking, with the types written into it. The nodes of that
tree are the nodes of the tree before, each with its type (`postorder_annotate`), and the slots say
what the types are. A name may be the one thing that is not as it seems: its type is what its symbol
says, and there may be no symbol at all. After resolution there is one, and it is without a type
only if resolution has reported it (`Ident.spoilt_of_visited`).
-/

namespace WordLang

/-! ## Nodes

Expressions, calls and assignments are different kinds of trees, but checking treats them alike. A
node is one of them, with the names and the parts it is made of. -/

/-- A place of a program that has a type of its own. A call that is a statement is read as the call.
-/
inductive Node where
  | value (expr : Expr)
  | assign (assignment : Assignment)

namespace Node

/-- The place and type slot of a node. -/
def info : Node → Info
  | .value expr => expr.info
  | .assign assignment => assignment.info

/-- The names that a node uses itself. -/
def names : Node → List Ident
  | .value (.var _ ident) => [ident]
  | .value (.index _ base _) => [base]
  | .value (.call _ callee _) => [callee]
  | _ => []

/-- The expressions that a node is directly made of. -/
def parts : Node → List Expr
  | .value (.index _ _ position) => [position]
  | .value (.call _ _ args) => args
  | .value (.unary _ _ operand) => [operand]
  | .value (.binary _ _ left right) => [left, right]
  | .value _ => []
  | .assign assignment => [assignment.location, assignment.value]

/-- Whether one of the types that a node is made from is a fault, by the symbols of its names and
the slots of its parts. A type that is missing counts as a fault. -/
def poisoned (node : Node) : Bool :=
  node.names.any (fun ident => (ident.symbol.bind (·.ty)).all Ty.isError) ||
    node.parts.any (fun part => part.info.ty.all Ty.isError)

/-- The problems that are found at a node and inside it. -/
def diagnose : Node → List Diagnostic
  | .value expr => expr.diagnose
  | .assign assignment => assignment.diagnose

/-- What a node adds to the problems inside its parts. -/
def pushed (node : Node) : List Diagnostic :=
  node.diagnose.drop (Expr.diagnoseAll node.parts).length

end Node

mutual

/-- The nodes of an expression, parts before the whole. -/
def Expr.postorder : Expr → List Node
  | .int info value => [.value (.int info value)]
  | .bool info value => [.value (.bool info value)]
  | .var info ident => [.value (.var info ident)]
  | .index info base position => position.postorder ++ [.value (.index info base position)]
  | .call info callee args => Expr.postorderAll args ++ [.value (.call info callee args)]
  | .unary info op operand => operand.postorder ++ [.value (.unary info op operand)]
  | .binary info op left right =>
    left.postorder ++ right.postorder ++ [.value (.binary info op left right)]

/-- The nodes of several expressions. -/
def Expr.postorderAll : List Expr → List Node
  | [] => []
  | expr :: rest => expr.postorder ++ Expr.postorderAll rest

end

/-- The nodes of a subtree, parts before the whole. -/
def Node.postorder : Node → List Node
  | .value expr => expr.postorder
  | .assign assignment =>
    assignment.location.postorder ++ assignment.value.postorder ++ [.assign assignment]

/-! ## Checks

What checking does, as data: the list of what it looks at, in order. Reports can then be counted
where they belong, without going into the recursion of checking each time. -/

/-- What is looked at in one go: all nodes of a subtree, or what a rule finds that is not about the
type of a node. -/
inductive Check where
  | node (root : Node)
  | rule (found : List Diagnostic)

namespace Check

/-- The nodes that are visited. -/
def nodes : Check → List Node
  | .node root => root.postorder
  | .rule _ => []

/-- What is reported, node by node. -/
def found : Check → List Diagnostic
  | .node root => root.postorder.flatMap Node.pushed
  | .rule found => found

end Check

/-- A condition is looked at, and then has to be a boolean. -/
def Expr.conditionChecks (pos : Position) (construct : String) (cond : Expr) : List Check :=
  [.node (.value cond), .rule ((cond.diagnoseCondition pos construct).drop cond.diagnose.length)]

mutual

/-- The checks of a statement of a function that returns `ret`. -/
def Stmt.checks (ret : Ty) (inLoop : Bool) : Stmt → List Check
  | .declare _ decl => [.rule decl.diagnoseLocal]
  | .assign _ assignment => [.node (.assign assignment)]
  -- the slot and the place are those of the statement
  | .call info callee args => [.node (.value (.call info callee args))]
  | .ifElse info cond onTrue onFalse =>
    cond.conditionChecks info.pos "if" ++ Stmt.checksAll ret inLoop onTrue.stmts ++
      Stmt.checksAll ret inLoop onFalse.stmts
  | .loop info init cond increment body =>
    [.node (.assign init)] ++ cond.conditionChecks info.pos "for" ++ [.node (.assign increment)] ++
      Stmt.checksAll ret true body.stmts
  | .leave info => [.rule ((Stmt.leave info).diagnose ret inLoop)]
  | .ret info none => [.rule (Ty.diagnoseReturn info.pos ret .void)]
  | .ret info (some value) =>
    [.node (.value value), .rule (Ty.diagnoseReturn info.pos ret value.infer)]

/-- The checks of several statements. -/
def Stmt.checksAll (ret : Ty) (inLoop : Bool) : List Stmt → List Check
  | [] => []
  | stmt :: rest => stmt.checks ret inLoop ++ Stmt.checksAll ret inLoop rest

end

/-- The checks of a function. If its signature is not the one it has to have, its body is left
alone. -/
def FunDef.checks (definition : FunDef) : List Check :=
  match definition.signatureFault? with
  | some message => [.rule [.illTyped definition.pos message]]
  | none =>
    [.rule definition.diagnoseParams] ++
      Stmt.checksAll definition.ret false definition.body.stmts ++ [.rule definition.diagnosePaths]

/-- The checks of a top declaration. -/
def Item.checks : Item → List Check
  | .global _ => []
  | .function definition => definition.checks

/-- The checks of a program, one after the other. -/
def Tree.checks (tree : Tree) : List Check :=
  tree.items.flatMap Item.checks

/-- The nodes that checking visits. -/
def Tree.visited (tree : Tree) : List Node :=
  tree.checks.flatMap Check.nodes

/-! ## From parts to the whole

The one induction over expressions. The functions on several expressions are maps over them, and so
a node is visited right after the nodes of its parts. -/

section

variable {P : Node → Prop}

mutual

/-- By recursion on the expression: its parts are expressions too. -/
theorem Expr.byParts (step : ∀ node, (∀ part ∈ node.parts, P (.value part)) → P node) :
    ∀ expr : Expr, P (.value expr)
  | .int _ _ => step _ fun _ hmem => absurd hmem List.not_mem_nil
  | .bool _ _ => step _ fun _ hmem => absurd hmem List.not_mem_nil
  | .var _ _ => step _ fun _ hmem => absurd hmem List.not_mem_nil
  | .index _ _ position => step _ (List.forall_mem_singleton.mpr (Expr.byParts step position))
  | .call _ _ args => step _ (Expr.byPartsAll step args)
  | .unary _ _ operand => step _ (List.forall_mem_singleton.mpr (Expr.byParts step operand))
  | .binary _ _ left right =>
    step _ (List.forall_mem_cons.mpr
      ⟨Expr.byParts step left, List.forall_mem_singleton.mpr (Expr.byParts step right)⟩)

/-- By recursion on the list, for the arguments of a call. -/
theorem Expr.byPartsAll (step : ∀ node, (∀ part ∈ node.parts, P (.value part)) → P node) :
    ∀ (exprs : List Expr), ∀ part ∈ exprs, P (.value part)
  | [] => fun _ hmem => absurd hmem List.not_mem_nil
  | expr :: rest => List.forall_mem_cons.mpr ⟨Expr.byParts step expr, Expr.byPartsAll step rest⟩

end

/-- What holds of a node as soon as it holds of its parts holds of every node. -/
theorem Node.byParts (step : ∀ node, (∀ part ∈ node.parts, P (.value part)) → P node) :
    ∀ node : Node, P node
  | .value expr => Expr.byParts step expr
  | .assign _ => step _ fun part _ => Expr.byParts step part

end

/-- The problems of several expressions, one expression after the other. -/
theorem Expr.diagnoseAll_eq_flatMap (exprs : List Expr) :
    Expr.diagnoseAll exprs = exprs.flatMap Expr.diagnose := by
  induction exprs with
  | nil => rfl
  | cons expr rest ih => rw [Expr.diagnoseAll, ih, List.flatMap_cons]

/-- The nodes of several expressions, one expression after the other. -/
theorem Expr.postorderAll_eq_flatMap (exprs : List Expr) :
    Expr.postorderAll exprs = exprs.flatMap Expr.postorder := by
  induction exprs with
  | nil => rfl
  | cons expr rest ih => rw [Expr.postorderAll, ih, List.flatMap_cons]

/-- The types of several expressions are recorded one by one. -/
theorem Expr.annotateAll_eq_map (exprs : List Expr) :
    Expr.annotateAll exprs = exprs.map Expr.annotate := by
  induction exprs with
  | nil => rfl
  | cons expr rest ih => rw [Expr.annotateAll, ih, List.map_cons]

namespace Node

/-- The nodes of a subtree are those of its parts, and then the node itself. -/
theorem postorder_eq (node : Node) :
    node.postorder = node.parts.flatMap Expr.postorder ++ [node] := by
  cases node with
  | value expr =>
    cases expr <;> simp [postorder, Expr.postorder, parts, Expr.postorderAll_eq_flatMap]
  | assign assignment => simp [postorder, parts]

/-- A node is one of the nodes of its subtree. -/
theorem mem_postorder_self (node : Node) : node ∈ node.postorder := by
  rw [postorder_eq]
  exact List.mem_append_right _ (List.mem_singleton_self _)

/-- The nodes of a part are nodes of the whole. -/
theorem postorder_subset_of_mem_parts {node : Node} {part : Expr} (h : part ∈ node.parts) :
    part.postorder ⊆ node.postorder := by
  rw [postorder_eq]
  exact fun inner hinner => List.mem_append_left _ (List.mem_flatMap.mpr ⟨part, h, hinner⟩)

/-- A subtree of a subtree is a subtree. -/
theorem postorder_subset {node inner : Node} (h : inner ∈ node.postorder) :
    inner.postorder ⊆ node.postorder := by
  induction node using Node.byParts with
  | step node ih =>
    rw [postorder_eq, List.mem_append, List.mem_singleton] at h
    rcases h with h | rfl
    · obtain ⟨part, hpart, hinner⟩ := List.mem_flatMap.mp h
      exact List.Subset.trans (ih part hpart hinner) (postorder_subset_of_mem_parts hpart)
    · exact List.Subset.refl _

end Node

/-! ## What a node adds

A node is given a type, and from that type and those of its operands it follows what is reported:
the message of a fault, if the fault is none of theirs. -/

namespace Node

/-- The type of a node. -/
def infer : Node → Ty
  | .value expr => expr.infer
  | .assign assignment => assignment.infer

/-- The types that the type of a node is made from. -/
def operands (node : Node) : List Ty :=
  node.names.map Ident.ty ++ node.parts.map Expr.infer

/-- The problems of a subtree are those of its parts, and then what is reported of its own type. -/
theorem diagnose_eq_reportAt (node : Node) :
    node.diagnose =
      Expr.diagnoseAll node.parts ++ node.infer.reportAt node.info.pos node.operands := by
  cases node with
  | value expr =>
    cases expr <;>
      simp [diagnose, Expr.diagnose, Expr.diagnoseAll, parts, infer, Expr.infer,
        Ty.reportAt, operands, names, info, Expr.info]
  | assign assignment =>
    simp [diagnose, Assignment.diagnose, Expr.diagnoseAll, parts, infer, operands, names, info]

/-- What a node adds depends on its own type and on those it is made from, not on its kind. -/
theorem pushed_eq (node : Node) :
    node.pushed = node.infer.reportAt node.info.pos node.operands := by
  rw [pushed, diagnose_eq_reportAt, List.drop_left]

/-- The problems of the parts come first. -/
theorem diagnose_eq (node : Node) :
    node.diagnose = Expr.diagnoseAll node.parts ++ node.pushed := by
  rw [pushed_eq, diagnose_eq_reportAt]

/-- The problems of a subtree are what its nodes add, one after the other. -/
theorem diagnose_eq_flatMap (node : Node) : node.diagnose = node.postorder.flatMap pushed := by
  induction node using Node.byParts with
  | step node ih =>
    rw [diagnose_eq, postorder_eq, List.flatMap_append, List.flatMap_singleton, List.flatMap_assoc,
      Expr.diagnoseAll_eq_flatMap]
    exact congrArg (· ++ node.pushed) (List.flatMap_congr ih)

/-- A fault can be traced inwards to where it arose. -/
theorem exists_source {node : Node} (h : node.infer.isError = true) :
    ∃ inner ∈ node.postorder,
      inner.pushed ≠ [] ∨ ∃ ident ∈ inner.names, ident.ty.isError = true := by
  induction node using Node.byParts with
  | step node ih =>
    by_cases hpushed : node.pushed = []
    · -- it is not reported, so an operand is at fault: a name, or a part to go on with
      rw [pushed_eq, Ty.reportAt_eq_nil_iff, h] at hpushed
      obtain ⟨ty, hmem, hty⟩ := List.any_eq_true.mp (hpushed.resolve_left Bool.noConfusion)
      rcases List.mem_append.mp hmem with hmem | hmem
      · obtain ⟨ident, hident, rfl⟩ := List.mem_map.mp hmem
        exact ⟨node, node.mem_postorder_self, .inr ⟨ident, hident, hty⟩⟩
      · obtain ⟨part, hpart, rfl⟩ := List.mem_map.mp hmem
        obtain ⟨inner, hinner, hsource⟩ := ih part hpart hty
        exact ⟨inner, postorder_subset_of_mem_parts hpart hinner, hsource⟩
    · exact ⟨node, node.mem_postorder_self, .inl hpushed⟩

end Node

/-! ### With the types written in

After checking, a node is poisoned by what its slots and symbols say. What they say is what was
inferred, since the types of parts were written into the parts. -/

/-- The type of a name is a fault if its symbol has such a type, or none. -/
theorem Ident.all_isError_symbol (ident : Ident) :
    (ident.symbol.bind (·.ty)).all Ty.isError = ident.ty.isError := by
  rw [Ident.ty]
  cases ident.symbol.bind (·.ty) <;> rfl

namespace Node

/-- Records the types of a node. -/
def annotate : Node → Node
  | .value expr => .value expr.annotate
  | .assign assignment => .assign assignment.annotate

/-- A node gets its type, and keeps its place. -/
theorem info_annotate (node : Node) : node.annotate.info = node.info.withTy node.infer := by
  cases node with
  | value expr => cases expr <;> rfl
  | assign assignment => rfl

/-- Names are left as they are: they have symbols, and no slot for a type. -/
theorem names_annotate (node : Node) : node.annotate.names = node.names := by
  cases node with
  | value expr => cases expr <;> rfl
  | assign assignment => rfl

/-- The parts of a node get their types too. -/
theorem parts_annotate (node : Node) : node.annotate.parts = node.parts.map Expr.annotate := by
  cases node with
  | value expr => cases expr <;> simp [annotate, Expr.annotate, parts, Expr.annotateAll_eq_map]
  | assign assignment => rfl

/-- Inferring the type again gives the same type. -/
theorem infer_annotate (node : Node) : node.annotate.infer = node.infer := by
  cases node with
  | value expr => exact expr.infer_annotate
  | assign assignment =>
    simp only [annotate, infer, Assignment.infer, Assignment.annotate, Expr.infer_annotate]

/-- So it does for the types that it is made from. -/
theorem operands_annotate (node : Node) : node.annotate.operands = node.operands := by
  rw [operands, names_annotate, parts_annotate, List.map_map, operands]
  exact congrArg _ (List.map_congr_left fun part _ => part.infer_annotate)

/-- A node adds the same to the report as before. -/
theorem pushed_annotate (node : Node) : node.annotate.pushed = node.pushed := by
  rw [pushed_eq, pushed_eq, infer_annotate, operands_annotate, info_annotate]
  rfl

/-- The nodes of a subtree with types are the nodes of the subtree, each with its type. -/
theorem postorder_annotate (node : Node) :
    node.annotate.postorder = node.postorder.map annotate := by
  induction node using Node.byParts with
  | step node ih =>
    rw [postorder_eq, postorder_eq, parts_annotate, List.map_append, List.map_singleton,
      List.flatMap_map, List.map_flatMap]
    exact congrArg (· ++ [node.annotate]) (List.flatMap_congr ih)

/-- What the slots and symbols say of the operands is true. -/
theorem poisoned_annotate (node : Node) :
    node.annotate.poisoned = node.operands.any Ty.isError := by
  rw [poisoned, names_annotate, parts_annotate, operands, List.any_append,
    List.any_map, List.any_map, List.any_map]
  congr 2
  · exact funext fun ident => ident.all_isError_symbol
  · funext part
    rw [Function.comp_apply, Expr.ty_annotate]
    rfl

end Node

/-! ## What checking adds up to

Putting the checks together again gives the report of the checker. So the checks leave out nothing
and look at nothing twice. -/

namespace Check

/-- Records the types of the nodes. -/
def annotate : Check → Check
  | .node root => .node root.annotate
  | .rule found => .rule found

/-- A check visits the same nodes, with their types. -/
theorem nodes_annotate (check : Check) : check.annotate.nodes = check.nodes.map Node.annotate := by
  cases check with
  | node root => exact root.postorder_annotate
  | rule found => rfl

/-- A check finds the same in the tree with types. -/
theorem found_annotate (check : Check) : check.annotate.found = check.found := by
  cases check with
  | node root =>
    rw [annotate, found, root.postorder_annotate, List.flatMap_map, found]
    exact List.flatMap_congr fun node _ => node.pushed_annotate
  | rule found => rfl

end Check

/-- The checks of a condition find its problems. -/
theorem Expr.found_conditionChecks (pos : Position) (construct : String) (cond : Expr) :
    (cond.conditionChecks pos construct).flatMap Check.found =
      cond.diagnoseCondition pos construct := by
  have hcond : cond.diagnose = cond.postorder.flatMap Node.pushed :=
    (Node.value cond).diagnose_eq_flatMap
  rw [conditionChecks, List.flatMap_cons, List.flatMap_singleton, Check.found, Check.found,
    diagnoseCondition, List.drop_left, Node.postorder, hcond]

/-- A condition is looked at by the same checks. -/
theorem Expr.conditionChecks_annotate (pos : Position) (construct : String) (cond : Expr) :
    cond.annotate.conditionChecks pos construct =
      (cond.conditionChecks pos construct).map Check.annotate := by
  rw [conditionChecks, diagnoseCondition, List.drop_left, infer_annotate, conditionChecks,
    diagnoseCondition, List.drop_left]
  rfl

mutual

/-- The problems of a statement are what its checks find. By recursion on the statement. -/
theorem Stmt.found_checks (ret : Ty) : ∀ (stmt : Stmt) (inLoop : Bool),
    (stmt.checks ret inLoop).flatMap Check.found = stmt.diagnose ret inLoop
  | .declare _ _, _ => List.flatMap_singleton ..
  | .assign _ assignment, _ => by
    rw [Stmt.checks, List.flatMap_singleton, Check.found, ← Node.diagnose_eq_flatMap]
    rfl
  | .call info callee args, _ => by
    rw [Stmt.checks, List.flatMap_singleton, Check.found, ← Node.diagnose_eq_flatMap]
    rfl
  | .ifElse info cond onTrue onFalse, inLoop => by
    rw [Stmt.checks, List.flatMap_append, List.flatMap_append, Expr.found_conditionChecks,
      Stmt.found_checksAll ret onTrue.stmts, Stmt.found_checksAll ret onFalse.stmts, Stmt.diagnose]
  | .loop info init cond increment body, inLoop => by
    rw [Stmt.checks, List.flatMap_append, List.flatMap_append, List.flatMap_append,
      List.flatMap_singleton, List.flatMap_singleton, Expr.found_conditionChecks,
      Stmt.found_checksAll ret body.stmts, Check.found, Check.found, ← Node.diagnose_eq_flatMap,
      ← Node.diagnose_eq_flatMap]
    rfl
  | .leave _, _ => List.flatMap_singleton ..
  | .ret _ none, _ => List.flatMap_singleton ..
  | .ret info (some value), _ => by
    rw [Stmt.checks, List.flatMap_cons, List.flatMap_singleton, Check.found, Check.found,
      ← Node.diagnose_eq_flatMap]
    rfl

/-- So are those of a block. -/
theorem Stmt.found_checksAll (ret : Ty) : ∀ (stmts : List Stmt) (inLoop : Bool),
    (Stmt.checksAll ret inLoop stmts).flatMap Check.found = Stmt.diagnoseAll ret inLoop stmts
  | [], _ => rfl
  | stmt :: rest, inLoop => by
    rw [Stmt.checksAll, List.flatMap_append, Stmt.found_checks ret stmt,
      Stmt.found_checksAll ret rest, Stmt.diagnoseAll]

end

/-- So are those of a function. A function with a faulty signature is one check and no more. -/
theorem FunDef.found_checks (definition : FunDef) :
    definition.checks.flatMap Check.found = definition.diagnose := by
  rcases hfault : definition.signatureFault? with _ | message
  · simp only [FunDef.checks, FunDef.diagnose, hfault, List.flatMap_append, List.flatMap_singleton,
      Stmt.found_checksAll, Check.found]
  · simp only [FunDef.checks, FunDef.diagnose, hfault, List.flatMap_singleton, Check.found]

/-- The problems of a program are what its checks find, one after the other. -/
theorem Tree.found_checks (tree : Tree) : tree.checks.flatMap Check.found = tree.diagnose := by
  rw [Tree.checks, List.flatMap_assoc, Tree.diagnose]
  refine List.flatMap_congr fun item _ => ?_
  cases item with
  | global decl => rfl
  | function definition => exact definition.found_checks

/-! ### With the types written in -/

mutual

/-- A statement with types is looked at by the same checks. -/
theorem Stmt.checks_annotate (ret : Ty) : ∀ (stmt : Stmt) (inLoop : Bool),
    stmt.annotate.checks ret inLoop = (stmt.checks ret inLoop).map Check.annotate
  | .declare _ _, _ => rfl
  | .assign _ _, _ => rfl
  | .call _ _ _, _ => rfl
  | .ifElse info cond onTrue onFalse, inLoop => by
    rw [Stmt.annotate, Stmt.checks, Stmt.checks, List.map_append, List.map_append,
      Expr.conditionChecks_annotate, Stmt.checksAll_annotateAll ret onTrue.stmts,
      Stmt.checksAll_annotateAll ret onFalse.stmts]
    rfl
  | .loop info init cond increment body, inLoop => by
    rw [Stmt.annotate, Stmt.checks, Stmt.checks, List.map_append, List.map_append, List.map_append,
      Expr.conditionChecks_annotate, Stmt.checksAll_annotateAll ret body.stmts]
    rfl
  | .leave _, _ => rfl
  | .ret _ none, _ => rfl
  | .ret info (some value), _ => by
    rw [Stmt.annotate, Stmt.checks, Expr.infer_annotate]
    rfl

/-- So is a block. -/
theorem Stmt.checksAll_annotateAll (ret : Ty) : ∀ (stmts : List Stmt) (inLoop : Bool),
    Stmt.checksAll ret inLoop (Stmt.annotateAll stmts) =
      (Stmt.checksAll ret inLoop stmts).map Check.annotate
  | [], _ => rfl
  | stmt :: rest, inLoop => by
    rw [Stmt.annotateAll, Stmt.checksAll, Stmt.checks_annotate ret stmt,
      Stmt.checksAll_annotateAll ret rest, Stmt.checksAll, List.map_append]

end

/-- So is a function. -/
theorem FunDef.checks_annotate (definition : FunDef) :
    definition.annotate.checks = definition.checks.map Check.annotate := by
  rcases hfault : definition.signatureFault? with _ | message
  · have hfault' : definition.annotate.signatureFault? = none := by
      rw [FunDef.annotate, hfault]
      exact hfault
    have hpaths : definition.annotate.diagnosePaths = definition.diagnosePaths := by
      simp only [FunDef.diagnosePaths, FunDef.annotate, hfault, Stmt.anyReturns_annotateAll]
    have hbody := Stmt.checksAll_annotateAll definition.ret definition.body.stmts false
    simp only [FunDef.checks, hfault, hfault', hpaths, List.map_append, ← hbody]
    simp only [FunDef.annotate, hfault]
    rfl
  · have hsame : definition.annotate = definition := by rw [FunDef.annotate, hfault]
    rw [hsame, FunDef.checks, hfault]
    rfl

/-- So is a program. -/
theorem Tree.checks_annotate (tree : Tree) :
    tree.annotate.checks = tree.checks.map Check.annotate := by
  rw [Tree.checks, Tree.annotate, List.flatMap_map, Tree.checks, List.map_flatMap]
  refine List.flatMap_congr fun item _ => ?_
  cases item with
  | global decl => rfl
  | function definition => exact definition.checks_annotate

/-- The nodes with their types are visited in the same order. -/
theorem Tree.visited_annotate (tree : Tree) :
    tree.annotate.visited = tree.visited.map Node.annotate := by
  rw [Tree.visited, Tree.checks_annotate, List.flatMap_map, Tree.visited, List.map_flatMap]
  exact List.flatMap_congr fun check _ => check.nodes_annotate

/-- What the checks find in the tree with types is what was reported of the tree. -/
theorem Tree.found_checks_annotate (tree : Tree) :
    tree.annotate.checks.flatMap Check.found = tree.diagnose := by
  rw [Tree.checks_annotate, List.flatMap_map, ← Tree.found_checks]
  exact List.flatMap_congr fun check _ => check.found_annotate

/-- If a node is visited, then so is everything inside it. -/
theorem Tree.postorder_subset_visited {tree : Tree} {node : Node} (h : node ∈ tree.visited) :
    node.postorder ⊆ tree.visited := by
  obtain ⟨check, hcheck, hnode⟩ := List.mem_flatMap.mp h
  cases check with
  | node root =>
    intro inner hinner
    exact List.mem_flatMap.mpr ⟨.node root, hcheck, Node.postorder_subset hnode hinner⟩
  | rule found => cases hnode

/-! ## The names that are used

Every name in a visited node is an occurrence that resolution has come by. Each construct has its
checks and its occurrences; the rules below follow how both are put together. -/

/-- The occurrences of names in a subtree. -/
def Node.occurrences (scope : List Nat) : Node → List Occurrence
  | .value expr => expr.occurrences scope
  | .assign assignment => assignment.occurrences scope

/-- The occurrences in several expressions, one expression after the other. -/
theorem Expr.occurrencesAll_eq_flatMap (scope : List Nat) (exprs : List Expr) :
    Expr.occurrencesAll scope exprs = exprs.flatMap (Expr.occurrences scope) := by
  induction exprs with
  | nil => rfl
  | cons expr rest ih => rw [Expr.occurrencesAll, ih, List.flatMap_cons]

/-- The occurrences in a subtree: those of the node itself, then those in its parts. -/
theorem Node.occurrences_eq (scope : List Nat) (node : Node) :
    node.occurrences scope =
      node.names.map (Ident.used scope) ++ node.parts.flatMap (Expr.occurrences scope) := by
  cases node with
  | value expr =>
    cases expr <;>
      simp [occurrences, Expr.occurrences, names, parts, Expr.occurrencesAll_eq_flatMap]
  | assign assignment => simp [occurrences, Assignment.occurrences, names, parts]

/-- A name that is used by a node inside a subtree occurs in the subtree. -/
theorem Node.used_mem_occurrences {scope : List Nat} {node inner : Node} {ident : Ident}
    (h : inner ∈ node.postorder) (hident : ident ∈ inner.names) :
    ident.used scope ∈ node.occurrences scope := by
  induction node using Node.byParts with
  | step node ih =>
    rw [occurrences_eq, List.mem_append]
    rw [postorder_eq, List.mem_append, List.mem_singleton] at h
    rcases h with h | rfl
    · obtain ⟨part, hpart, hinner⟩ := List.mem_flatMap.mp h
      exact .inr (List.mem_flatMap.mpr ⟨part, hpart, ih part hpart hinner⟩)
    · exact .inl (List.mem_map_of_mem hident)

/-- Checks look only at what is among the occurrences. -/
def Within (occurrences : List Occurrence) (checks : List Check) : Prop :=
  ∀ root, .node root ∈ checks → ∃ scope, root.occurrences scope ⊆ occurrences

namespace Within

variable {first second : List Occurrence} {checks others : List Check} {scope : List Nat}

/-- Checks that stay within some occurrences stay within more of them. -/
theorem mono (h : Within first checks) (hsub : first ⊆ second) : Within second checks := by
  intro root hmem
  obtain ⟨scope, hscope⟩ := h root hmem
  exact ⟨scope, List.Subset.trans hscope hsub⟩

/-- Checks in a row stay within the occurrences in a row. -/
theorem append (h : Within first checks) (h' : Within second others) :
    Within (first ++ second) (checks ++ others) := by
  intro root hmem
  rcases List.mem_append.mp hmem with hmem | hmem
  · exact h.mono (List.subset_append_left _ _) root hmem
  · exact h'.mono (List.subset_append_right _ _) root hmem

/-- A rule looks at no name. -/
theorem rule (occurrences : List Occurrence) (found : List Diagnostic) :
    Within occurrences [.rule found] :=
  fun _ hmem => nomatch List.mem_singleton.mp hmem

/-- Visiting a subtree looks at the names in it. -/
theorem node (root : Node) : Within (root.occurrences scope) [.node root] := by
  intro other hmem
  obtain rfl := Check.node.inj (List.mem_singleton.mp hmem)
  exact ⟨scope, List.Subset.refl _⟩

/-- A rule that follows looks at nothing else. -/
theorem ruled (h : Within first checks) (found : List Diagnostic) :
    Within first (checks ++ [.rule found]) := by
  have happend := h.append (.rule [] found)
  rwa [List.append_nil] at happend

end Within

mutual

/-- The checks of a statement look at what occurs in it. By recursion on the statement. -/
theorem Stmt.within_checks (ret : Ty) :
    ∀ (stmt : Stmt) {inLoop : Bool} {scope : List Nat} {n : Nat},
      Within (stmt.occurrences scope n) (stmt.checks ret inLoop)
  | .declare _ _, _, _, _ => .rule _ _
  | .assign _ assignment, _, _, _ => .node (.assign assignment)
  | .call info callee args, _, _, _ => .node (.value (.call info callee args))
  | .ifElse _ cond onTrue onFalse, _, _, _ => by
    rw [Stmt.checks, List.append_assoc]
    exact ((Within.node (.value cond)).ruled _).append
      ((Stmt.within_checksAll ret onTrue.stmts).append (Stmt.within_checksAll ret onFalse.stmts))
  | .loop _ init cond increment body, _, _, _ => by
    rw [Stmt.checks, List.append_assoc, List.append_assoc]
    exact (Within.node (.assign init)).append (((Within.node (.value cond)).ruled _).append
      ((Within.node (.assign increment)).append (Stmt.within_checksAll ret body.stmts)))
  | .leave _, _, _, _ => .rule _ _
  | .ret _ none, _, _, _ => .rule _ _
  | .ret _ (some value), _, _, _ => (Within.node (.value value)).ruled _

/-- Those of a block look at what occurs in the block. -/
theorem Stmt.within_checksAll (ret : Ty) : ∀ (stmts : List Stmt) {inLoop : Bool} {scope : List Nat}
    {n : Nat}, Within (Stmt.occurrencesAll scope n stmts) (Stmt.checksAll ret inLoop stmts)
  | [], _, _, _ => fun _ hmem => absurd hmem List.not_mem_nil
  | stmt :: rest, _, _, _ => (Stmt.within_checks ret stmt).append (Stmt.within_checksAll ret rest)

end

/-- Those of a function look at what occurs in the function. -/
theorem FunDef.within_checks (definition : FunDef) (n : Nat) :
    Within (definition.occurrences n) definition.checks := by
  rw [FunDef.checks]
  split
  · exact .rule _ _
  · have hbody : Within (Stmt.occurrencesAll [n] 0 definition.body.stmts)
        (Stmt.checksAll definition.ret false definition.body.stmts) := Stmt.within_checksAll _ _
    have hparams := Within.rule (definition.ident.declaredAs [] definition.ty ::
      definition.params.map (Param.occurrence [n])) definition.diagnoseParams
    exact (hparams.append hbody).ruled _

/-- Those of a tree look at what occurs in the tree. -/
theorem Tree.within_checks (tree : Tree) : Within tree.occurrences tree.checks := by
  intro root hmem
  obtain ⟨item, hitem, hroot⟩ := List.mem_flatMap.mp hmem
  cases item with
  | global decl => cases hroot
  | function definition =>
    obtain ⟨n, hsub⟩ := Item.subset_occurrencesAll 0 hitem
    exact (definition.within_checks n).mono hsub root hroot

/-- The names of a visited node are among those that resolution binds. -/
theorem Tree.exists_occurrence_of_visited {tree : Tree} {node : Node} (h : node ∈ tree.visited)
    {ident : Ident} (hident : ident ∈ node.names) :
    ∃ occurrence ∈ tree.occurrences, occurrence.ident = ident := by
  obtain ⟨check, hcheck, hnode⟩ := List.mem_flatMap.mp h
  cases check with
  | node root =>
    obtain ⟨scope, hsub⟩ := tree.within_checks root hcheck
    exact ⟨_, hsub (Node.used_mem_occurrences hnode hident), rfl⟩
  | rule found => cases hnode

/-! ## Every fault is reported, and once

The two halves of the statement for one node: if its type is a fault that none of its operands has,
it adds this one problem; otherwise it adds nothing, and a fault can be traced to where it arose. -/

/-- A name whose symbol is faulty or has a fault for its type. -/
def Ident.Spoilt (ident : Ident) : Prop :=
  ∃ symbol, ident.symbol = some symbol ∧
    (symbol.isFaulty = true ∨ ∃ message, symbol.ty = some (.error message))

/-- After resolution a name has a faulty type only if it is spoilt: a symbol without a type is
faulty. -/
theorem Ident.spoilt_of_visited {tree : Tree} {nextId : Nat} {node : Node}
    (h : node ∈ (tree.resolve nextId).1.visited) {ident : Ident} (hident : ident ∈ node.names)
    (herror : ident.ty.isError = true) : ident.Spoilt := by
  obtain ⟨occurrence, hmem, rfl⟩ := Tree.exists_occurrence_of_visited h hident
  have hfit : SymbolsFit (fun _ symbol => symbol.isFaulty = true ∨ ∃ ty, symbol.ty = some ty)
      (tree.resolve nextId).1.occurrences :=
    tree.symbolsFit_resolve (fun _ _ ty => .inr ⟨ty, rfl⟩) (fun _ _ _ => .inl rfl) nextId
  obtain ⟨symbol, hsymbol, hkind⟩ := hfit occurrence hmem
  refine ⟨symbol, hsymbol, hkind.imp_right ?_⟩
  rintro ⟨ty, hty⟩
  have hname : occurrence.ident.ty = ty := by
    rw [Ident.ty, show occurrence.ident.symbol = some symbol from hsymbol, Option.bind_some, hty]
    rfl
  rw [hname] at herror
  cases ty with
  | error message => exact ⟨message, hty⟩
  | _ => cases herror

/-- A node is reported if its type becomes a fault there, and only then. -/
structure Node.Reported (node : Node) : Prop where
  /-- its type was written into its slot -/
  typed : ∃ ty, node.info.ty = some ty
  /-- what it adds comes after what is found inside its parts -/
  after : node.diagnose = Expr.diagnoseAll node.parts ++ node.pushed
  /-- a fault that no operand has is reported, with the place of the node and the message of its
  type -/
  fresh : ∀ message, node.info.ty = some (.error message) → node.poisoned = false →
    node.pushed = [.illTyped node.info.pos message]
  /-- nothing else is reported -/
  quiet : node.pushed ≠ [] →
    (∃ message, node.info.ty = some (.error message)) ∧ node.poisoned = false
  /-- a fault was reported somewhere inside, or comes from a name that was spoilt before -/
  traced : ∀ message, node.info.ty = some (.error message) →
    ∃ inner ∈ node.postorder, inner.pushed ≠ [] ∨ ∃ ident ∈ inner.names, ident.Spoilt

/-- A node of a checked tree is reported as it should be, if the names inside of it that have a
faulty type are spoilt. -/
theorem Node.reported_annotate {node : Node}
    (hnames : ∀ inner ∈ node.postorder, ∀ ident ∈ inner.names, ident.ty.isError = true →
      ident.Spoilt) :
    node.annotate.Reported := by
  have hslot : node.annotate.info.ty = some node.infer := by
    rw [info_annotate]
    rfl
  refine ⟨⟨_, hslot⟩, node.annotate.diagnose_eq, ?_, ?_, ?_⟩
  -- the slots hold the types that checking goes by, so what it asks can be asked of the slots
  · intro message hty hclean
    have hinfer := Option.some.inj (hslot.symm.trans hty)
    rw [poisoned_annotate] at hclean
    rw [pushed_annotate, pushed_eq, hinfer, Ty.reportAt, hclean, info_annotate]
    rfl
  · intro hpushed
    rw [pushed_annotate, pushed_eq, Ne, Ty.reportAt_eq_nil_iff, not_or, Bool.not_eq_false,
      Bool.not_eq_true, ← poisoned_annotate] at hpushed
    obtain ⟨herror, hclean⟩ := hpushed
    rw [hslot]
    cases hinfer : node.infer with
    | error message => exact ⟨⟨message, rfl⟩, hclean⟩
    | _ =>
      rw [hinfer] at herror
      cases herror
  · intro message hty
    have hinfer := Option.some.inj (hslot.symm.trans hty)
    have herror : node.infer.isError = true := by rw [hinfer]; rfl
    obtain ⟨inner, hinner, hsource⟩ := exists_source herror
    have hinner' : inner.annotate ∈ node.annotate.postorder := by
      rw [postorder_annotate]
      exact List.mem_map_of_mem hinner
    refine ⟨inner.annotate, hinner', ?_⟩
    rw [pushed_annotate, names_annotate]
    refine hsource.imp_right ?_
    rintro ⟨ident, hident, herror⟩
    exact ⟨ident, hident, hnames inner hinner ident hident herror⟩

/-- What checking says of types is what the visited nodes and the rules in between add, in the order
of visiting; and each visited node is reported where its type becomes a fault, and only there. -/
theorem Tree.faults_reported_once (tree : Tree) (nextId : Nat) :
    let checked := tree.check nextId
    checked.diagnostics =
        (tree.resolve nextId).2.errors ++ checked.tree.checks.flatMap Check.found ∧
      ∀ node ∈ checked.tree.visited, node.Reported ∧ node.postorder ⊆ checked.tree.visited := by
  intro checked
  refine ⟨congrArg _ (Tree.found_checks_annotate _).symm, fun node hmem => ?_⟩
  refine ⟨?_, Tree.postorder_subset_visited hmem⟩
  have hmem' : node ∈ ((tree.resolve nextId).1.visited).map Node.annotate := by
    rwa [← Tree.visited_annotate]
  -- the names of the node are those of the resolved tree, before any type was written
  obtain ⟨source, hsource, rfl⟩ := List.mem_map.mp hmem'
  refine Node.reported_annotate fun inner hinner ident hident herror => ?_
  exact Ident.spoilt_of_visited (Tree.postorder_subset_visited hsource hinner) hident herror

/-- An assignment `x = y * (1 + true)` where nothing declares `y`, and a call that is given a whole
array. -/
def spoiltTree : Tree :=
  let name (text : String) : Ident := { name := text }
  let sum : Expr := .binary { pos := ⟨2, 11⟩ } (.arith .add) (.int {} 1) (.bool {} true)
  let product : Expr := .binary {} (.arith .mul) (.var {} (name "y")) sum
  { items :=
      [.global { ident := name "row", declared := .array .int 3 },
        .function
          { ident := name "main", ret := .void, params := []
            body := { stmts :=
              [.declare {} { ident := name "x", declared := .int },
                .assign {} { location := .var {} (name "x"), value := product },
                .call {} (name "printInt") [.var { pos := ⟨3, 14⟩ } (name "row")]] } }] }

/-- The sum and the array are reported. The product and the assignment around the sum have the fault
of the name `y`, which was reported before, and the call has that of the array. -/
theorem Tree.faults_reported_once_spoilt :
    (spoiltTree.check 0).diagnostics =
        [.unresolved {} "y", .illTyped ⟨2, 11⟩ "cannot add int with bool",
          .illTyped ⟨3, 14⟩ "array row can only be used through an index"] ∧
      ∃ assignment, Node.assign assignment ∈ (spoiltTree.check 0).tree.visited ∧
        assignment.info.ty = some (.error "unresolved symbol y") ∧
        (Node.assign assignment).pushed = [] ∧ (Node.assign assignment).Reported := by
  obtain ⟨-, hvisited⟩ := Tree.faults_reported_once spoiltTree 0
  have hmem : Node.assign _ ∈ (spoiltTree.check 0).tree.visited := List.mem_of_getElem? (i := 6) rfl
  exact ⟨by decide +kernel, _, hmem, by decide +kernel, by decide +kernel, (hvisited _ hmem).1⟩

end WordLang
