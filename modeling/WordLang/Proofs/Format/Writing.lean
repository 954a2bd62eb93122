import WordLang.Proofs.Relabelling.Basic

/-!
# What is written can be read

Reading the written form of a tree gives the tree back, with empty slots: slots are not written
(`Tree.ofJsonWithin?_toJson`). The budget of nested objects and arrays has to cover the depth of the
form, and nothing more is asked. It does not matter whether the form comes from a text or is a
value.

The proofs follow the recursion of writing. In each case the record that was written has the fields
that are looked for, so reading comes down to the parts. A case has two steps:

* the depth of what was written is computed, down to the depths of the parts (`depth_record`,
  `depth_tagged` and so on), so that the budget that is left covers each part;
* the reader is opened with the fields of the record, and each part is read by what is known of it.

Trees are nested, and so the theorems about expressions and statements are mutual ones, together
with their forms for lists. Slots that are emptied on the way are put together with
`Relabelling.erase`.
-/

namespace WordLang

namespace Json

/-! ## Depth

How deeply objects and arrays are nested in what is written. A word or a text is not nested; a
record is one level around its members; a variant with contents is one level around them. -/

/-- A number has no depth. -/
@[simp]
theorem depth_int (value : Int) : (int value).depth = 0 := by rw [depth] <;> nofun

/-- A text has no depth. -/
@[simp]
theorem depth_str (value : String) : (str value).depth = 0 := by rw [depth] <;> nofun

/-- An array is one level around its items. -/
@[simp]
theorem depth_arr (items : List Json) : (arr items).depth = itemsDepth items + 1 := by
  rw [depth]

/-- An object is one level around its members. -/
@[simp]
theorem depth_record (members : List (String × Json)) :
    (record members).depth = membersDepth members + 1 := by
  rw [record, depth]

/-- A variant with contents is an object with a single member. -/
@[simp]
theorem depth_tagged (tag : String) (content : Json) :
    (tagged tag content).depth = content.depth + 1 := by
  rw [tagged, depth, membersDepth, membersDepth, Nat.max_zero]

/-- A place is a pair of numbers. -/
@[simp]
theorem depth_position (pos : Position) : pos.toJson.depth = 1 := by
  simp [Position.toJson, membersDepth]

/-- A node is an object with its place, which has depth one, and what it is. -/
@[simp]
theorem depth_node (pos : Position) (kind : Json) :
    (node pos kind).depth = max 1 kind.depth + 1 := by
  simp [node, membersDepth]

/-- A name is an object with a place in it. -/
@[simp]
theorem depth_ident (ident : Ident) : ident.toJson.depth = 2 := by
  simp [Ident.toJson, membersDepth]

/-! ## Words and lists

The smallest parts, which have no tree in them. -/

/-- A word is written as a natural number, and is read back. -/
@[simp]
theorem word?_toNat (word : UInt64) : (int word.toNat).word? = some word := by
  have hlt : (word.toNat : Int) < UInt64.size := by exact_mod_cast word.toNat_lt_size
  rw [word?, if_pos ⟨Int.natCast_nonneg _, hlt⟩, Int.toNat_natCast, UInt64.ofNat_toNat]

/-- A signed word is written as an integer, and is read back. -/
@[simp]
theorem signedWord?_toInt (word : Int64) : (int word.toInt).signedWord? = some word := by
  rw [signedWord?, if_pos ⟨word.minValue_le_toInt, word.toInt_le⟩, Int64.ofInt_toInt]

/-- A list is read back if its members are. What they are read back as may be something else than
what was written, here the same with empty slots. -/
theorem mapM_map {α β : Type} {read : Json → Option β} {write : α → Json} {f : α → β}
    {items : List α} (h : ∀ item ∈ items, read (write item) = some (f item)) :
    (items.map write).mapM read = some (items.map f) := by
  induction items with
  | nil => rfl
  | cons item rest ih =>
    rw [List.forall_mem_cons] at h
    rw [List.map_cons, List.mapM_cons, h.1, ih h.2]
    rfl

/-- A node has the two fields that are looked for in it. -/
theorem fields?_node (pos : Position) (kind : Json) :
    (node pos kind).fields? ["pos", "kind"] = some [some pos.toJson, some kind] := rfl

/-- A call has the two fields that are looked for in it. -/
theorem fields?_call (callee args : Json) :
    (record [("callee", callee), ("args", args)]).fields? ["callee", "args"] =
      some [some callee, some args] := rfl

/-- An operation has the three fields that are looked for in it. It is a record in a variant, so
where it comes from is asked first; for an object that makes no difference. -/
theorem contents?_operation (origin : Origin) (op left right : Json) :
    contents? origin ["op", "lhs", "rhs"] (record [("op", op), ("lhs", left), ("rhs", right)]) =
      some [some op, some left, some right] := rfl

end Json

/-! ## Types

By recursion on the type, with its form for lists of types. -/

namespace Ty

mutual

/-- A type is read back from its written form, if the budget covers its depth. -/
theorem ofJson?_toJson (origin : Json.Origin) : ∀ (ty : Ty) {budget : Nat},
    ty.toJson.depth ≤ budget → ofJson? origin budget ty.toJson = some ty
  | .int, budget, _ => by cases budget <;> rfl
  | .bool, budget, _ => by cases budget <;> rfl
  | .void, budget, _ => by cases budget <;> rfl
  | .array base extent, budget, h => by
    simp only [toJson, Json.depth_tagged, Json.depth_record, Json.membersDepth] at h
    obtain ⟨budget, rfl⟩ : ∃ inner, budget = inner + 2 := ⟨budget - 2, by omega⟩
    have hbase := ofJson?_toJson origin base (show _ ≤ budget by omega)
    rw [toJson, Json.tagged, ofJson?]
    case heq => rfl
    rw [hbase, Json.word?_toNat]
    rfl
  | .func params ret, budget, h => by
    simp only [toJson, Json.depth_tagged, Json.depth_record, Json.membersDepth, Json.depth_arr] at h
    obtain ⟨budget, rfl⟩ : ∃ inner, budget = inner + 3 := ⟨budget - 3, by omega⟩
    have hparams := mapM_listToJson origin params (show _ ≤ budget by omega)
    have hret := ofJson?_toJson origin ret (show _ ≤ budget + 1 by omega)
    rw [toJson, Json.tagged, ofJson?]
    case heq => rfl
    rw [hparams, hret]
    rfl
  | .error message, budget, h => by
    simp only [toJson, Json.depth_tagged, Json.depth_record] at h
    obtain ⟨budget, rfl⟩ : ∃ inner, budget = inner + 2 := ⟨budget - 2, by omega⟩
    rw [toJson]
    rfl

/-- So are the types of parameters. -/
theorem mapM_listToJson (origin : Json.Origin) : ∀ (tys : List Ty) {budget : Nat},
    Json.itemsDepth (listToJson tys) ≤ budget →
      (listToJson tys).mapM (fun ty => ofJson? origin budget ty) = some tys
  | [], _, _ => rfl
  | ty :: rest, budget, h => by
    rw [listToJson, Json.itemsDepth] at h
    rw [listToJson, List.mapM_cons, ofJson?_toJson origin ty (by omega),
      mapM_listToJson origin rest (by omega)]
    rfl

end

end Ty

/-! ## Places, names and operators

What a node has besides its parts. These have a fixed depth, so what is asked of the budget is a
number. -/

/-- A place is read back. The field for it may be absent, but in what is written it never is. -/
@[simp]
theorem Position.ofField?_toJson (pos : Position) (budget : Nat) :
    Position.ofField? (budget + 1) (some pos.toJson) = some pos := by
  have hfields : pos.toJson.fields? ["line", "column"] =
      some [some (.int pos.line.toNat), some (.int pos.column.toNat)] := rfl
  rw [Position.ofField?, Position.ofJson?, hfields]
  simp only [Json.word?_toNat]
  rfl

/-- A name is read back without its symbol. -/
@[simp]
theorem Ident.ofJson?_toJson (ident : Ident) (budget : Nat) :
    Ident.ofJson? (budget + 2) ident.toJson = some (Relabelling.erase.ident ident) := by
  have hfields : ident.toJson.fields? ["pos", "name"] =
      some [some ident.pos.toJson, some (.str ident.name)] := rfl
  rw [Ident.ofJson?, hfields]
  simp only [Position.ofField?_toJson]
  rfl

/-- Operators are written as their names, which differ. -/
@[simp]
theorem Operation.ofJson?_name (op : Operation) (budget : Nat) :
    Operation.ofJson? budget (.str op.name) = some op := by
  rw [Operation.ofJson?, Operation.ofName?_name]

/-! ## Expressions

An operation with one operand is written with `null` for the right one. This is read as no operand
because no expression is written as `null`. -/

/-- The written form of an expression is not `null`, which stands for no expression. -/
theorem Expr.exists_toJson_eq (expr : Expr) : ∃ members, expr.toJson = .obj members := by
  cases expr <;> rw [Expr.toJson] <;> exact ⟨_, rfl⟩

mutual

/-- An expression is read back with empty slots, if the budget covers its depth. Each case takes as
many levels off the budget as the written form has around the parts. -/
theorem Expr.ofJson?_toJson (origin : Json.Origin) : ∀ (expr : Expr) {budget : Nat},
    expr.toJson.depth ≤ budget →
      Expr.ofJson? origin budget expr.toJson = some (expr.relabel .erase)
  | .int info value, budget, h => by
    simp only [Expr.toJson, Json.depth_node, Json.depth_tagged] at h
    -- the node and its payload each take one level of the budget
    obtain ⟨budget, rfl⟩ : ∃ inner, budget = inner + 2 := ⟨budget - 2, by omega⟩
    rw [Expr.toJson, Expr.ofJson?, Json.fields?_node]
    simp only [Position.ofField?_toJson, Json.tagged, Json.signedWord?_toInt]
    rfl
  | .bool info value, budget, h => by
    simp only [Expr.toJson, Json.depth_node, Json.depth_tagged] at h
    obtain ⟨budget, rfl⟩ : ∃ inner, budget = inner + 2 := ⟨budget - 2, by omega⟩
    rw [Expr.toJson, Expr.ofJson?, Json.fields?_node]
    simp only [Position.ofField?_toJson]
    rfl
  | .var info ident, budget, h => by
    simp only [Expr.toJson, Json.depth_node, Json.depth_tagged, Json.depth_ident] at h
    obtain ⟨budget, rfl⟩ : ∃ inner, budget = inner + 4 := ⟨budget - 4, by omega⟩
    rw [Expr.toJson, Expr.ofJson?, Json.fields?_node]
    simp only [Position.ofField?_toJson, Json.tagged, Ident.ofJson?_toJson]
    rfl
  | .index info base position, budget, h => by
    simp only [Expr.toJson, Json.depth_node, Json.depth_tagged, Json.depth_record,
      Json.membersDepth, Json.depth_ident] at h
    obtain ⟨budget, rfl⟩ : ∃ inner, budget = inner + 5 := ⟨budget - 5, by omega⟩
    have hposition := Expr.ofJson?_toJson origin position (show _ ≤ budget + 2 by omega)
    have hcontents : Json.contents? origin ["base", "index"]
        (.record [("base", base.toJson), ("index", position.toJson)]) =
          some [some base.toJson, some position.toJson] := rfl
    rw [Expr.toJson, Expr.ofJson?, Json.fields?_node]
    simp only [Position.ofField?_toJson, Json.tagged, hcontents, Ident.ofJson?_toJson, hposition]
    rfl
  | .call info callee args, budget, h => by
    simp only [Expr.toJson, Json.depth_node, Json.depth_tagged, Json.depth_record,
      Json.membersDepth, Json.depth_ident, Json.depth_arr] at h
    obtain ⟨budget, rfl⟩ : ∃ inner, budget = inner + 5 := ⟨budget - 5, by omega⟩
    have hargs := Expr.mapM_listToJson origin args (show _ ≤ budget + 1 by omega)
    rw [Expr.toJson, Expr.ofJson?, Json.fields?_node]
    simp only [Position.ofField?_toJson, Json.tagged, Json.fields?_call, Ident.ofJson?_toJson,
      hargs]
    rfl
  | .unary info op operand, budget, h => by
    simp only [Expr.toJson, Json.depth_node, Json.depth_tagged, Json.depth_record,
      Json.membersDepth] at h
    obtain ⟨budget, rfl⟩ : ∃ inner, budget = inner + 3 := ⟨budget - 3, by omega⟩
    have hoperand := Expr.ofJson?_toJson origin operand (show _ ≤ budget by omega)
    rw [Expr.toJson, Expr.ofJson?, Json.fields?_node]
    simp only [Position.ofField?_toJson, Json.tagged, Json.contents?_operation,
      Operation.ofJson?_name, hoperand]
    rfl
  | .binary info op left right, budget, h => by
    simp only [Expr.toJson, Json.depth_node, Json.depth_tagged, Json.depth_record,
      Json.membersDepth] at h
    obtain ⟨budget, rfl⟩ : ∃ inner, budget = inner + 3 := ⟨budget - 3, by omega⟩
    have hleft := Expr.ofJson?_toJson origin left (show _ ≤ budget by omega)
    have hright := Expr.ofJson?_toJson origin right (show _ ≤ budget by omega)
    rw [Expr.toJson, Expr.ofJson?, Json.fields?_node]
    simp only [Position.ofField?_toJson, Json.tagged, Json.contents?_operation,
      Operation.ofJson?_name, hleft]
    obtain ⟨members, heq⟩ := right.exists_toJson_eq
    rw [heq] at hright ⊢
    simp only [hright]
    rfl

/-- So are the arguments of a call. -/
theorem Expr.mapM_listToJson (origin : Json.Origin) : ∀ (exprs : List Expr) {budget : Nat},
    Json.itemsDepth (Expr.listToJson exprs) ≤ budget →
      (Expr.listToJson exprs).mapM (fun expr => Expr.ofJson? origin budget expr) =
        some (Expr.relabelAll .erase exprs)
  | [], _, _ => rfl
  | expr :: rest, budget, h => by
    rw [Expr.listToJson, Json.itemsDepth] at h
    rw [Expr.listToJson, List.mapM_cons, Expr.ofJson?_toJson origin expr (by omega),
      Expr.mapM_listToJson origin rest (by omega)]
    rfl

end

/-! ## Statements

Blocks take a level of their own: they have a place, and their statements are an array. -/

/-- A declaration of a variable, which has a name and a type in it. -/
theorem VarDecl.ofJson?_toJson (origin : Json.Origin) (decl : VarDecl) {budget : Nat}
    (h : decl.toJson.depth ≤ budget) :
    VarDecl.ofJson? origin budget decl.toJson = some (decl.relabel .erase) := by
  simp only [VarDecl.toJson, Json.depth_record, Json.membersDepth, Json.depth_position,
    Json.depth_ident] at h
  obtain ⟨budget, rfl⟩ : ∃ inner, budget = inner + 3 := ⟨budget - 3, by omega⟩
  have hdeclared := decl.declared.ofJson?_toJson origin (show _ ≤ budget + 2 by omega)
  have hfields : decl.toJson.fields? ["pos", "ident", "declared"] =
      some [some decl.info.pos.toJson, some decl.ident.toJson, some decl.declared.toJson] := rfl
  rw [VarDecl.ofJson?, hfields]
  simp only [Position.ofField?_toJson, Ident.ofJson?_toJson, hdeclared]
  rfl

/-- An assignment, which has two expressions in it. -/
theorem Assignment.ofJson?_toJson (origin : Json.Origin) (assignment : Assignment) {budget : Nat}
    (h : assignment.toJson.depth ≤ budget) :
    Assignment.ofJson? origin budget assignment.toJson = some (assignment.relabel .erase) := by
  simp only [Assignment.toJson, Json.depth_record, Json.membersDepth, Json.depth_position] at h
  obtain ⟨budget, rfl⟩ : ∃ inner, budget = inner + 2 := ⟨budget - 2, by omega⟩
  have hlocation := assignment.location.ofJson?_toJson origin (show _ ≤ budget + 1 by omega)
  have hvalue := assignment.value.ofJson?_toJson origin (show _ ≤ budget + 1 by omega)
  have hfields : assignment.toJson.fields? ["pos", "location", "value"] =
      some [some assignment.info.pos.toJson, some assignment.location.toJson,
        some assignment.value.toJson] := rfl
  rw [Assignment.ofJson?, hfields]
  simp only [Position.ofField?_toJson, hlocation, hvalue]
  rfl

mutual

/-- A statement is read back with empty slots, if the budget covers its depth. In a conditional and
in a loop the parts have depths of their own, and the budget covers the largest. -/
theorem Stmt.ofJson?_toJson (origin : Json.Origin) : ∀ (stmt : Stmt) {budget : Nat},
    stmt.toJson.depth ≤ budget →
      Stmt.ofJson? origin budget stmt.toJson = some (stmt.relabel .erase)
  | .declare info decl, budget, h => by
    simp only [Stmt.toJson, Json.depth_node, Json.depth_tagged] at h
    obtain ⟨budget, rfl⟩ : ∃ inner, budget = inner + 2 := ⟨budget - 2, by omega⟩
    have hdecl := decl.ofJson?_toJson origin (show _ ≤ budget by omega)
    rw [Stmt.toJson, Stmt.ofJson?, Json.fields?_node]
    simp only [Position.ofField?_toJson, Json.tagged, hdecl]
    rfl
  | .assign info assignment, budget, h => by
    simp only [Stmt.toJson, Json.depth_node, Json.depth_tagged] at h
    obtain ⟨budget, rfl⟩ : ∃ inner, budget = inner + 2 := ⟨budget - 2, by omega⟩
    have hassignment := assignment.ofJson?_toJson origin (show _ ≤ budget by omega)
    rw [Stmt.toJson, Stmt.ofJson?, Json.fields?_node]
    simp only [Position.ofField?_toJson, Json.tagged, hassignment]
    rfl
  | .call info callee args, budget, h => by
    simp only [Stmt.toJson, Json.depth_node, Json.depth_tagged, Json.depth_record,
      Json.membersDepth, Json.depth_ident, Json.depth_arr] at h
    obtain ⟨budget, rfl⟩ : ∃ inner, budget = inner + 5 := ⟨budget - 5, by omega⟩
    have hargs := Expr.mapM_listToJson origin args (show _ ≤ budget + 1 by omega)
    rw [Stmt.toJson, Stmt.ofJson?, Json.fields?_node]
    simp only [Position.ofField?_toJson, Json.tagged, Json.fields?_call, Ident.ofJson?_toJson,
      Json.list?, hargs]
    rfl
  | .ifElse info cond onTrue onFalse, budget, h => by
    simp only [Stmt.toJson, Json.depth_node, Json.depth_tagged, Json.depth_record,
      Json.membersDepth] at h
    obtain ⟨budget, rfl⟩ : ∃ inner, budget = inner + 3 := ⟨budget - 3, by omega⟩
    have hcond := cond.ofJson?_toJson origin (show _ ≤ budget by omega)
    have htrue := Block.ofJson?_toJson origin onTrue (show _ ≤ budget by omega)
    have hfalse := Block.ofJson?_toJson origin onFalse (show _ ≤ budget by omega)
    have hcontents : Json.contents? origin ["cond", "then", "else_"]
        (.record [("cond", cond.toJson), ("then", Block.toJson onTrue),
          ("else_", Block.toJson onFalse)]) =
          some [some cond.toJson, some (Block.toJson onTrue), some (Block.toJson onFalse)] := rfl
    rw [Stmt.toJson, Stmt.ofJson?, Json.fields?_node]
    simp only [Position.ofField?_toJson, Json.tagged, hcontents, hcond, htrue, hfalse]
    rfl
  | .loop info init cond increment body, budget, h => by
    simp only [Stmt.toJson, Json.depth_node, Json.depth_tagged, Json.depth_record,
      Json.membersDepth] at h
    obtain ⟨budget, rfl⟩ : ∃ inner, budget = inner + 3 := ⟨budget - 3, by omega⟩
    have hinit := init.ofJson?_toJson origin (show _ ≤ budget by omega)
    have hcond := cond.ofJson?_toJson origin (show _ ≤ budget by omega)
    have hincrement := increment.ofJson?_toJson origin (show _ ≤ budget by omega)
    have hbody := Block.ofJson?_toJson origin body (show _ ≤ budget by omega)
    have hcontents : Json.contents? origin ["init", "cond", "increment", "body"]
        (.record [("init", init.toJson), ("cond", cond.toJson), ("increment", increment.toJson),
          ("body", Block.toJson body)]) =
          some [some init.toJson, some cond.toJson, some increment.toJson,
            some (Block.toJson body)] := rfl
    rw [Stmt.toJson, Stmt.ofJson?, Json.fields?_node]
    simp only [Position.ofField?_toJson, Json.tagged, hcontents, hinit, hcond, hincrement, hbody]
    rfl
  | .leave info, budget, h => by
    simp only [Stmt.toJson, Json.depth_node] at h
    obtain ⟨budget, rfl⟩ : ∃ inner, budget = inner + 2 := ⟨budget - 2, by omega⟩
    rw [Stmt.toJson, Stmt.ofJson?, Json.fields?_node]
    simp only [Position.ofField?_toJson]
    rfl
  | .ret info none, budget, h => by
    simp only [Stmt.toJson, Json.depth_node] at h
    obtain ⟨budget, rfl⟩ : ∃ inner, budget = inner + 2 := ⟨budget - 2, by omega⟩
    rw [Stmt.toJson, Stmt.ofJson?, Json.fields?_node]
    simp only [Position.ofField?_toJson, Option.map_none, Option.getD_none, Json.tagged]
    rfl
  | .ret info (some value), budget, h => by
    simp only [Stmt.toJson, Option.map_some, Option.getD_some, Json.depth_node,
      Json.depth_tagged] at h
    obtain ⟨budget, rfl⟩ : ∃ inner, budget = inner + 2 := ⟨budget - 2, by omega⟩
    have hvalue := value.ofJson?_toJson origin (show _ ≤ budget by omega)
    obtain ⟨members, heq⟩ := value.exists_toJson_eq
    rw [Stmt.toJson, Stmt.ofJson?, Json.fields?_node]
    simp only [Position.ofField?_toJson, Option.map_some, Option.getD_some, Json.tagged]
    rw [heq] at hvalue ⊢
    simp only [hvalue]
    rfl

/-- So is a block, with its place. -/
theorem Block.ofJson?_toJson (origin : Json.Origin) : ∀ (block : Block Stmt) {budget : Nat},
    (Block.toJson block).depth ≤ budget →
      Block.ofJson? origin budget (Block.toJson block) =
        some { pos := block.pos, stmts := Stmt.relabelAll .erase block.stmts }
  | { pos, stmts }, budget, h => by
    simp only [Block.toJson, Json.depth_record, Json.membersDepth, Json.depth_position,
      Json.depth_arr] at h
    obtain ⟨budget, rfl⟩ : ∃ inner, budget = inner + 2 := ⟨budget - 2, by omega⟩
    have hstmts := Stmt.mapM_listToJson origin stmts (show _ ≤ budget by omega)
    have hfields : Json.fields? ["pos", "stmts"]
        (.record [("pos", pos.toJson), ("stmts", .arr (Stmt.listToJson stmts))]) =
          some [some pos.toJson, some (.arr (Stmt.listToJson stmts))] := rfl
    rw [Block.toJson, Block.ofJson?, hfields]
    simp only [Position.ofField?_toJson, hstmts]
    rfl

/-- So are the statements of one. -/
theorem Stmt.mapM_listToJson (origin : Json.Origin) : ∀ (stmts : List Stmt) {budget : Nat},
    Json.itemsDepth (Stmt.listToJson stmts) ≤ budget →
      (Stmt.listToJson stmts).mapM (fun stmt => Stmt.ofJson? origin budget stmt) =
        some (Stmt.relabelAll .erase stmts)
  | [], _, _ => rfl
  | stmt :: rest, budget, h => by
    rw [Stmt.listToJson, Json.itemsDepth] at h
    rw [Stmt.listToJson, List.mapM_cons, Stmt.ofJson?_toJson origin stmt (by omega),
      Stmt.mapM_listToJson origin rest (by omega)]
    rfl

end

/-! ## Programs

The last levels: parameters, functions, and declarations at the top. -/

/-- A parameter is written like a declaration of a variable. -/
theorem Param.ofJson?_toJson (origin : Json.Origin) (param : Param) {budget : Nat}
    (h : param.toJson.depth ≤ budget) :
    Param.ofJson? origin budget param.toJson = some (param.relabel .erase) := by
  simp only [Param.toJson, Json.depth_record, Json.membersDepth, Json.depth_ident] at h
  obtain ⟨budget, rfl⟩ : ∃ inner, budget = inner + 3 := ⟨budget - 3, by omega⟩
  have hdeclared := param.declared.ofJson?_toJson origin (show _ ≤ budget + 2 by omega)
  have hfields : param.toJson.fields? ["ident", "declared"] =
      some [some param.ident.toJson, some param.declared.toJson] := rfl
  rw [Param.ofJson?, hfields]
  simp only [Ident.ofJson?_toJson, hdeclared]
  rfl

/-- A function is read back with empty slots, in its body and in its parameters. -/
theorem FunDef.ofJson?_toJson (origin : Json.Origin) (definition : FunDef) {budget : Nat}
    (h : definition.toJson.depth ≤ budget) :
    FunDef.ofJson? origin budget definition.toJson = some (definition.relabel .erase) := by
  simp only [FunDef.toJson, Json.depth_record, Json.membersDepth, Json.depth_position,
    Json.depth_ident, Json.depth_arr] at h
  obtain ⟨budget, rfl⟩ : ∃ inner, budget = inner + 3 := ⟨budget - 3, by omega⟩
  have hparams : (definition.params.map Param.toJson).mapM (Param.ofJson? origin (budget + 1)) =
      some (definition.params.map (Param.relabel .erase)) := by
    refine Json.mapM_map fun param hparam => param.ofJson?_toJson origin ?_
    have hle := Json.depth_le_itemsDepth (List.mem_map_of_mem (f := Param.toJson) hparam)
    omega
  have hret := definition.ret.ofJson?_toJson origin (show _ ≤ budget + 2 by omega)
  have hbody := Block.ofJson?_toJson origin definition.body (show _ ≤ budget + 2 by omega)
  have hfields : definition.toJson.fields? ["pos", "ident", "params", "ret", "body"] =
      some [some definition.pos.toJson, some definition.ident.toJson,
        some (.arr (definition.params.map Param.toJson)), some definition.ret.toJson,
        some (Block.toJson definition.body)] := rfl
  rw [FunDef.ofJson?, hfields]
  simp only [Position.ofField?_toJson, Ident.ofJson?_toJson, Json.list?, hparams, hret, hbody]
  rfl

/-- So is a declaration at the top, of either kind. -/
theorem Item.ofJson?_toJson (origin : Json.Origin) (item : Item) {budget : Nat}
    (h : item.toJson.depth ≤ budget) :
    Item.ofJson? origin budget item.toJson = some (item.relabel .erase) := by
  cases item with
  | global decl =>
    rw [Item.toJson, Json.depth_tagged] at h
    obtain ⟨budget, rfl⟩ : ∃ inner, budget = inner + 1 := ⟨budget - 1, by omega⟩
    exact congrArg (Option.map Item.global) (decl.ofJson?_toJson origin (Nat.le_of_succ_le_succ h))
  | function definition =>
    rw [Item.toJson, Json.depth_tagged] at h
    obtain ⟨budget, rfl⟩ : ∃ inner, budget = inner + 1 := ⟨budget - 1, by omega⟩
    exact congrArg (Option.map Item.function)
      (definition.ofJson?_toJson origin (Nat.le_of_succ_le_succ h))

/-- Wherever it comes from, the written form of a tree is read as that tree with empty slots. The
origin matters for spellings that writing does not use, so nothing is asked of it here. -/
theorem Tree.ofJsonWithin?_toJson (origin : Json.Origin) (tree : Tree) {budget : Nat}
    (h : tree.toJson.depth ≤ budget) :
    Tree.ofJsonWithin? origin budget tree.toJson = some tree.erase := by
  simp only [Tree.toJson, Json.depth_record, Json.membersDepth, Json.depth_arr] at h
  obtain ⟨budget, rfl⟩ : ∃ inner, budget = inner + 2 := ⟨budget - 2, by omega⟩
  have hitems : (tree.items.map Item.toJson).mapM (Item.ofJson? origin budget) =
      some (tree.items.map (Item.relabel .erase)) := by
    refine Json.mapM_map fun item hitem => item.ofJson?_toJson origin ?_
    have hle := Json.depth_le_itemsDepth (List.mem_map_of_mem (f := Item.toJson) hitem)
    omega
  have hfields : tree.toJson.fields? ["items"] =
      some [some (.arr (tree.items.map Item.toJson))] := rfl
  rw [Tree.ofJsonWithin?, hfields]
  simp only [Json.list?, hitems]
  rfl

end WordLang
