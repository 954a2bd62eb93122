import WordLang.Tree
import WordLang.Ty.Format

/-!
# The written form of trees

Writing gives every record as an object with all its fields; the slots for symbols and types are
not part of the form. Reading also takes a record as an array of its fields, lets a record leave
out its place (which is then `[0,0]`), lets an operator leave out its right operand or have `null`
for it, and passes over members of unknown names. As for types, reading has a budget of nested
objects and arrays, on which it recurses; what is passed over costs nothing. It also knows whether
the value comes from a text, where the record of a variant may be an array too.
-/

namespace WordLang

/-! ## Writing -/

/-- The written form of a position. -/
def Position.toJson (pos : Position) : Json :=
  .record [("line", .int pos.line.toNat), ("column", .int pos.column.toNat)]

/-- The written form of a name. -/
def Ident.toJson (ident : Ident) : Json :=
  .record [("pos", ident.pos.toJson), ("name", .str ident.name)]

/-- A node: its place and its kind. -/
def Json.node (pos : Position) (kind : Json) : Json :=
  .record [("pos", pos.toJson), ("kind", kind)]

mutual

/-- The written form of an expression. -/
def Expr.toJson : Expr → Json
  | .int info value => .node info.pos (.tagged "LiteralInt" (.int value.toInt))
  | .bool info value => .node info.pos (.tagged "LiteralBool" (.bool value))
  | .var info ident => .node info.pos (.tagged "Var" ident.toJson)
  | .index info base position =>
    .node info.pos (.tagged "Index" (.record [("base", base.toJson), ("index", position.toJson)]))
  | .call info callee args =>
    .node info.pos
      (.tagged "Call" (.record [("callee", callee.toJson), ("args", .arr (Expr.listToJson args))]))
  | .unary info op operand =>
    .node info.pos
      (.tagged "Op" (.record [("op", .str op.name), ("lhs", operand.toJson), ("rhs", .null)]))
  | .binary info op left right =>
    .node info.pos
      (.tagged "Op" (.record [("op", .str op.name), ("lhs", left.toJson), ("rhs", right.toJson)]))

/-- The written forms of several expressions. -/
def Expr.listToJson : List Expr → List Json
  | [] => []
  | expr :: rest => expr.toJson :: Expr.listToJson rest

end

/-- The written form of a declaration. -/
def VarDecl.toJson (decl : VarDecl) : Json :=
  .record [("pos", decl.info.pos.toJson), ("ident", decl.ident.toJson),
    ("declared", decl.declared.toJson)]

/-- The written form of an assignment. -/
def Assignment.toJson (assignment : Assignment) : Json :=
  .record [("pos", assignment.info.pos.toJson), ("location", assignment.location.toJson),
    ("value", assignment.value.toJson)]

mutual

/-- The written form of a statement. -/
def Stmt.toJson : Stmt → Json
  | .declare info decl => .node info.pos (.tagged "Decl" decl.toJson)
  | .assign info assignment => .node info.pos (.tagged "Assign" assignment.toJson)
  | .call info callee args =>
    .node info.pos
      (.tagged "Call" (.record [("callee", callee.toJson), ("args", .arr (Expr.listToJson args))]))
  | .ifElse info cond onTrue onFalse =>
    .node info.pos
      (.tagged "IfElse" (.record [("cond", cond.toJson), ("then", Block.toJson onTrue),
        ("else_", Block.toJson onFalse)]))
  | .loop info init cond increment body =>
    .node info.pos
      (.tagged "For" (.record [("init", init.toJson), ("cond", cond.toJson),
        ("increment", increment.toJson), ("body", Block.toJson body)]))
  | .leave info => .node info.pos (.str "Break")
  | .ret info value => .node info.pos (.tagged "Return" ((value.map Expr.toJson).getD .null))

/-- The written form of a block. -/
def Block.toJson : Block Stmt → Json
  | { pos, stmts } => .record [("pos", pos.toJson), ("stmts", .arr (Stmt.listToJson stmts))]

/-- The written forms of several statements. -/
def Stmt.listToJson : List Stmt → List Json
  | [] => []
  | stmt :: rest => stmt.toJson :: Stmt.listToJson rest

end

/-- The written form of a parameter. -/
def Param.toJson (param : Param) : Json :=
  .record [("ident", param.ident.toJson), ("declared", param.declared.toJson)]

/-- The written form of a function. -/
def FunDef.toJson (definition : FunDef) : Json :=
  .record [("pos", definition.pos.toJson), ("ident", definition.ident.toJson),
    ("params", .arr (definition.params.map Param.toJson)), ("ret", definition.ret.toJson),
    ("body", Block.toJson definition.body)]

/-- The written form of a top declaration. -/
def Item.toJson : Item → Json
  | .global decl => .tagged "Decl" decl.toJson
  | .function definition => .tagged "Function" definition.toJson

/-- The written form of a program. -/
def Tree.toJson (tree : Tree) : Json :=
  .record [("items", .arr (tree.items.map Item.toJson))]

/-! ## Reading -/

/-- Reads a position. -/
def Position.ofJson? : Nat → Json → Option Position
  | _ + 1, json =>
    match json.fields? ["line", "column"] with
    | some [some line, some column] => do
      some { line := ← line.word?, column := ← column.word? }
    | _ => none
  | 0, _ => none

/-- Reads a place that may be left out. -/
def Position.ofField? (budget : Nat) : Option Json → Option Position
  | none => some {}
  | some json => Position.ofJson? budget json

/-- Reads a name. -/
def Ident.ofJson? : Nat → Json → Option Ident
  | budget + 1, json =>
    match json.fields? ["pos", "name"] with
    | some [pos, some name] => do
      some { pos := ← Position.ofField? budget pos, name := ← name.str? }
    | _ => none
  | 0, _ => none

/-- Reads an operator: a bare tag, or one whose content is null. -/
def Operation.ofJson? : Nat → Json → Option Operation
  | _, .str name => Operation.ofName? name
  | _ + 1, .obj [(name, .null)] => Operation.ofName? name
  | _, _ => none

/-- Reads an array with a reader for its items. -/
def Json.list? {α : Type} (read : Nat → Json → Option α) : Nat → Json → Option (List α)
  | budget + 1, .arr items => items.mapM (read budget)
  | _, _ => none

/-- Reads an expression. -/
def Expr.ofJson? (origin : Json.Origin) : Nat → Json → Option Expr
  | budget + 1, json =>
    match json.fields? ["pos", "kind"] with
    | some [place, some kind] => do
      let info : Info := { pos := ← Position.ofField? budget place }
      match budget, kind with
      | _ + 1, .obj [("LiteralInt", content)] => content.signedWord?.map (.int info)
      | _ + 1, .obj [("LiteralBool", content)] => content.bool?.map (.bool info)
      | budget + 1, .obj [("Var", content)] => (Ident.ofJson? budget content).map (.var info)
      | budget + 2, .obj [("Index", content)] =>
        match content.contents? origin ["base", "index"] with
        | some [some base, some position] => do
          some (.index info (← Ident.ofJson? budget base)
            (← Expr.ofJson? origin budget position))
        | _ => none
      | budget + 3, .obj [("Call", content)] =>
        match content.fields? ["callee", "args"] with
        | some [some callee, some (.arr args)] => do
          some (.call info (← Ident.ofJson? (budget + 1) callee)
            (← args.mapM fun arg => Expr.ofJson? origin budget arg))
        | _ => none
      | budget + 2, .obj [("Op", content)] =>
        match content.contents? origin ["op", "lhs", "rhs"] with
        | some [some op, some left, right] => do
          let op ← Operation.ofJson? budget op
          let left ← Expr.ofJson? origin budget left
          match right with
          | none => some (.unary info op left)
          | some .null => some (.unary info op left)
          | some right => (Expr.ofJson? origin budget right).map (.binary info op left)
        | _ => none
      | _, _ => none
    | _ => none
  | 0, _ => none

/-- Reads a declaration. -/
def VarDecl.ofJson? (origin : Json.Origin) : Nat → Json → Option VarDecl
  | budget + 1, json =>
    match json.fields? ["pos", "ident", "declared"] with
    | some [pos, some ident, some declared] => do
      some {
        info := { pos := ← Position.ofField? budget pos }
        ident := ← Ident.ofJson? budget ident
        declared := ← Ty.ofJson? origin budget declared }
    | _ => none
  | 0, _ => none

/-- Reads an assignment. -/
def Assignment.ofJson? (origin : Json.Origin) : Nat → Json → Option Assignment
  | budget + 1, json =>
    match json.fields? ["pos", "location", "value"] with
    | some [pos, some location, some value] => do
      some {
        info := { pos := ← Position.ofField? budget pos }
        location := ← Expr.ofJson? origin budget location
        value := ← Expr.ofJson? origin budget value }
    | _ => none
  | 0, _ => none

mutual

/-- Reads a statement. -/
def Stmt.ofJson? (origin : Json.Origin) : Nat → Json → Option Stmt
  | budget + 1, json =>
    match json.fields? ["pos", "kind"] with
    | some [place, some kind] => do
      let info : Info := { pos := ← Position.ofField? budget place }
      match budget, kind with
      | _, .str "Break" => some (.leave info)
      | _ + 1, .obj [("Break", .null)] => some (.leave info)
      | _ + 1, .obj [("Return", .null)] => some (.ret info none)
      | budget + 1, .obj [("Return", content)] =>
        (Expr.ofJson? origin budget content).map fun value => .ret info (some value)
      | budget + 1, .obj [("Decl", content)] =>
        (VarDecl.ofJson? origin budget content).map (.declare info)
      | budget + 1, .obj [("Assign", content)] =>
        (Assignment.ofJson? origin budget content).map (.assign info)
      | budget + 2, .obj [("Call", content)] =>
        match content.fields? ["callee", "args"] with
        | some [some callee, some args] => do
          some (.call info (← Ident.ofJson? budget callee)
            (← Json.list? (Expr.ofJson? origin) budget args))
        | _ => none
      | budget + 2, .obj [("IfElse", content)] =>
        match content.contents? origin ["cond", "then", "else_"] with
        | some [some cond, some onTrue, some onFalse] => do
          some (.ifElse info (← Expr.ofJson? origin budget cond)
            (← Block.ofJson? origin budget onTrue) (← Block.ofJson? origin budget onFalse))
        | _ => none
      | budget + 2, .obj [("For", content)] =>
        match content.contents? origin ["init", "cond", "increment", "body"] with
        | some [some init, some cond, some increment, some body] => do
          some (.loop info (← Assignment.ofJson? origin budget init)
            (← Expr.ofJson? origin budget cond) (← Assignment.ofJson? origin budget increment)
            (← Block.ofJson? origin budget body))
        | _ => none
      | _, _ => none
    | _ => none
  | 0, _ => none

/-- Reads a block. -/
def Block.ofJson? (origin : Json.Origin) : Nat → Json → Option (Block Stmt)
  | budget + 2, json =>
    match json.fields? ["pos", "stmts"] with
    | some [pos, some (.arr stmts)] => do
      some {
        pos := ← Position.ofField? (budget + 1) pos
        stmts := ← stmts.mapM fun stmt => Stmt.ofJson? origin budget stmt }
    | _ => none
  | _, _ => none

end

/-- Reads a parameter. -/
def Param.ofJson? (origin : Json.Origin) : Nat → Json → Option Param
  | budget + 1, json =>
    match json.fields? ["ident", "declared"] with
    | some [some ident, some declared] => do
      some {
        ident := ← Ident.ofJson? budget ident
        declared := ← Ty.ofJson? origin budget declared }
    | _ => none
  | 0, _ => none

/-- Reads a function. -/
def FunDef.ofJson? (origin : Json.Origin) : Nat → Json → Option FunDef
  | budget + 1, json =>
    match json.fields? ["pos", "ident", "params", "ret", "body"] with
    | some [pos, some ident, some params, some ret, some body] => do
      some {
        pos := ← Position.ofField? budget pos
        ident := ← Ident.ofJson? budget ident
        params := ← Json.list? (Param.ofJson? origin) budget params
        ret := ← Ty.ofJson? origin budget ret
        body := ← Block.ofJson? origin budget body }
    | _ => none
  | 0, _ => none

/-- Reads a top declaration. -/
def Item.ofJson? (origin : Json.Origin) : Nat → Json → Option Item
  | budget + 1, .obj [("Decl", content)] => (VarDecl.ofJson? origin budget content).map .global
  | budget + 1, .obj [("Function", content)] =>
    (FunDef.ofJson? origin budget content).map .function
  | _, _ => none

/-- Reads a program within a budget. -/
def Tree.ofJsonWithin? (origin : Json.Origin) : Nat → Json → Option Tree
  | budget + 1, json =>
    match json.fields? ["items"] with
    | some [some items] => (Json.list? (Item.ofJson? origin) budget items).map Tree.mk
    | _ => none
  | 0, _ => none

/-- Reads a program of any nesting from a value in memory. -/
def Tree.ofJson? (json : Json) : Option Tree :=
  Tree.ofJsonWithin? .memory json.depth json

end WordLang
