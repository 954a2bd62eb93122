import WordLang.Diagnostic
import WordLang.Tree
import WordLang.Ty.Algebra

/-!
# Type checking

Checking a program asks three questions that do not depend on each other's answers, so each is a
function of its own on the resolved tree:

* `infer` gives the type of an expression, from the symbols of its names alone;
* `annotate` writes these types into the slots of the tree;
* `diagnose` lists what is wrong, in the order of reading and inner nodes first.

An expression is reported where its type becomes an `error`: when its own type is one and none of
the types it was made from is. Names that resolution could not bind have been reported there, so
they count as faulty operands and are not reported again.
-/

namespace WordLang

/-! ## Types of expressions -/

/-- The type of a name, by its symbol. -/
def Ident.ty (ident : Ident) : Ty :=
  (ident.symbol.bind (·.ty)).getD (.error ("unresolved symbol " ++ ident.name))

/-- The type of a name that stands for a value. Arrays have to be indexed. -/
def Ident.valueTy (ident : Ident) : Ty :=
  if ident.ty.isArray then .error ("array " ++ ident.name ++ " can only be used through an index")
  else ident.ty

/-- The type of an operator with one operand. -/
def Operation.unaryTy (operand : Ty) : Operation → Ty
  | .negate => operand.negate
  | op => .error ("missing right operand for " ++ op.name)

/-- The type of an operator with two operands. Negation looks at the left one only. -/
def Operation.binaryTy (left right : Ty) : Operation → Ty
  | .arith op => left.arith op right
  | .compare _ => left.compare right
  | .connect op => left.connect op right
  | .negate => left.negate

mutual

/-- The type of an expression. -/
def Expr.infer : Expr → Ty
  | .int _ _ => .int
  | .bool _ _ => .bool
  | .var _ ident => ident.valueTy
  | .index _ base position => base.ty.index position.infer
  | .call _ callee args => callee.ty.call (Expr.inferAll args)
  | .unary _ op operand => op.unaryTy operand.infer
  | .binary _ op left right => op.binaryTy left.infer right.infer

/-- The types of several expressions. -/
def Expr.inferAll : List Expr → List Ty
  | [] => []
  | expr :: rest => expr.infer :: Expr.inferAll rest

end

/-- The type of an assignment. -/
def Assignment.infer (assignment : Assignment) : Ty :=
  assignment.location.infer.assign assignment.value.infer

/-! ## Filling the slots -/

/-- Records a type in a slot. -/
def Info.withTy (info : Info) (ty : Ty) : Info :=
  { info with ty := some ty }

mutual

/-- Records the type of every node of an expression. -/
def Expr.annotate : Expr → Expr
  | .int info value => .int (info.withTy .int) value
  | .bool info value => .bool (info.withTy .bool) value
  | .var info ident => .var (info.withTy ident.valueTy) ident
  | .index info base position =>
    .index (info.withTy (base.ty.index position.infer)) base position.annotate
  | .call info callee args =>
    .call (info.withTy (callee.ty.call (Expr.inferAll args))) callee (Expr.annotateAll args)
  | .unary info op operand => .unary (info.withTy (op.unaryTy operand.infer)) op operand.annotate
  | .binary info op left right =>
    .binary (info.withTy (op.binaryTy left.infer right.infer)) op left.annotate right.annotate

/-- Records the types of several expressions. -/
def Expr.annotateAll : List Expr → List Expr
  | [] => []
  | expr :: rest => expr.annotate :: Expr.annotateAll rest

end

/-- Records the type of a declaration. -/
def VarDecl.annotate (decl : VarDecl) : VarDecl :=
  { decl with info := decl.info.withTy decl.ident.ty }

/-- Records the types of an assignment. -/
def Assignment.annotate (assignment : Assignment) : Assignment where
  info := assignment.info.withTy assignment.infer
  location := assignment.location.annotate
  value := assignment.value.annotate

mutual

/-- Records the types of a statement. -/
def Stmt.annotate : Stmt → Stmt
  | .declare info decl => .declare (info.withTy decl.ident.ty) decl.annotate
  | .assign info assignment => .assign (info.withTy assignment.infer) assignment.annotate
  | .call info callee args =>
    .call (info.withTy (callee.ty.call (Expr.inferAll args))) callee (Expr.annotateAll args)
  | .ifElse info cond onTrue onFalse =>
    .ifElse (info.withTy .void) cond.annotate
      { onTrue with stmts := Stmt.annotateAll onTrue.stmts }
      { onFalse with stmts := Stmt.annotateAll onFalse.stmts }
  | .loop info init cond increment body =>
    .loop (info.withTy .void) init.annotate cond.annotate increment.annotate
      { body with stmts := Stmt.annotateAll body.stmts }
  | .leave info => .leave (info.withTy .void)
  | .ret info none => .ret (info.withTy .void) none
  | .ret info (some value) => .ret (info.withTy value.infer) (some value.annotate)

/-- Records the types of several statements. -/
def Stmt.annotateAll : List Stmt → List Stmt
  | [] => []
  | stmt :: rest => stmt.annotate :: Stmt.annotateAll rest

end

/-! ## Problems of expressions -/

/-- Reports a type that is an `error` although none of the types it was made from is. -/
def Ty.reportAt (pos : Position) (operands : List Ty) : Ty → List Diagnostic
  | .error message => if operands.any Ty.isError then [] else [.illTyped pos message]
  | _ => []

mutual

/-- The problems of an expression, operands first. -/
def Expr.diagnose : Expr → List Diagnostic
  | .int _ _ => []
  | .bool _ _ => []
  | .var info ident => ident.valueTy.reportAt info.pos [ident.ty]
  | .index info base position =>
    position.diagnose ++
      (base.ty.index position.infer).reportAt info.pos [base.ty, position.infer]
  | .call info callee args =>
    Expr.diagnoseAll args ++
      (callee.ty.call (Expr.inferAll args)).reportAt info.pos (callee.ty :: Expr.inferAll args)
  | .unary info op operand =>
    operand.diagnose ++ (op.unaryTy operand.infer).reportAt info.pos [operand.infer]
  | .binary info op left right =>
    left.diagnose ++ right.diagnose ++
      (op.binaryTy left.infer right.infer).reportAt info.pos [left.infer, right.infer]

/-- The problems of several expressions. -/
def Expr.diagnoseAll : List Expr → List Diagnostic
  | [] => []
  | expr :: rest => expr.diagnose ++ Expr.diagnoseAll rest

end

/-! ## Problems of statements -/

/-- A local variable cannot be an array. -/
def VarDecl.diagnoseLocal (decl : VarDecl) : List Diagnostic :=
  if decl.declared.isArray then
    [.illTyped decl.info.pos ("array " ++ decl.ident.name ++ " must be declared at global scope")]
  else []

/-- The problems of an assignment: of the location, of the value, of both together. -/
def Assignment.diagnose (assignment : Assignment) : List Diagnostic :=
  assignment.location.diagnose ++ assignment.value.diagnose ++
    assignment.infer.reportAt assignment.info.pos
      [assignment.location.infer, assignment.value.infer]

/-- The problems of a condition. A fault inside it is reported there and not again. -/
def Expr.diagnoseCondition (pos : Position) (construct : String) (cond : Expr) : List Diagnostic :=
  cond.diagnose ++
    if cond.infer.isError || cond.infer.equivalent .bool then []
    else
      [.illTyped pos
        ("condition of " ++ construct ++ " must be bool, found " ++ cond.infer.text)]

/-- The problems of returning a value of type `ty` from a function that returns `ret`. -/
def Ty.diagnoseReturn (pos : Position) (ret ty : Ty) : List Diagnostic :=
  if ty.isError || ty.equivalent ret then []
  else [.illTyped pos ("cannot return " ++ ty.text ++ " from a function returning " ++ ret.text)]

mutual

/-- The problems of a statement of a function that returns `ret`. -/
def Stmt.diagnose (ret : Ty) (inLoop : Bool) : Stmt → List Diagnostic
  | .declare _ decl => decl.diagnoseLocal
  | .assign _ assignment => assignment.diagnose
  | .call info callee args =>
    Expr.diagnoseAll args ++
      (callee.ty.call (Expr.inferAll args)).reportAt info.pos (callee.ty :: Expr.inferAll args)
  | .ifElse info cond onTrue onFalse =>
    cond.diagnoseCondition info.pos "if" ++ Stmt.diagnoseAll ret inLoop onTrue.stmts ++
      Stmt.diagnoseAll ret inLoop onFalse.stmts
  | .loop info init cond increment body =>
    init.diagnose ++ cond.diagnoseCondition info.pos "for" ++ increment.diagnose ++
      Stmt.diagnoseAll ret true body.stmts
  | .leave info => if inLoop then [] else [.illTyped info.pos "break statement outside of a loop"]
  | .ret info none => Ty.diagnoseReturn info.pos ret .void
  | .ret info (some value) => value.diagnose ++ Ty.diagnoseReturn info.pos ret value.infer

/-- The problems of several statements. -/
def Stmt.diagnoseAll (ret : Ty) (inLoop : Bool) : List Stmt → List Diagnostic
  | [] => []
  | stmt :: rest => stmt.diagnose ret inLoop ++ Stmt.diagnoseAll ret inLoop rest

end

mutual

/-- Whether a statement returns on every path through it. A loop may run its body zero times. -/
def Stmt.returns : Stmt → Bool
  | .ifElse _ _ onTrue onFalse => Stmt.anyReturns onTrue.stmts && Stmt.anyReturns onFalse.stmts
  | .ret _ _ => true
  | _ => false

/-- Whether one of the statements returns on every path through it. -/
def Stmt.anyReturns : List Stmt → Bool
  | [] => false
  | stmt :: rest => stmt.returns || Stmt.anyReturns rest

end

/-! ## Problems of programs -/

/-- What is wrong with the signature of the entry function. Its body is then left alone. -/
def FunDef.signatureFault? (definition : FunDef) : Option String :=
  if definition.ident.name = "main" then
    if ! definition.ret.isVoid then some "main function must return void"
    else if ! definition.params.isEmpty then some "main function must take no parameters"
    else none
  else none

/-- The problems of the parameters of a function: none of them can be an array. -/
def FunDef.diagnoseParams (definition : FunDef) : List Diagnostic :=
  (definition.params.filter (·.declared.isArray)).map fun param =>
    .illTyped definition.pos
      ("parameter " ++ param.ident.name ++ " of function " ++ definition.ident.name ++
        " cannot be an array")

/-- A function with a return type returns on every path. -/
def FunDef.diagnosePaths (definition : FunDef) : List Diagnostic :=
  if definition.ret.isVoid || Stmt.anyReturns definition.body.stmts then []
  else
    [.illTyped definition.pos
      ("function " ++ definition.ident.name ++ " does not return on all paths")]

/-- The problems of a function. -/
def FunDef.diagnose (definition : FunDef) : List Diagnostic :=
  match definition.signatureFault? with
  | some message => [.illTyped definition.pos message]
  | none =>
    definition.diagnoseParams ++
      Stmt.diagnoseAll definition.ret false definition.body.stmts ++ definition.diagnosePaths

/-- Records the types of a function's body. -/
def FunDef.annotate (definition : FunDef) : FunDef :=
  match definition.signatureFault? with
  | some _ => definition
  | none =>
    { definition with
      body := { definition.body with stmts := Stmt.annotateAll definition.body.stmts } }

/-- The problems of a top declaration. -/
def Item.diagnose : Item → List Diagnostic
  | .global _ => []
  | .function definition => definition.diagnose

/-- Records the types of a top declaration. -/
def Item.annotate : Item → Item
  | .global decl => .global decl.annotate
  | .function definition => .function definition.annotate

/-- The problems of a program. -/
def Tree.diagnose (tree : Tree) : List Diagnostic :=
  tree.items.flatMap Item.diagnose

/-- Records the types of a program. -/
def Tree.annotate (tree : Tree) : Tree :=
  { items := tree.items.map Item.annotate }

/-! ## The slots agree with the types -/

/-- The slot of an annotated expression holds its type. -/
@[simp]
theorem Expr.ty_annotate (expr : Expr) : expr.annotate.info.ty = some expr.infer := by
  cases expr <;> simp [Expr.annotate, Expr.info, Info.withTy, Expr.infer]

@[simp]
theorem Expr.inferAll_eq_map (exprs : List Expr) : Expr.inferAll exprs = exprs.map Expr.infer := by
  induction exprs with
  | nil => rfl
  | cons expr rest ih => simp [Expr.inferAll, ih]

/-- An expression is reported exactly when its type is an `error` and no operand's is. -/
theorem Ty.reportAt_eq_nil_iff {pos : Position} {operands : List Ty} {ty : Ty} :
    ty.reportAt pos operands = [] ↔ ty.isError = false ∨ operands.any Ty.isError = true := by
  cases ty with
  | error message =>
    by_cases h : operands.any Ty.isError = true <;> simp [Ty.reportAt, Ty.isError, h]
  | _ => simp [Ty.reportAt, Ty.isError]

end WordLang
