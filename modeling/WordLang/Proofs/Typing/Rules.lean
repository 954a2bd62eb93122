import WordLang.Tree

/-!
# The rules of the types

What a well-typed tree is, said by rules and without `error` types. The names of the tree are
resolved: a name has the type of its symbol.

* `HasType expr ty`: the expression has the type.
* `Stmt.WellTyped ret inLoop stmt`: the statement fits in a function that returns `ret`.
* `Stmt.Returns stmt`: every path through the statement comes to a return.
* `FunDef.WellTyped` and `Tree.WellTyped` put these together.

The rules are written down from what the language is meant to be and not from how it is checked.
They mention no order in which parts are looked at and no report. A tree for which no rule applies
is not well typed, and the rules do not say what is wrong with it. That the checker agrees with them
is shown in `WordLang.Proofs.Typing.Exactness`.
-/

namespace WordLang

/-- A name is that of a symbol of the given type. -/
def Ident.Has (ident : Ident) (ty : Ty) : Prop :=
  ident.symbol.bind (·.ty) = some ty

/-! ## Expressions

One rule for each construct, and two for negation, which may be written with one operand or with
two. -/

mutual

/-- The type of an expression. -/
inductive HasType : Expr → Ty → Prop where
  | int {info value} : HasType (.int info value) .int
  | bool {info value} : HasType (.bool info value) .bool
  /-- a name stands for a value, unless it is that of an array -/
  | var {info ident ty} (hident : ident.Has ty) (hvalue : ty.isArray = false) :
      HasType (.var info ident) ty
  /-- an array is indexed by an integer -/
  | index {info base position element extent} (hbase : base.Has (.array element extent))
      (hposition : HasType position .int) : HasType (.index info base position) element
  /-- a function is called with arguments of the types of its parameters -/
  | call {info callee args params ret} (hcallee : callee.Has (.func params ret))
      (hargs : HasTypes args params) : HasType (.call info callee args) ret
  | arith {info op left right} (hleft : HasType left .int) (hright : HasType right .int) :
      HasType (.binary info (.arith op) left right) .int
  | compare {info op left right} (hleft : HasType left .int) (hright : HasType right .int) :
      HasType (.binary info (.compare op) left right) .bool
  | connect {info op left right} (hleft : HasType left .bool) (hright : HasType right .bool) :
      HasType (.binary info (.connect op) left right) .bool
  | negate {info operand} (hoperand : HasType operand .bool) :
      HasType (.unary info .negate operand) .bool
  /-- a second operand of a negation is ignored, but has a type -/
  | negateIgnoring {info left right ty} (hleft : HasType left .bool) (hright : HasType right ty) :
      HasType (.binary info .negate left right) .bool

/-- The types of several expressions, place by place. -/
inductive HasTypes : List Expr → List Ty → Prop where
  | nil : HasTypes [] []
  | cons {expr rest ty types} (hexpr : HasType expr ty) (hrest : HasTypes rest types) :
      HasTypes (expr :: rest) (ty :: types)

end

/-! ## Statements

The type that the function returns is fixed for all of its statements. Whether a statement is inside
of a loop changes from one to the next. -/

/-- An assignment gives a value to a location of the same type, which is that of integers or of
booleans. -/
def Assignment.WellTyped (assignment : Assignment) : Prop :=
  ∃ ty, (ty = .int ∨ ty = .bool) ∧ HasType assignment.location ty ∧ HasType assignment.value ty

mutual

/-- A statement of a function that returns `ret`, inside of a loop or not. -/
inductive Stmt.WellTyped (ret : Ty) : Bool → Stmt → Prop where
  /-- a local variable is no array -/
  | declare {inLoop info decl} (hdecl : decl.declared.isArray = false) :
      Stmt.WellTyped ret inLoop (.declare info decl)
  | assign {inLoop info assignment} (hassignment : assignment.WellTyped) :
      Stmt.WellTyped ret inLoop (.assign info assignment)
  | call {inLoop info callee args params result} (hcallee : callee.Has (.func params result))
      (hargs : HasTypes args params) : Stmt.WellTyped ret inLoop (.call info callee args)
  | ifElse {inLoop info cond onTrue onFalse} (hcond : HasType cond .bool)
      (htrue : Stmt.AllWellTyped ret inLoop onTrue.stmts)
      (hfalse : Stmt.AllWellTyped ret inLoop onFalse.stmts) :
      Stmt.WellTyped ret inLoop (.ifElse info cond onTrue onFalse)
  | loop {inLoop info init cond increment body} (hinit : init.WellTyped)
      (hcond : HasType cond .bool) (hincrement : increment.WellTyped)
      (hbody : Stmt.AllWellTyped ret true body.stmts) :
      Stmt.WellTyped ret inLoop (.loop info init cond increment body)
  /-- only a loop can be left -/
  | leave {info} : Stmt.WellTyped ret true (.leave info)
  /-- without a value, a function returns `void` -/
  | ret {inLoop info} (hvoid : ret = .void) : Stmt.WellTyped ret inLoop (.ret info none)
  | retValue {inLoop info value} (hvalue : HasType value ret) :
      Stmt.WellTyped ret inLoop (.ret info (some value))

/-- The statements of a list. -/
inductive Stmt.AllWellTyped (ret : Ty) : Bool → List Stmt → Prop where
  | nil {inLoop} : Stmt.AllWellTyped ret inLoop []
  | cons {inLoop stmt rest} (hstmt : Stmt.WellTyped ret inLoop stmt)
      (hrest : Stmt.AllWellTyped ret inLoop rest) : Stmt.AllWellTyped ret inLoop (stmt :: rest)

end

/-- Every path through a statement comes to a return. A loop may not run its body at all, so it does
not count. -/
inductive Stmt.Returns : Stmt → Prop where
  | ret {info value} : Stmt.Returns (.ret info value)
  | ifElse {info cond onTrue onFalse first second} (htrue : first ∈ onTrue.stmts)
      (hfirst : Stmt.Returns first) (hfalse : second ∈ onFalse.stmts)
      (hsecond : Stmt.Returns second) : Stmt.Returns (.ifElse info cond onTrue onFalse)

/-! ## Programs

Functions are looked at one by one. What they may call is known from the symbols of the names in
them. -/

/-- A function whose types fit. -/
structure FunDef.WellTyped (definition : FunDef) : Prop where
  /-- the entry function takes and returns nothing -/
  entry : definition.ident.name = "main" → definition.ret = .void ∧ definition.params = []
  params : ∀ param ∈ definition.params, param.declared.isArray = false
  body : Stmt.AllWellTyped definition.ret false definition.body.stmts
  /-- a function with a value to return does so on every path -/
  returns : definition.ret ≠ .void → ∃ stmt ∈ definition.body.stmts, stmt.Returns

/-- A program whose functions fit. Nothing is asked of globals, which may be arrays. -/
def Tree.WellTyped (tree : Tree) : Prop :=
  ∀ definition, Item.function definition ∈ tree.items → definition.WellTyped

end WordLang
