import Mathlib.Data.List.Basic
import Mathlib.Data.List.Forall2
import WordLang.Proofs.Relabelling.Basic

/-!
# Relabelling and types

Types come from the symbols of names, so a relabelling that keeps the types of symbols keeps the
types of expressions. If names are spelled differently, only what is said of a fault differs: the
types before and after are `Alike`. A problem is then found after relabelling exactly when one was
found before (`Tree.diagnose_relabel`).

The problems themselves need not be the same. Their places may have moved, and a message that tells
a name tells the new one. So the theorems here say that nothing is reported on one side exactly if
nothing is reported on the other, and not what is.

Being alike is kept by every operation on types. An operation hands the first fault among its
operands through, and so it gives a fault on both sides; or no operand is a fault, and then the
operands on both sides are equal (`eq_of_alike`, `alike_propagate`). From there on everything is by
recursion on the tree.

The types that are written in the slots play no part at all: emptying these slots (`untyped`)
changes no type and no problem.
-/

namespace WordLang

/-! ## Types that differ in what they say of a fault

Two types are alike if they are equal or both a fault. An array of faults is no fault in this sense:
faults inside of declared types are written there, and a relabelling does not change what is
written. -/

/-- Equal types, or two faults. -/
inductive Ty.Alike : Ty → Ty → Prop
  | refl (ty : Ty) : Alike ty ty
  | fault (message message' : String) : Alike (.error message) (.error message')

namespace Ty

variable {a b c d : Ty} {first second : List Ty}

/-- Types that are alike are both faults, or neither is. -/
theorem Alike.isError_eq (h : Alike a b) : b.isError = a.isError := by
  cases h <;> rfl

/-- Types that are alike are both arrays, or neither is. -/
theorem Alike.isArray_eq (h : Alike a b) : b.isArray = a.isArray := by
  cases h <;> rfl

/-- Any two faults are alike, whatever they say. -/
theorem Alike.of_isError (ha : a.isError = true) (hb : b.isError = true) : Alike a b := by
  cases a with
  | error message =>
    cases b with
    | error message' => exact .fault message message'
    | _ => cases hb
  | _ => cases ha

/-- A fault is equivalent to nothing, so it does not matter which one it is. -/
theorem Alike.equivalent_eq (h : Alike a b) (c : Ty) : b.equivalent c = a.equivalent c := by
  cases h with
  | refl => rfl
  | fault message message' => rw [equivalent_error_left, equivalent_error_left]

/-- Lists that are alike have a fault in them together. -/
theorem any_isError_of_alike (h : List.Forall₂ Alike first second) :
    second.any isError = first.any isError := by
  induction h with
  | nil => rfl
  | cons hhead _ ih => rw [List.any_cons, List.any_cons, hhead.isError_eq, ih]

/-- Without a fault, lists that are alike are equal. -/
theorem eq_of_alike (h : List.Forall₂ Alike first second) (hclean : first.any isError = false) :
    first = second := by
  induction h with
  | nil => rfl
  | cons hhead _ ih =>
    rw [List.any_cons, Bool.or_eq_false_iff] at hclean
    cases hhead with
    | refl ty => rw [ih hclean.2]
    | fault message message' => cases hclean.1

/-- Where an operand is a fault, the result is one. -/
theorem isError_propagate (h : first.any isError = true) (result : Ty) :
    (propagate first result).isError = true := by
  obtain ⟨ty, hmem, hty⟩ := List.any_eq_true.mp h
  exact isError_propagate_of_mem hmem hty

/-- A fault among the operands is handed through on both sides; without one they are the same. -/
theorem alike_propagate {result result' : Ty} (h : List.Forall₂ Alike first second)
    (hresult : first = second → Alike result result') :
    Alike (propagate first result) (propagate second result') := by
  by_cases herror : first.any isError = true
  · have herror' : second.any isError = true := (any_isError_of_alike h).trans herror
    exact .of_isError (isError_propagate herror _) (isError_propagate herror' _)
  · rw [Bool.not_eq_true] at herror
    obtain rfl := eq_of_alike h herror
    cases hresult rfl with
    | refl ty => exact .refl _
    | fault message message' =>
      have hclean : first.find? isError = none := by
        rw [List.find?_eq_none]
        intro ty hmem
        rw [List.any_eq_false] at herror
        exact herror ty hmem
      rw [propagate, propagate, hclean]
      exact .fault message message'

/-- Each operation on types keeps types alike. Here and below the operands are split by
`alike_propagate`. -/
theorem Alike.arith (op : Arith) (h : Alike a b) (h' : Alike c d) :
    Alike (a.arith op c) (b.arith op d) := by
  refine alike_propagate (.cons h (.cons h' .nil)) fun heq => ?_
  cases heq
  exact .refl _

/-- A comparison of types that are alike. -/
theorem Alike.compare (h : Alike a b) (h' : Alike c d) : Alike (a.compare c) (b.compare d) := by
  refine alike_propagate (.cons h (.cons h' .nil)) fun heq => ?_
  cases heq
  exact .refl _

/-- A connective of types that are alike. -/
theorem Alike.connect (op : Connective) (h : Alike a b) (h' : Alike c d) :
    Alike (a.connect op c) (b.connect op d) := by
  refine alike_propagate (.cons h (.cons h' .nil)) fun heq => ?_
  cases heq
  exact .refl _

/-- The negation of types that are alike. -/
theorem Alike.negate (h : Alike a b) : Alike a.negate b.negate := by
  refine alike_propagate (.cons h .nil) fun heq => ?_
  cases heq
  exact .refl _

/-- An assignment between types that are alike. -/
theorem Alike.assign (h : Alike a b) (h' : Alike c d) : Alike (a.assign c) (b.assign d) := by
  refine alike_propagate (.cons h (.cons h' .nil)) fun heq => ?_
  cases heq
  exact .refl _

/-- An element, where the array and the index are alike. -/
theorem Alike.index (h : Alike a b) (h' : Alike c d) : Alike (a.index c) (b.index d) := by
  refine alike_propagate (.cons h (.cons h' .nil)) fun heq => ?_
  cases heq
  exact .refl _

/-- A call, where the callee and the arguments are alike one by one. -/
theorem Alike.call (h : Alike a b) (h' : List.Forall₂ Alike first second) :
    Alike (a.call first) (b.call second) := by
  refine alike_propagate (.cons h h') fun heq => ?_
  cases heq
  exact .refl _

/-- What is reported at a node: nothing on one side exactly if nothing on the other. It is the
result that has to be a new fault, and then the operands have to have none. -/
theorem Alike.reportAt (h : Alike a b) (h' : List.Forall₂ Alike first second)
    (pos pos' : Position) :
    b.reportAt pos' second = [] ↔ a.reportAt pos first = [] := by
  rw [reportAt_eq_nil_iff, reportAt_eq_nil_iff, h.isError_eq, any_isError_of_alike h']

end Ty

/-! ## Relabelled names

A relabelling may change ids, names and places. What it must not change is the type that a symbol
has, and then a name has the same type as before, or no type as before. -/

/-- A relabelling keeps the types of symbols. -/
def Relabelling.KeepsTypes (f : Relabelling) : Prop :=
  ∀ symbol : Option Symbol, (f.symbol symbol).bind (·.ty) = symbol.bind (·.ty)

section

variable {f : Relabelling}

/-- The type of a name. A name without a type is a fault that tells the name, and so the two are
alike and not equal. -/
theorem Ident.alike_ty (hf : f.KeepsTypes) (ident : Ident) :
    Ty.Alike ident.ty (f.ident ident).ty := by
  unfold Ident.ty Relabelling.ident
  rw [hf]
  cases ident.symbol.bind (·.ty) with
  | none => exact .fault _ _
  | some ty => exact .refl _

/-- The type of a name that is used as a value. -/
theorem Ident.alike_valueTy (hf : f.KeepsTypes) (ident : Ident) :
    Ty.Alike ident.valueTy (f.ident ident).valueTy := by
  unfold Ident.valueTy
  have halike := Ident.alike_ty hf ident
  rw [halike.isArray_eq]
  split
  · exact .fault _ _
  · exact halike

/-- Operations with one operand keep types alike. -/
theorem Operation.alike_unaryTy {a b : Ty} (h : Ty.Alike a b) (op : Operation) :
    Ty.Alike (op.unaryTy a) (op.unaryTy b) := by
  cases op with
  | negate => exact h.negate
  | _ => exact .refl _

/-- Operations with two operands keep types alike. -/
theorem Operation.alike_binaryTy {a b c d : Ty} (h : Ty.Alike a b) (h' : Ty.Alike c d)
    (op : Operation) : Ty.Alike (op.binaryTy a c) (op.binaryTy b d) := by
  cases op with
  | arith op => exact h.arith op h'
  | compare op => exact h.compare h'
  | connect op => exact h.connect op h'
  | negate => exact h.negate

/-! ### Expressions

By recursion on the expression, with the form for lists for arguments. In each case the types of the
parts are alike, and the operation keeps them so. -/

mutual

/-- The type of an expression, before and after. -/
theorem Expr.alike_infer (hf : f.KeepsTypes) : ∀ expr : Expr,
    Ty.Alike expr.infer (expr.relabel f).infer
  | .int _ _ => .refl _
  | .bool _ _ => .refl _
  | .var _ ident => Ident.alike_valueTy hf ident
  | .index _ base position => (Ident.alike_ty hf base).index (Expr.alike_infer hf position)
  | .call _ callee args => (Ident.alike_ty hf callee).call (Expr.alike_inferAll hf args)
  | .unary _ op operand => op.alike_unaryTy (Expr.alike_infer hf operand)
  | .binary _ op left right =>
    op.alike_binaryTy (Expr.alike_infer hf left) (Expr.alike_infer hf right)

/-- The types of arguments, one by one. -/
theorem Expr.alike_inferAll (hf : f.KeepsTypes) : ∀ exprs : List Expr,
    List.Forall₂ Ty.Alike (Expr.inferAll exprs) (Expr.inferAll (Expr.relabelAll f exprs))
  | [] => .nil
  | expr :: rest => .cons (Expr.alike_infer hf expr) (Expr.alike_inferAll hf rest)

end

mutual

/-- An expression has a problem exactly if its relabelled form has one. -/
theorem Expr.diagnose_relabel (hf : f.KeepsTypes) : ∀ expr : Expr,
    (expr.relabel f).diagnose = [] ↔ expr.diagnose = []
  | .int _ _ => .rfl
  | .bool _ _ => .rfl
  | .var _ ident =>
    (Ident.alike_valueTy hf ident).reportAt (.cons (Ident.alike_ty hf ident) .nil) _ _
  | .index _ base position => by
    have hbase := Ident.alike_ty hf base
    have hposition := Expr.alike_infer hf position
    rw [Expr.relabel, Expr.diagnose, Expr.diagnose, List.append_eq_nil_iff, List.append_eq_nil_iff,
      Expr.diagnose_relabel hf position,
      (hbase.index hposition).reportAt (.cons hbase (.cons hposition .nil))]
  | .call _ callee args => by
    have hcallee := Ident.alike_ty hf callee
    have hargs := Expr.alike_inferAll hf args
    rw [Expr.relabel, Expr.diagnose, Expr.diagnose, List.append_eq_nil_iff, List.append_eq_nil_iff,
      Expr.diagnoseAll_relabel hf args, (hcallee.call hargs).reportAt (.cons hcallee hargs)]
  | .unary _ op operand => by
    have hoperand := Expr.alike_infer hf operand
    rw [Expr.relabel, Expr.diagnose, Expr.diagnose, List.append_eq_nil_iff, List.append_eq_nil_iff,
      Expr.diagnose_relabel hf operand, (op.alike_unaryTy hoperand).reportAt (.cons hoperand .nil)]
  | .binary _ op left right => by
    have hleft := Expr.alike_infer hf left
    have hright := Expr.alike_infer hf right
    rw [Expr.relabel, Expr.diagnose, Expr.diagnose, List.append_eq_nil_iff, List.append_eq_nil_iff,
      List.append_eq_nil_iff, List.append_eq_nil_iff, Expr.diagnose_relabel hf left,
      Expr.diagnose_relabel hf right,
      (op.alike_binaryTy hleft hright).reportAt (.cons hleft (.cons hright .nil))]

/-- So have several expressions. -/
theorem Expr.diagnoseAll_relabel (hf : f.KeepsTypes) : ∀ exprs : List Expr,
    Expr.diagnoseAll (Expr.relabelAll f exprs) = [] ↔ Expr.diagnoseAll exprs = []
  | [] => .rfl
  | expr :: rest => by
    rw [Expr.relabelAll, Expr.diagnoseAll, Expr.diagnoseAll, List.append_eq_nil_iff,
      List.append_eq_nil_iff, Expr.diagnose_relabel hf expr, Expr.diagnoseAll_relabel hf rest]

end

/-! ### Statements

Statements report what is in their expressions, and something of their own where types do not fit.
Reports are put in a row, and a row is empty exactly if each part of it is. -/

/-- An assignment has a problem exactly if its relabelled form has one. -/
theorem Assignment.diagnose_relabel (hf : f.KeepsTypes) (assignment : Assignment) :
    (assignment.relabel f).diagnose = [] ↔ assignment.diagnose = [] := by
  have hlocation := Expr.alike_infer hf assignment.location
  have hvalue := Expr.alike_infer hf assignment.value
  have hreport := (hlocation.assign hvalue).reportAt (.cons hlocation (.cons hvalue .nil))
    assignment.info.pos (f.info assignment.info).pos
  simp only [Assignment.diagnose, Assignment.relabel, Assignment.infer, List.append_eq_nil_iff,
    Expr.diagnose_relabel hf, hreport]

/-- A problem is reported under a condition, whatever is said of it. -/
theorem ite_nil_eq_nil_iff {α : Type} {p : Prop} [Decidable p] {a : α} :
    (if p then [] else [a]) = [] ↔ p := by
  split <;> simp_all

/-- So has a condition, wherever it stands. -/
theorem Expr.diagnoseCondition_relabel (hf : f.KeepsTypes) (pos pos' : Position)
    (construct : String) (cond : Expr) :
    (cond.relabel f).diagnoseCondition pos' construct = [] ↔
      cond.diagnoseCondition pos construct = [] := by
  have hcond := Expr.alike_infer hf cond
  rw [Expr.diagnoseCondition, Expr.diagnoseCondition, List.append_eq_nil_iff,
    List.append_eq_nil_iff, Expr.diagnose_relabel hf, ite_nil_eq_nil_iff, ite_nil_eq_nil_iff,
    hcond.isError_eq, hcond.equivalent_eq]

/-- So has a return, by the type of its value. What the function returns is written in the tree and
does not change. -/
theorem Ty.Alike.diagnoseReturn {a b : Ty} (h : Ty.Alike a b) (ret : Ty) (pos pos' : Position) :
    Ty.diagnoseReturn pos' ret b = [] ↔ Ty.diagnoseReturn pos ret a = [] := by
  rw [Ty.diagnoseReturn, Ty.diagnoseReturn, ite_nil_eq_nil_iff, ite_nil_eq_nil_iff, h.isError_eq,
    h.equivalent_eq]

mutual

/-- A statement has a problem exactly if its relabelled form has one, inside of a loop and outside.
-/
theorem Stmt.diagnose_relabel (hf : f.KeepsTypes) (ret : Ty) : ∀ (stmt : Stmt) (inLoop : Bool),
    (stmt.relabel f).diagnose ret inLoop = [] ↔ stmt.diagnose ret inLoop = []
  | .declare _ decl, _ => by
    simp only [Stmt.relabel, Stmt.diagnose, VarDecl.diagnoseLocal, VarDecl.relabel]
    split <;> simp
  | .assign _ assignment, _ => by
    rw [Stmt.relabel, Stmt.diagnose, Stmt.diagnose, Assignment.diagnose_relabel hf]
  | .call info callee args, _ => by
    have hcallee := Ident.alike_ty hf callee
    have hargs := Expr.alike_inferAll hf args
    rw [Stmt.relabel, Stmt.diagnose, Stmt.diagnose, List.append_eq_nil_iff, List.append_eq_nil_iff,
      Expr.diagnoseAll_relabel hf args, (hcallee.call hargs).reportAt (.cons hcallee hargs)]
  | .ifElse info cond onTrue onFalse, inLoop => by
    simp only [Stmt.relabel, Stmt.diagnose, List.append_eq_nil_iff,
      Expr.diagnoseCondition_relabel hf info.pos, Stmt.diagnoseAll_relabel hf ret onTrue.stmts,
      Stmt.diagnoseAll_relabel hf ret onFalse.stmts]
  | .loop info init cond increment body, inLoop => by
    simp only [Stmt.relabel, Stmt.diagnose, List.append_eq_nil_iff, Assignment.diagnose_relabel hf,
      Expr.diagnoseCondition_relabel hf info.pos, Stmt.diagnoseAll_relabel hf ret body.stmts]
  | .leave _, inLoop => by
    rw [Stmt.relabel, Stmt.diagnose, Stmt.diagnose, ite_nil_eq_nil_iff, ite_nil_eq_nil_iff]
  | .ret _ none, _ => (Ty.Alike.refl .void).diagnoseReturn ret _ _
  | .ret _ (some value), _ => by
    rw [Stmt.relabel, Stmt.diagnose, Stmt.diagnose, List.append_eq_nil_iff, List.append_eq_nil_iff,
      Expr.diagnose_relabel hf, (Expr.alike_infer hf value).diagnoseReturn]

/-- So has a block. -/
theorem Stmt.diagnoseAll_relabel (hf : f.KeepsTypes) (ret : Ty) :
    ∀ (stmts : List Stmt) (inLoop : Bool),
      Stmt.diagnoseAll ret inLoop (Stmt.relabelAll f stmts) = [] ↔
        Stmt.diagnoseAll ret inLoop stmts = []
  | [], _ => .rfl
  | stmt :: rest, inLoop => by
    rw [Stmt.relabelAll, Stmt.diagnoseAll, Stmt.diagnoseAll, List.append_eq_nil_iff,
      List.append_eq_nil_iff, Stmt.diagnose_relabel hf ret stmt,
      Stmt.diagnoseAll_relabel hf ret rest]

end

mutual

/-- Whether a statement returns on all paths does not depend on names at all. -/
theorem Stmt.returns_relabel (f : Relabelling) :
    ∀ stmt : Stmt, (stmt.relabel f).returns = stmt.returns
  | .ifElse _ _ onTrue onFalse => by
    rw [Stmt.relabel, Stmt.returns, Stmt.anyReturns_relabel f onTrue.stmts,
      Stmt.anyReturns_relabel f onFalse.stmts, Stmt.returns]
  | .declare _ _ => rfl
  | .assign _ _ => rfl
  | .call _ _ _ => rfl
  | .loop _ _ _ _ _ => rfl
  | .leave _ => rfl
  | .ret _ none => rfl
  | .ret _ (some _) => rfl

/-- Nor does it for a block. -/
theorem Stmt.anyReturns_relabel (f : Relabelling) : ∀ stmts : List Stmt,
    Stmt.anyReturns (Stmt.relabelAll f stmts) = Stmt.anyReturns stmts
  | [] => rfl
  | stmt :: rest => by
    rw [Stmt.relabelAll, Stmt.anyReturns, Stmt.returns_relabel f stmt,
      Stmt.anyReturns_relabel f rest, Stmt.anyReturns]

end

/-! ### Programs

A function that is called `main` has to have a certain signature. So the names of functions matter
here, and those of globals with them, since both are names of top declarations. -/

/-- A signature is at fault, or not, as long as the function keeps its name. -/
theorem FunDef.isSome_signatureFault?_relabel {definition : FunDef}
    (hname : f.name definition.ident.name = definition.ident.name) :
    (definition.relabel f).signatureFault? = definition.signatureFault? := by
  simp only [FunDef.signatureFault?, FunDef.relabel, Relabelling.ident, hname, List.isEmpty_map]

/-- A function is checked like its relabelled form, if its own name stays: one name is special. -/
theorem FunDef.diagnose_relabel (hf : f.KeepsTypes) {definition : FunDef}
    (hname : f.name definition.ident.name = definition.ident.name) :
    (definition.relabel f).diagnose = [] ↔ definition.diagnose = [] := by
  have hparams : (definition.relabel f).diagnoseParams = [] ↔ definition.diagnoseParams = [] := by
    simp only [FunDef.diagnoseParams, FunDef.relabel, List.filter_map, List.map_eq_nil_iff]
    rfl
  have hpaths : (definition.relabel f).diagnosePaths = [] ↔ definition.diagnosePaths = [] := by
    rw [FunDef.diagnosePaths, FunDef.diagnosePaths, ite_nil_eq_nil_iff, ite_nil_eq_nil_iff]
    simp only [FunDef.relabel, Stmt.anyReturns_relabel]
  have hbody := Stmt.diagnoseAll_relabel hf definition.ret definition.body.stmts false
  unfold FunDef.diagnose
  rw [FunDef.isSome_signatureFault?_relabel hname]
  split
  · simp
  · rw [List.append_eq_nil_iff, List.append_eq_nil_iff, List.append_eq_nil_iff,
      List.append_eq_nil_iff, hparams, hpaths]
    exact and_congr (and_congr Iff.rfl hbody) Iff.rfl

/-- The name that a top declaration declares. -/
def Item.name : Item → String
  | .global decl => decl.ident.name
  | .function definition => definition.ident.name

/-- A top declaration that keeps its name has a problem exactly if its relabelled form has one. -/
theorem Item.diagnose_relabel (hf : f.KeepsTypes) {item : Item}
    (hname : f.name item.name = item.name) :
    (item.relabel f).diagnose = [] ↔ item.diagnose = [] := by
  cases item with
  | global decl => exact .rfl
  | function definition => exact FunDef.diagnose_relabel hf hname

/-- A tree has a problem of types exactly when it has one after relabelling, if the names of its top
declarations stay. -/
theorem Tree.diagnose_relabel (hf : f.KeepsTypes) {tree : Tree}
    (hnames : ∀ item ∈ tree.items, f.name item.name = item.name) :
    (tree.relabel f).diagnose = [] ↔ tree.diagnose = [] := by
  simp only [Tree.diagnose, Tree.relabel, List.flatMap_eq_nil_iff, List.forall_mem_map]
  exact forall₂_congr fun item hmem => Item.diagnose_relabel hf (hnames item hmem)

end

/-! ## The types in the slots

Checking reads no type that is in a slot: it infers all of them again. So it finds in any tree what
it finds in the one with these slots empty, not only up to wording. -/

/-- Empties the slots for types. -/
def Relabelling.untyped : Relabelling where
  ty _ := none

mutual

/-- The type of an expression is inferred from its parts, and not read from a slot. -/
theorem Expr.infer_untyped : ∀ expr : Expr, (expr.relabel .untyped).infer = expr.infer
  | .int _ _ => rfl
  | .bool _ _ => rfl
  | .var _ _ => rfl
  | .index _ base position => by
    rw [Expr.relabel, Expr.infer, Expr.infer_untyped position, Expr.infer]
    rfl
  | .call _ callee args => by
    rw [Expr.relabel, Expr.infer, Expr.inferAll_untyped args, Expr.infer]
    rfl
  | .unary _ op operand => by
    rw [Expr.relabel, Expr.infer, Expr.infer_untyped operand, Expr.infer]
  | .binary _ op left right => by
    rw [Expr.relabel, Expr.infer, Expr.infer_untyped left, Expr.infer_untyped right, Expr.infer]

/-- Nor are those of several expressions. -/
theorem Expr.inferAll_untyped : ∀ exprs : List Expr,
    Expr.inferAll (Expr.relabelAll .untyped exprs) = Expr.inferAll exprs
  | [] => rfl
  | expr :: rest => by
    rw [Expr.relabelAll, Expr.inferAll, Expr.infer_untyped expr, Expr.inferAll_untyped rest,
      Expr.inferAll]

end

mutual

/-- What is reported in an expression is the same, down to the wording. -/
theorem Expr.diagnose_untyped : ∀ expr : Expr, (expr.relabel .untyped).diagnose = expr.diagnose
  | .int _ _ => rfl
  | .bool _ _ => rfl
  | .var _ _ => rfl
  | .index _ base position => by
    rw [Expr.relabel, Expr.diagnose, Expr.diagnose_untyped position,
      Expr.infer_untyped, Expr.diagnose]
    rfl
  | .call _ callee args => by
    rw [Expr.relabel, Expr.diagnose, Expr.diagnoseAll_untyped args, Expr.inferAll_untyped,
      Expr.diagnose]
    rfl
  | .unary _ op operand => by
    rw [Expr.relabel, Expr.diagnose, Expr.diagnose_untyped operand,
      Expr.infer_untyped, Expr.diagnose]
    rfl
  | .binary _ op left right => by
    rw [Expr.relabel, Expr.diagnose, Expr.diagnose_untyped left, Expr.diagnose_untyped right,
      Expr.infer_untyped, Expr.infer_untyped, Expr.diagnose]
    rfl

/-- And in several expressions. -/
theorem Expr.diagnoseAll_untyped : ∀ exprs : List Expr,
    Expr.diagnoseAll (Expr.relabelAll .untyped exprs) = Expr.diagnoseAll exprs
  | [] => rfl
  | expr :: rest => by
    rw [Expr.relabelAll, Expr.diagnoseAll, Expr.diagnose_untyped expr,
      Expr.diagnoseAll_untyped rest, Expr.diagnoseAll]

end

/-- And in an assignment. -/
theorem Assignment.diagnose_untyped (assignment : Assignment) :
    (assignment.relabel .untyped).diagnose = assignment.diagnose := by
  simp only [Assignment.diagnose, Assignment.relabel, Assignment.infer, Expr.diagnose_untyped,
    Expr.infer_untyped]
  rfl

/-- And in a condition. -/
theorem Expr.diagnoseCondition_untyped (pos : Position) (construct : String) (cond : Expr) :
    (cond.relabel .untyped).diagnoseCondition pos construct =
      cond.diagnoseCondition pos construct := by
  rw [Expr.diagnoseCondition, Expr.diagnose_untyped, Expr.infer_untyped, Expr.diagnoseCondition]

mutual

/-- And in a statement. -/
theorem Stmt.diagnose_untyped (ret : Ty) : ∀ (stmt : Stmt) (inLoop : Bool),
    (stmt.relabel .untyped).diagnose ret inLoop = stmt.diagnose ret inLoop
  | .declare _ _, _ => rfl
  | .assign _ assignment, _ => by
    rw [Stmt.relabel, Stmt.diagnose, Stmt.diagnose, Assignment.diagnose_untyped]
  | .call info callee args, _ => by
    rw [Stmt.relabel, Stmt.diagnose, Expr.diagnoseAll_untyped, Expr.inferAll_untyped, Stmt.diagnose]
    rfl
  | .ifElse _ cond onTrue onFalse, inLoop => by
    rw [Stmt.relabel, Stmt.diagnose, Expr.diagnoseCondition_untyped,
      Stmt.diagnoseAll_untyped ret onTrue.stmts, Stmt.diagnoseAll_untyped ret onFalse.stmts,
      Stmt.diagnose]
    rfl
  | .loop info init cond increment body, inLoop => by
    rw [Stmt.relabel, Stmt.diagnose, Assignment.diagnose_untyped, Assignment.diagnose_untyped,
      Expr.diagnoseCondition_untyped, Stmt.diagnoseAll_untyped ret body.stmts, Stmt.diagnose]
    rfl
  | .leave _, _ => rfl
  | .ret _ none, _ => rfl
  | .ret _ (some value), _ => by
    rw [Stmt.relabel, Stmt.diagnose, Expr.diagnose_untyped, Expr.infer_untyped, Stmt.diagnose]
    rfl

/-- And in a block. -/
theorem Stmt.diagnoseAll_untyped (ret : Ty) : ∀ (stmts : List Stmt) (inLoop : Bool),
    Stmt.diagnoseAll ret inLoop (Stmt.relabelAll .untyped stmts) = Stmt.diagnoseAll ret inLoop stmts
  | [], _ => rfl
  | stmt :: rest, inLoop => by
    rw [Stmt.relabelAll, Stmt.diagnoseAll, Stmt.diagnose_untyped ret stmt,
      Stmt.diagnoseAll_untyped ret rest, Stmt.diagnoseAll]

end

/-- And in a function. -/
theorem FunDef.diagnose_untyped (definition : FunDef) :
    (definition.relabel .untyped).diagnose = definition.diagnose := by
  have hparams : (definition.relabel .untyped).diagnoseParams = definition.diagnoseParams := by
    simp only [FunDef.diagnoseParams, FunDef.relabel, List.filter_map, List.map_map]
    rfl
  have hpaths : (definition.relabel .untyped).diagnosePaths = definition.diagnosePaths := by
    simp only [FunDef.diagnosePaths, FunDef.relabel, Stmt.anyReturns_relabel]
    rfl
  have hbody := Stmt.diagnoseAll_untyped definition.ret definition.body.stmts false
  unfold FunDef.diagnose
  rw [FunDef.isSome_signatureFault?_relabel rfl, hparams, hpaths]
  simp only [FunDef.relabel, hbody]
  rfl

/-- The problems of a tree do not depend on the types in its slots. -/
theorem Tree.diagnose_untyped (tree : Tree) : (tree.relabel .untyped).diagnose = tree.diagnose := by
  rw [Tree.diagnose, Tree.relabel, List.flatMap_map, Tree.diagnose]
  refine List.flatMap_congr fun item _ => ?_
  cases item with
  | global decl => rfl
  | function definition => exact definition.diagnose_untyped

/-! ### Types that were written -/

/-- Emptying the slots forgets what was written in them. -/
theorem Relabelling.untyped_forgetsTypes : Relabelling.untyped.ForgetsTypes :=
  fun _ _ => rfl

/-- The type of an expression does not depend on what checking wrote into it. -/
theorem Expr.infer_annotate (expr : Expr) : expr.annotate.infer = expr.infer := by
  rw [← Expr.infer_untyped, Expr.relabel_annotate Relabelling.untyped_forgetsTypes,
    Expr.infer_untyped]

/-- Writing types into a block does not change whether it returns. -/
theorem Stmt.anyReturns_annotateAll (stmts : List Stmt) :
    Stmt.anyReturns (Stmt.annotateAll stmts) = Stmt.anyReturns stmts := by
  rw [← Stmt.anyReturns_relabel .untyped,
    Stmt.relabelAll_annotateAll Relabelling.untyped_forgetsTypes, Stmt.anyReturns_relabel]

end WordLang
