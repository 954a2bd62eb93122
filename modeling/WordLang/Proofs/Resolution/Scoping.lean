import Mathlib.Data.List.Forall2
import WordLang.Proofs.Resolution.Orderly

/-!
# What resolution establishes

A tree whose resolution reported nothing has every name bound, and bound to something that is in
scope. `Scoped` says so for the resolved tree alone, without the symbol table that led there:

* the symbols of a function's own declarations have ids from `floor` on, each of them new;
* a use means one of the declarations `known` so far, or something global, with an id below `floor`;
* no symbol has a fault, and all of them have a type that is `ok`, as every declared type is.

`Holds` ties the table to this while a function is resolved. One lemma says what each step of
resolution does to it.

This is what lowering needs to know. It gives registers to declarations in the order in which it
meets them, and finds them by id; with `Scoped` it is clear at each use whether there is a register
yet. Ids stand for declarations here, so nothing is said of names and of how they hide each other:
that is what lexical scoping is about, which is another view of the same run.

The scopes of the table matter only in one way. A declaration in a block is known inside of the
block and not after it, so `known` is passed down the tree and grows from one statement to the next,
but not out of a block.
-/

namespace WordLang

/-! ## Names in scope

The property of a resolved tree, by recursion on the tree. The list `known` starts with the
parameters; a declaration puts its id in front. -/

/-- The id of the symbol that a name was bound to. -/
def Ident.id? (ident : Ident) : Option SymbolId :=
  ident.symbol.map (·.id)

/-- A symbol has no fault and a type that is `ok`. Which types are `ok` is left to whoever uses
this; all that is asked is that the declared ones are. -/
def Symbol.Fit (ok : Ty → Bool) (symbol : Symbol) : Prop :=
  symbol.fault = none ∧ ∃ ty, symbol.ty = some ty ∧ ok ty = true

/-- A name means a declaration that is known, or something global. The two exclude each other, since
what a function declares has an id from `floor` on. -/
def Ident.Uses (ok : Ty → Bool) (floor : Nat) (known : List SymbolId) (ident : Ident) : Prop :=
  ∃ symbol, ident.symbol = some symbol ∧ symbol.Fit ok ∧
    (symbol.id ∈ known ∨ symbol.id.index < floor)

/-- A name is declared, with an id that is new: not one of those known, and not one of those that
were there before the function. -/
def Ident.Declares (floor : Nat) (known : List SymbolId) (ident : Ident) : Prop :=
  ∃ symbol, ident.symbol = some symbol ∧ symbol.fault = none ∧ floor ≤ symbol.id.index ∧
    symbol.id ∉ known

mutual

/-- The names of an expression are in scope. -/
def Expr.Scoped (ok : Ty → Bool) (floor : Nat) (known : List SymbolId) : Expr → Prop
  | .int _ _ => True
  | .bool _ _ => True
  | .var _ ident => ident.Uses ok floor known
  | .index _ base position => base.Uses ok floor known ∧ position.Scoped ok floor known
  | .call _ callee args => callee.Uses ok floor known ∧ Expr.ScopedAll ok floor known args
  | .unary _ _ operand => operand.Scoped ok floor known
  | .binary _ _ left right => left.Scoped ok floor known ∧ right.Scoped ok floor known

/-- The names of several expressions are in scope. -/
def Expr.ScopedAll (ok : Ty → Bool) (floor : Nat) (known : List SymbolId) : List Expr → Prop
  | [] => True
  | expr :: rest => expr.Scoped ok floor known ∧ Expr.ScopedAll ok floor known rest

end

/-- Whether an expression can be assigned to: a variable or an array element. -/
def Expr.isPlace : Expr → Bool
  | .var _ _ => true
  | .index _ _ _ => true
  | _ => false

/-- The names of an assignment are in scope, and it assigns to a place. -/
structure Assignment.Scoped (ok : Ty → Bool) (floor : Nat) (known : List SymbolId)
    (assignment : Assignment) : Prop where
  place : assignment.location.isPlace = true
  location : assignment.location.Scoped ok floor known
  value : assignment.value.Scoped ok floor known

mutual

/-- The ids that a statement declares, the newest first. -/
def Stmt.declares : Stmt → List SymbolId
  | .declare _ decl => decl.ident.id?.toList
  | .ifElse _ _ onTrue onFalse => Stmt.declaresAll onFalse.stmts ++ Stmt.declaresAll onTrue.stmts
  | .loop _ _ _ _ body => Stmt.declaresAll body.stmts
  | _ => []

/-- The ids that statements declare, the newest first. -/
def Stmt.declaresAll : List Stmt → List SymbolId
  | [] => []
  | stmt :: rest => Stmt.declaresAll rest ++ stmt.declares

end

mutual

/-- The names of a statement are in scope, given the declarations before it. The second block of a
conditional starts with the declarations of the first one known: they cannot be meant there, but
their ids are taken. -/
def Stmt.Scoped (ok : Ty → Bool) (floor : Nat) (known : List SymbolId) : Stmt → Prop
  | .declare _ decl => decl.ident.Declares floor known
  | .assign _ assignment => assignment.Scoped ok floor known
  | .call _ callee args => callee.Uses ok floor known ∧ Expr.ScopedAll ok floor known args
  | .ifElse _ cond onTrue onFalse =>
    cond.Scoped ok floor known ∧ Stmt.ScopedAll ok floor known onTrue.stmts ∧
      Stmt.ScopedAll ok floor (Stmt.declaresAll onTrue.stmts ++ known) onFalse.stmts
  | .loop _ init cond increment body =>
    init.Scoped ok floor known ∧ cond.Scoped ok floor known ∧ increment.Scoped ok floor known ∧
      Stmt.ScopedAll ok floor known body.stmts
  | .leave _ => True
  | .ret _ none => True
  | .ret _ (some value) => value.Scoped ok floor known

/-- The names of statements are in scope, one statement after the other. -/
def Stmt.ScopedAll (ok : Ty → Bool) (floor : Nat) (known : List SymbolId) : List Stmt → Prop
  | [] => True
  | stmt :: rest =>
    stmt.Scoped ok floor known ∧ Stmt.ScopedAll ok floor (stmt.declares ++ known) rest

end

mutual

/-- What is asked of a statement before it is resolved: it assigns to places only, and the types it
declares are `ok`. -/
def Stmt.plain (ok : Ty → Bool) : Stmt → Bool
  | .declare _ decl => ok decl.declared
  | .assign _ assignment => assignment.location.isPlace
  | .ifElse _ _ onTrue onFalse => Stmt.plainAll ok onTrue.stmts && Stmt.plainAll ok onFalse.stmts
  | .loop _ init _ increment body =>
    init.location.isPlace && increment.location.isPlace && Stmt.plainAll ok body.stmts
  | _ => true

/-- What is asked of several statements before they are resolved. -/
def Stmt.plainAll (ok : Ty → Bool) : List Stmt → Bool
  | [] => true
  | stmt :: rest => stmt.plain ok && Stmt.plainAll ok rest

end

/-! ## The table while a function is resolved

Every symbol that the table can give is one that may be used. Opening and closing scopes keeps this:
a closed scope only makes the table give less. -/

/-- The symbols of the table are those that may be used. The innermost scopes belong to the function
at hand, and everything in them is known. -/
structure SymbolTable.Holds (ok : Ty → Bool) (floor : Nat) (known : List SymbolId)
    (table : SymbolTable) : Prop where
  globals : ∀ entry ∈ table.globals, entry.2.Fit ok ∧ entry.2.id.index < floor
  inner : ∀ scope ∈ table.inner, ∀ entry ∈ scope, entry.2.Fit ok ∧ entry.2.id ∈ known
  known_lt : ∀ id ∈ known, id.index < table.nextId
  floor_le : floor ≤ table.nextId

namespace SymbolTable

variable {ok : Ty → Bool} {floor : Nat} {known : List SymbolId} {table : SymbolTable}

/-- What is found may be used. It is in an inner scope and known, or it is global. -/
theorem Holds.found (h : table.Holds ok floor known) {name : String} {symbol : Symbol}
    (hfind : table.find? name = some symbol) :
    symbol.Fit ok ∧ (symbol.id ∈ known ∨ symbol.id.index < floor) := by
  obtain ⟨scope, hscope, hlookup⟩ := List.exists_of_findSome?_eq_some hfind
  have hmem : (name, symbol) ∈ scope := by
    obtain ⟨before, after, heq, -⟩ := List.lookup_eq_some_iff.mp hlookup
    rw [heq]
    exact List.mem_append_right _ List.mem_cons_self
  rcases List.mem_append.mp hscope with hinner | hglobal
  · have hentry := h.inner scope hinner _ hmem
    exact ⟨hentry.1, .inl hentry.2⟩
  · obtain rfl := List.mem_singleton.mp hglobal
    have hentry := h.globals _ hmem
    exact ⟨hentry.1, .inr hentry.2⟩

/-- A new scope holds nothing. -/
theorem Holds.enter (h : table.Holds ok floor known) : table.enter.Holds ok floor known where
  globals := h.globals
  inner scope hscope := by
    rcases List.mem_cons.mp hscope with rfl | hmem
    · exact fun _ hentry => absurd hentry List.not_mem_nil
    · exact h.inner scope hmem
  known_lt := h.known_lt
  floor_le := h.floor_le

/-- What is left after closing a scope was there before. -/
theorem Holds.leave (h : table.Holds ok floor known) : table.leave.Holds ok floor known where
  globals := h.globals
  inner scope hscope := h.inner scope (List.mem_of_mem_tail hscope)
  known_lt := h.known_lt
  floor_le := h.floor_le

/-- A declaration inside a function. Its id is the next one, hence none of those known, and not
below `floor`. -/
theorem Holds.bind (h : table.Holds ok floor known) (hinner : table.inner ≠ []) {name : String}
    {ty : Ty} (hok : ok ty = true) :
    (table.skipId.bind (.declared table.nextId name ty)).Holds ok floor
      (⟨table.nextId⟩ :: known) := by
  obtain ⟨scope, rest, hscopes⟩ := List.exists_cons_of_ne_nil hinner
  have hbind : table.skipId.bind (.declared table.nextId name ty) =
      { table.skipId with
        inner := ((name, .declared table.nextId name ty) :: scope) :: rest } := by
    rw [SymbolTable.bind, show table.skipId.inner = scope :: rest from hscopes]
    rfl
  rw [hbind]
  have hkept : ∀ scope' ∈ scope :: rest, ∀ entry ∈ scope',
      entry.2.Fit ok ∧ entry.2.id ∈ (⟨table.nextId⟩ : SymbolId) :: known := by
    intro scope' hmem entry hentry
    obtain ⟨hfit, hid⟩ := h.inner scope' (hscopes ▸ hmem) entry hentry
    exact ⟨hfit, List.mem_cons_of_mem _ hid⟩
  refine ⟨h.globals, fun scope' hscope' => ?_, fun id hid => ?_, Nat.le_succ_of_le h.floor_le⟩
  · rcases List.mem_cons.mp hscope' with rfl | hmem
    · intro entry hentry
      rcases List.mem_cons.mp hentry with rfl | hentry
      · exact ⟨⟨rfl, ty, rfl, hok⟩, List.mem_cons_self⟩
      · exact hkept scope List.mem_cons_self entry hentry
    · exact hkept scope' (List.mem_cons_of_mem _ hmem)
  · rcases List.mem_cons.mp hid with rfl | hmem
    · exact Nat.lt_succ_self _
    · exact Nat.lt_succ_of_lt (h.known_lt id hmem)

end SymbolTable

/-! ## Resolved trees are scoped

One lemma for each kind of node. Resolving an expression without a problem leaves the table as it
was, since uses that succeed make no symbols; resolving a statement leaves what it declares. -/

section

open Resolve

variable {ok : Ty → Bool} {floor : Nat}

/-- A use without a problem means something in scope, and leaves the table as it was. A use with a
problem would have made a symbol. -/
theorem Ident.uses_of_resolve {known : List SymbolId} {ident ident' : Ident}
    {table table' : SymbolTable} (hholds : table.Holds ok floor known)
    (h : ident.resolve table = (ident', table')) (hquiet : table'.errors = []) :
    ident'.Uses ok floor known ∧ table' = table := by
  obtain ⟨symbol, hfind, rfl, rfl⟩ := Ident.found_of_quiet h hquiet
  obtain ⟨hfit, hscope⟩ := hholds.found hfind
  exact ⟨⟨symbol, rfl, hfit, hscope⟩, rfl⟩

mutual

/-- So do the names of an expression. That nothing was reported in the end says that nothing was
reported on the way, because problems are never taken back. -/
theorem Expr.scoped_of_resolve : ∀ (expr : Expr) {known : List SymbolId} {expr' : Expr}
    {table table' : SymbolTable}, table.Holds ok floor known →
    expr.resolve table = (expr', table') → table'.errors = [] →
    expr'.Scoped ok floor known ∧ table' = table
  | .int _ _, _, _, _, _, _, h, _ => by
    cases h
    exact ⟨trivial, rfl⟩
  | .bool _ _, _, _, _, _, _, h, _ => by
    cases h
    exact ⟨trivial, rfl⟩
  | .var _ ident, _, _, _, _, hholds, h, hquiet => by
    obtain ⟨ident', mid, rident, hdone⟩ := bind_eq.mp h
    cases hdone
    exact Ident.uses_of_resolve hholds rident hquiet
  | .index _ base position, _, _, _, _, hholds, h, hquiet => by
    obtain ⟨base', mid, rbase, h⟩ := bind_eq.mp h
    obtain ⟨position', last, rposition, hdone⟩ := bind_eq.mp h
    cases hdone
    have hmid := position.orderly_resolve.quiet rposition hquiet
    obtain ⟨hbase, rfl⟩ := Ident.uses_of_resolve hholds rbase hmid
    obtain ⟨hposition, rfl⟩ := Expr.scoped_of_resolve position hholds rposition hquiet
    exact ⟨⟨hbase, hposition⟩, rfl⟩
  | .call _ callee args, _, _, _, _, hholds, h, hquiet => by
    obtain ⟨callee', mid, rcallee, h⟩ := bind_eq.mp h
    obtain ⟨args', last, rargs, hdone⟩ := bind_eq.mp h
    cases hdone
    have hmid := (Expr.orderly_resolveAll args).quiet rargs hquiet
    obtain ⟨hcallee, rfl⟩ := Ident.uses_of_resolve hholds rcallee hmid
    obtain ⟨hargs, rfl⟩ := Expr.scopedAll_of_resolveAll args hholds rargs hquiet
    exact ⟨⟨hcallee, hargs⟩, rfl⟩
  | .unary _ _ operand, _, _, _, _, hholds, h, hquiet => by
    obtain ⟨operand', mid, roperand, hdone⟩ := bind_eq.mp h
    cases hdone
    obtain ⟨hoperand, rfl⟩ := Expr.scoped_of_resolve operand hholds roperand hquiet
    exact ⟨hoperand, rfl⟩
  | .binary _ _ left right, _, _, _, _, hholds, h, hquiet => by
    obtain ⟨left', mid, rleft, h⟩ := bind_eq.mp h
    obtain ⟨right', last, rright, hdone⟩ := bind_eq.mp h
    cases hdone
    have hmid := right.orderly_resolve.quiet rright hquiet
    obtain ⟨hleft, rfl⟩ := Expr.scoped_of_resolve left hholds rleft hmid
    obtain ⟨hright, rfl⟩ := Expr.scoped_of_resolve right hholds rright hquiet
    exact ⟨⟨hleft, hright⟩, rfl⟩

/-- So do those of several expressions. -/
theorem Expr.scopedAll_of_resolveAll : ∀ (exprs : List Expr) {known : List SymbolId}
    {exprs' : List Expr} {table table' : SymbolTable}, table.Holds ok floor known →
    Expr.resolveAll exprs table = (exprs', table') → table'.errors = [] →
    Expr.ScopedAll ok floor known exprs' ∧ table' = table
  | [], _, _, _, _, _, h, _ => by
    cases h
    exact ⟨trivial, rfl⟩
  | expr :: rest, _, _, _, _, hholds, h, hquiet => by
    obtain ⟨expr', mid, rexpr, h⟩ := bind_eq.mp h
    obtain ⟨rest', last, rrest, hdone⟩ := bind_eq.mp h
    cases hdone
    have hmid := (Expr.orderly_resolveAll rest).quiet rrest hquiet
    obtain ⟨hexpr, rfl⟩ := Expr.scoped_of_resolve expr hholds rexpr hmid
    obtain ⟨hrest, rfl⟩ := Expr.scopedAll_of_resolveAll rest hholds rrest hquiet
    exact ⟨⟨hexpr, hrest⟩, rfl⟩

end

/-- Resolution leaves the shape of an expression alone. -/
theorem Expr.isPlace_of_resolve {expr expr' : Expr} {table table' : SymbolTable}
    (h : expr.resolve table = (expr', table')) : expr'.isPlace = expr.isPlace := by
  cases expr with
  | int info value | bool info value =>
    cases h
    rfl
  | var info ident | unary info op operand =>
    obtain ⟨_, _, _, hdone⟩ := bind_eq.mp h
    cases hdone
    rfl
  | index info base position | call info callee args | binary info op left right =>
    obtain ⟨_, _, _, h⟩ := bind_eq.mp h
    obtain ⟨_, _, _, hdone⟩ := bind_eq.mp h
    cases hdone
    rfl

/-- So do those of an assignment. It assigns to what it assigned to before it was resolved. -/
theorem Assignment.scoped_of_resolve {known : List SymbolId} {assignment assignment' : Assignment}
    {table table' : SymbolTable} (hholds : table.Holds ok floor known)
    (hplace : assignment.location.isPlace = true)
    (h : assignment.resolve table = (assignment', table')) (hquiet : table'.errors = []) :
    assignment'.Scoped ok floor known ∧ table' = table := by
  obtain ⟨location, mid, rlocation, h⟩ := bind_eq.mp h
  obtain ⟨value, last, rvalue, hdone⟩ := bind_eq.mp h
  cases hdone
  have hmid := assignment.value.orderly_resolve.quiet rvalue hquiet
  obtain ⟨hscoped, rfl⟩ := assignment.location.scoped_of_resolve hholds rlocation hmid
  obtain ⟨hvalue, rfl⟩ := assignment.value.scoped_of_resolve hholds rvalue hquiet
  exact ⟨⟨(Expr.isPlace_of_resolve rlocation).trans hplace, hscoped, hvalue⟩, rfl⟩

/-- A declaration without a problem has a new id, and may be used from here on. -/
theorem Ident.declares_of_declare {known : List SymbolId} {ident ident' : Ident} {ty : Ty}
    {table table' : SymbolTable} (hholds : table.Holds ok floor known) (hinner : table.inner ≠ [])
    (hok : ok ty = true) (h : ident.declare ty table = (ident', table'))
    (hquiet : table'.errors = []) :
    ident'.Declares floor known ∧ table'.Holds ok floor (ident'.id?.toList ++ known) := by
  obtain ⟨rfl, rfl⟩ := Ident.declared_of_quiet h hquiet
  refine ⟨⟨_, rfl, rfl, hholds.floor_le, fun hmem => ?_⟩, hholds.bind hinner hok⟩
  exact Nat.lt_irrefl _ (hholds.known_lt _ hmem)

/-- A block is resolved in a scope of its own. -/
theorem SymbolTable.inner_ne_nil_enter (table : SymbolTable) : table.enter.inner ≠ [] :=
  List.cons_ne_nil _ _

mutual

/-- The names of a statement are in scope, and what it declares may be used after it. Declarations
of a block cannot be found any more once it is closed, but stay known, so that no later id is one of
theirs. -/
theorem Stmt.scoped_of_resolve : ∀ (stmt : Stmt) {known : List SymbolId} {stmt' : Stmt}
    {table table' : SymbolTable}, table.Holds ok floor known → table.inner ≠ [] →
    stmt.plain ok = true → stmt.resolve table = (stmt', table') → table'.errors = [] →
    stmt'.Scoped ok floor known ∧ table'.Holds ok floor (stmt'.declares ++ known)
  | .declare _ decl, _, _, _, _, hholds, hinner, hplain, h, hquiet => by
    obtain ⟨decl', mid, rdecl, hdone⟩ := bind_eq.mp h
    cases hdone
    obtain ⟨ident, mid, rident, hdone⟩ := bind_eq.mp rdecl
    cases hdone
    exact Ident.declares_of_declare hholds hinner hplain rident hquiet
  | .assign _ assignment, _, _, _, _, hholds, _, hplain, h, hquiet => by
    obtain ⟨assignment', mid, rassignment, hdone⟩ := bind_eq.mp h
    cases hdone
    obtain ⟨hscoped, rfl⟩ := Assignment.scoped_of_resolve hholds hplain rassignment hquiet
    exact ⟨hscoped, hholds⟩
  | .call _ callee args, _, _, _, _, hholds, _, _, h, hquiet => by
    obtain ⟨callee', mid, rcallee, h⟩ := bind_eq.mp h
    obtain ⟨args', last, rargs, hdone⟩ := bind_eq.mp h
    cases hdone
    have hmid := (Expr.orderly_resolveAll args).quiet rargs hquiet
    obtain ⟨hcallee, rfl⟩ := Ident.uses_of_resolve hholds rcallee hmid
    obtain ⟨hargs, rfl⟩ := Expr.scopedAll_of_resolveAll args hholds rargs hquiet
    exact ⟨⟨hcallee, hargs⟩, hholds⟩
  | .ifElse _ cond onTrue onFalse, _, _, _, _, hholds, _, hplain, h, hquiet => by
    obtain ⟨cond', mid, rcond, h⟩ := bind_eq.mp h
    obtain ⟨onTrue', mid₁, rtrue, h⟩ := bind_eq.mp h
    obtain ⟨onFalse', mid₂, rfalse, hdone⟩ := bind_eq.mp h
    cases hdone
    -- no pass takes an error back, so each table on the way is as quiet as the last one
    have hquiet₁ := (Stmt.orderly_resolveAll onFalse.stmts).withScope.quiet rfalse hquiet
    have hquiet₀ := (Stmt.orderly_resolveAll onTrue.stmts).withScope.quiet rtrue hquiet₁
    obtain ⟨hplainTrue, hplainFalse⟩ := Bool.and_eq_true_iff.mp hplain
    obtain ⟨hcond, rfl⟩ := cond.scoped_of_resolve hholds rcond hquiet₀
    obtain ⟨last₁, rtrue', rfl⟩ := withScope_eq.mp rtrue
    obtain ⟨htrue, hholds₁⟩ := Stmt.scopedAll_of_resolveAll onTrue.stmts hholds.enter
      (SymbolTable.inner_ne_nil_enter _) hplainTrue rtrue' hquiet₁
    obtain ⟨last₂, rfalse', rfl⟩ := withScope_eq.mp rfalse
    obtain ⟨hfalse, hholds₂⟩ := Stmt.scopedAll_of_resolveAll onFalse.stmts hholds₁.leave.enter
      (SymbolTable.inner_ne_nil_enter _) hplainFalse rfalse' hquiet
    refine ⟨⟨hcond, htrue, hfalse⟩, ?_⟩
    rw [Stmt.declares, List.append_assoc]
    exact hholds₂.leave
  | .loop _ init cond increment body, _, _, _, _, hholds, _, hplain, h, hquiet => by
    obtain ⟨init', mid₁, rinit, h⟩ := bind_eq.mp h
    obtain ⟨cond', mid₂, rcond, h⟩ := bind_eq.mp h
    obtain ⟨increment', mid₃, rincrement, h⟩ := bind_eq.mp h
    obtain ⟨body', mid₄, rbody, hdone⟩ := bind_eq.mp h
    cases hdone
    have hquiet₃ := (Stmt.orderly_resolveAll body.stmts).withScope.quiet rbody hquiet
    have hquiet₂ := increment.orderly_resolve.quiet rincrement hquiet₃
    have hquiet₁ := cond.orderly_resolve.quiet rcond hquiet₂
    obtain ⟨hplaces, hplainBody⟩ := Bool.and_eq_true_iff.mp hplain
    obtain ⟨hplaceInit, hplaceStep⟩ := Bool.and_eq_true_iff.mp hplaces
    obtain ⟨hinit, rfl⟩ := Assignment.scoped_of_resolve hholds hplaceInit rinit hquiet₁
    obtain ⟨hcond, rfl⟩ := cond.scoped_of_resolve hholds rcond hquiet₂
    obtain ⟨hincrement, rfl⟩ :=
      Assignment.scoped_of_resolve hholds hplaceStep rincrement hquiet₃
    obtain ⟨last, rbody', rfl⟩ := withScope_eq.mp rbody
    obtain ⟨hbody, hholds'⟩ := Stmt.scopedAll_of_resolveAll body.stmts hholds.enter
      (SymbolTable.inner_ne_nil_enter _) hplainBody rbody' hquiet
    exact ⟨⟨hinit, hcond, hincrement, hbody⟩, hholds'.leave⟩
  | .leave _, _, _, _, _, hholds, _, _, h, _ => by
    cases h
    exact ⟨trivial, hholds⟩
  | .ret _ none, _, _, _, _, hholds, _, _, h, _ => by
    cases h
    exact ⟨trivial, hholds⟩
  | .ret _ (some value), _, _, _, _, hholds, _, _, h, hquiet => by
    obtain ⟨value', mid, rvalue, hdone⟩ := bind_eq.mp h
    cases hdone
    obtain ⟨hvalue, rfl⟩ := value.scoped_of_resolve hholds rvalue hquiet
    exact ⟨hvalue, hholds⟩

/-- So it is for several statements, each with what those before it declared. -/
theorem Stmt.scopedAll_of_resolveAll : ∀ (stmts : List Stmt) {known : List SymbolId}
    {stmts' : List Stmt} {table table' : SymbolTable}, table.Holds ok floor known →
    table.inner ≠ [] → Stmt.plainAll ok stmts = true →
    Stmt.resolveAll stmts table = (stmts', table') → table'.errors = [] →
    Stmt.ScopedAll ok floor known stmts' ∧ table'.Holds ok floor (Stmt.declaresAll stmts' ++ known)
  | [], _, _, _, _, hholds, _, _, h, _ => by
    cases h
    exact ⟨trivial, hholds⟩
  | stmt :: rest, _, _, table, _, hholds, hinner, hplain, h, hquiet => by
    obtain ⟨stmt', mid, rstmt, h⟩ := bind_eq.mp h
    obtain ⟨rest', last, rrest, hdone⟩ := bind_eq.mp h
    cases hdone
    have hmid := (Stmt.orderly_resolveAll rest).quiet rrest hquiet
    obtain ⟨hplainStmt, hplainRest⟩ := Bool.and_eq_true_iff.mp hplain
    have hdepth := stmt.orderly_resolve.depth rstmt
    have hinner' : mid.inner ≠ [] := by
      intro hnil
      rw [hnil] at hdepth
      exact hinner (List.eq_nil_of_length_eq_zero hdepth.symm)
    obtain ⟨hstmt, hholds'⟩ := Stmt.scoped_of_resolve stmt hholds hinner hplainStmt rstmt hmid
    obtain ⟨hrest, hholds''⟩ :=
      Stmt.scopedAll_of_resolveAll rest hholds' hinner' hplainRest rrest hquiet
    refine ⟨⟨hstmt, hrest⟩, ?_⟩
    rw [Stmt.declaresAll, List.append_assoc]
    exact hholds''

end

/-! ## Functions and programs

A function starts with nothing known but what is global. Its parameters come first, in the scope of
its body. Whatever it declares has an id from the first one on that was free when it began. -/

/-- The ids of parameters, the newest first. -/
def Param.declaresAll : List Param → List SymbolId
  | [] => []
  | param :: rest => Param.declaresAll rest ++ param.ident.id?.toList

/-- Parameters are declared one after the other. -/
def Param.ScopedAll (floor : Nat) (known : List SymbolId) : List Param → Prop
  | [] => True
  | param :: rest =>
    param.ident.Declares floor known ∧ Param.ScopedAll floor (param.ident.id?.toList ++ known) rest

/-- A function is bound, and so are the names in it. Its ids start from some `floor`, which is the
first one that was free when its parameters were declared. -/
structure FunDef.Scoped (ok : Ty → Bool) (definition : FunDef) : Prop where
  bound : ∃ symbol, definition.ident.symbol = some symbol ∧ symbol.fault = none
  body : ∃ floor, Param.ScopedAll floor [] definition.params ∧
    Stmt.ScopedAll ok floor (Param.declaresAll definition.params) definition.body.stmts

/-- A global is bound; a function is bound with everything in it. -/
def Item.Scoped (ok : Ty → Bool) : Item → Prop
  | .global decl => ∃ symbol, decl.ident.symbol = some symbol ∧ symbol.fault = none
  | .function definition => definition.Scoped ok

/-- What is asked of a function before it is resolved. -/
def FunDef.plain (ok : Ty → Bool) (definition : FunDef) : Bool :=
  ok definition.ty && definition.params.all (fun param => ok param.declared) &&
    Stmt.plainAll ok definition.body.stmts

/-- What is asked of a top declaration before it is resolved. -/
def Item.plain (ok : Ty → Bool) : Item → Bool
  | .global decl => ok decl.declared
  | .function definition => definition.plain ok

/-- What is asked of a tree before it is resolved: it assigns to places only, and the types it
declares are `ok`. -/
def Tree.plain (ok : Ty → Bool) (tree : Tree) : Bool :=
  tree.items.all (Item.plain ok)

/-- Resolving a parameter is a declaration. -/
theorem Param.orderly_resolve (param : Param) : Resolve.Orderly param.resolve :=
  (param.ident.orderly_declare param.declared).bind fun _ => .pure _

/-- Resolving parameters is a row of declarations. -/
theorem Param.orderly_resolveAll (params : List Param) :
    Resolve.Orderly (params.mapM Param.resolve) := by
  induction params with
  | nil => exact .pure _
  | cons param rest ih =>
    rw [List.mapM_cons]
    exact param.orderly_resolve.bind fun _ => ih.bind fun _ => .pure _

/-- Parameters are declared one after the other, and may be used in the body. -/
theorem Param.scopedAll_of_resolveAll (params : List Param) {known : List SymbolId}
    {params' : List Param} {table table' : SymbolTable} (hholds : table.Holds ok floor known)
    (hinner : table.inner ≠ []) (hplain : params.all (fun param => ok param.declared) = true)
    (h : params.mapM Param.resolve table = (params', table')) (hquiet : table'.errors = []) :
    Param.ScopedAll floor known params' ∧
      table'.Holds ok floor (Param.declaresAll params' ++ known) := by
  induction params generalizing known params' table with
  | nil =>
    cases h
    exact ⟨trivial, hholds⟩
  | cons param rest ih =>
    rw [List.mapM_cons] at h
    obtain ⟨param', mid, rparam, h⟩ := bind_eq.mp h
    obtain ⟨rest', last, rrest, hdone⟩ := bind_eq.mp h
    cases hdone
    have hmid := (Param.orderly_resolveAll rest).quiet rrest hquiet
    have hdepth := param.orderly_resolve.depth rparam
    obtain ⟨ident, _, rident, hdone⟩ := bind_eq.mp rparam
    cases hdone
    rw [List.all_cons, Bool.and_eq_true] at hplain
    obtain ⟨hparam, hholds'⟩ :=
      Ident.declares_of_declare hholds hinner hplain.1 rident hmid
    have hinner' : mid.inner ≠ [] := by
      intro hnil
      rw [hnil] at hdepth
      exact hinner (List.eq_nil_of_length_eq_zero hdepth.symm)
    obtain ⟨hrest, hholds''⟩ := ih hholds' hinner' hplain.2 rrest
    refine ⟨⟨hparam, hrest⟩, ?_⟩
    rw [Param.declaresAll, List.append_assoc]
    exact hholds''

/-- Between the top declarations only the global scope is open, and every id that was given is below
the next one, so a function may start from there. -/
structure SymbolTable.Top (ok : Ty → Bool) (table : SymbolTable) : Prop where
  holds : table.Holds ok table.nextId []
  inner : table.inner = []

/-- A declaration at the top. -/
theorem SymbolTable.Top.bind {table : SymbolTable} (h : table.Top ok) (name : String) {ty : Ty}
    (hok : ok ty = true) : (table.skipId.bind (.declared table.nextId name ty)).Top ok := by
  obtain ⟨globals, inner, nextId, errors⟩ := table
  obtain ⟨hholds, hinner⟩ := h
  obtain rfl : inner = [] := hinner
  refine ⟨⟨fun entry hentry => ?_, ?_, ?_, Nat.le_refl _⟩, rfl⟩
  · rcases List.mem_cons.mp hentry with rfl | hmem
    · exact ⟨⟨rfl, ty, rfl, hok⟩, Nat.lt_succ_self _⟩
    · obtain ⟨hfit, hlt⟩ := hholds.globals entry hmem
      exact ⟨hfit, Nat.lt_succ_of_lt hlt⟩
  · exact fun scope hscope => absurd hscope List.not_mem_nil
  · exact fun id hid => absurd hid List.not_mem_nil

/-- A function without problems is scoped, and after it only global names can be used again. -/
theorem FunDef.scoped_of_resolve {definition definition' : FunDef} {table table' : SymbolTable}
    (htop : table.Top ok) (hplain : definition.plain ok = true)
    (h : definition.resolve table = (definition', table')) (hquiet : table'.errors = []) :
    definition'.Scoped ok ∧ table'.Top ok := by
  obtain ⟨ident, mid, rident, h⟩ := bind_eq.mp h
  obtain ⟨last, hscope, rfl⟩ := withScope_eq.mp h
  obtain ⟨params, mid₁, rparams, hscope⟩ := bind_eq.mp hscope
  obtain ⟨stmts, mid₂, rstmts, hdone⟩ := bind_eq.mp hscope
  obtain ⟨rfl, rfl⟩ := Prod.mk.inj (pure_eq.mp hdone)
  have hquiet₁ := (Stmt.orderly_resolveAll definition.body.stmts).quiet rstmts hquiet
  have hquiet₀ := (Param.orderly_resolveAll definition.params).quiet rparams hquiet₁
  simp only [FunDef.plain, Bool.and_eq_true] at hplain
  obtain ⟨⟨hty, hparams⟩, hstmts⟩ := hplain
  obtain ⟨rfl, rfl⟩ := Ident.declared_of_quiet rident hquiet₀
  have htop' := htop.bind definition.ident.name hty
  have hdepth := (Param.orderly_resolveAll definition.params).depth rparams
  have hdepth' := (Stmt.orderly_resolveAll definition.body.stmts).depth rstmts
  rw [SymbolTable.enter, htop'.inner, List.length_singleton] at hdepth
  obtain ⟨hparams, hholds⟩ := Param.scopedAll_of_resolveAll definition.params htop'.holds.enter
    (SymbolTable.inner_ne_nil_enter _) hparams rparams hquiet₁
  rw [List.append_nil] at hholds
  have hinner : mid₁.inner ≠ [] := by
    intro hnil
    rw [hnil] at hdepth
    cases hdepth
  obtain ⟨hstmts, hholds'⟩ := Stmt.scopedAll_of_resolveAll definition.body.stmts hholds hinner
    hstmts rstmts hquiet
  have hclosed : last.leave.inner = [] := by
    rw [SymbolTable.leave, ← List.length_eq_zero_iff, List.length_tail, hdepth', hdepth]
  refine ⟨⟨⟨_, rfl, rfl⟩, _, hparams, hstmts⟩, ⟨?_, ?_, ?_, Nat.le_refl _⟩, hclosed⟩
  · intro entry hentry
    obtain ⟨hfit, hlt⟩ := hholds'.globals entry hentry
    exact ⟨hfit, Nat.lt_of_lt_of_le hlt hholds'.floor_le⟩
  · intro scope hscope
    rw [hclosed] at hscope
    cases hscope
  · exact fun id hid => absurd hid List.not_mem_nil

/-- Resolution changes the names of a global declaration and nothing else of it. -/
def Item.SameGlobal : Item → Item → Prop
  | .global decl, .global decl' => decl'.declared = decl.declared
  | .function _, .function _ => True
  | _, _ => False

/-- So is a top declaration. A global keeps the type that it is declared with. -/
theorem Item.scoped_of_resolve {item item' : Item} {table table' : SymbolTable}
    (htop : table.Top ok) (hplain : item.plain ok = true)
    (h : item.resolve table = (item', table')) (hquiet : table'.errors = []) :
    item'.Scoped ok ∧ table'.Top ok ∧ item.SameGlobal item' := by
  cases item with
  | global decl =>
    obtain ⟨decl', mid, rdecl, hdone⟩ := bind_eq.mp h
    obtain ⟨rfl, rfl⟩ := Prod.mk.inj (pure_eq.mp hdone)
    obtain ⟨ident, mid, rident, hdone⟩ := bind_eq.mp rdecl
    obtain ⟨rfl, rfl⟩ := Prod.mk.inj (pure_eq.mp hdone)
    obtain ⟨rfl, rfl⟩ := Ident.declared_of_quiet rident hquiet
    exact ⟨⟨_, rfl, rfl⟩, htop.bind decl.ident.name hplain, rfl⟩
  | function definition =>
    obtain ⟨definition', mid, rdefinition, hdone⟩ := bind_eq.mp h
    obtain ⟨rfl, rfl⟩ := Prod.mk.inj (pure_eq.mp hdone)
    obtain ⟨hscoped, htop'⟩ := FunDef.scoped_of_resolve htop hplain rdefinition hquiet
    exact ⟨hscoped, htop', trivial⟩

/-- Resolving a top declaration is a step like others. -/
theorem Item.orderly_resolve (item : Item) : Resolve.Orderly item.resolve := by
  cases item with
  | global decl => exact decl.orderly_resolve.bind fun _ => .pure _
  | function definition =>
    refine Orderly.bind ?_ fun _ => .pure _
    exact (definition.ident.orderly_declare definition.ty).bind fun _ =>
      ((Param.orderly_resolveAll definition.params).bind fun _ =>
        (Stmt.orderly_resolveAll definition.body.stmts).bind fun _ => .pure _).withScope

/-- So is resolving all of them. -/
theorem Item.orderly_resolveAll (items : List Item) :
    Resolve.Orderly (items.mapM Item.resolve) := by
  induction items with
  | nil => exact .pure _
  | cons item rest ih =>
    rw [List.mapM_cons]
    exact item.orderly_resolve.bind fun _ => ih.bind fun _ => .pure _

/-- All items of a tree without problems are scoped. -/
theorem Item.scopedAll_of_resolveAll (items : List Item) {items' : List Item}
    {table table' : SymbolTable} (htop : table.Top ok)
    (hplain : items.all (Item.plain ok) = true)
    (h : items.mapM Item.resolve table = (items', table')) (hquiet : table'.errors = []) :
    (∀ item ∈ items', item.Scoped ok) ∧ List.Forall₂ Item.SameGlobal items items' := by
  induction items generalizing items' table with
  | nil =>
    cases h
    exact ⟨fun _ hmem => absurd hmem List.not_mem_nil, .nil⟩
  | cons item rest ih =>
    rw [List.mapM_cons] at h
    obtain ⟨item', mid, ritem, h⟩ := bind_eq.mp h
    obtain ⟨rest', last, rrest, hdone⟩ := bind_eq.mp h
    obtain ⟨rfl, rfl⟩ := Prod.mk.inj (pure_eq.mp hdone)
    have hmid := (Item.orderly_resolveAll rest).quiet rrest hquiet
    rw [List.all_cons, Bool.and_eq_true] at hplain
    obtain ⟨hitem, htop', hsame⟩ := Item.scoped_of_resolve htop hplain.1 ritem hmid
    obtain ⟨hrest, hsames⟩ := ih htop' hplain.2 rrest
    exact ⟨List.forall_mem_cons.mpr ⟨hitem, hrest⟩, .cons hsame hsames⟩

/-- The run-time functions have the first ids. -/
theorem SymbolTable.mem_declareAll {names : List (String × Ty)} {index : Nat} {scope : Scope}
    {entry : String × Symbol} (h : entry ∈ SymbolTable.declareAll index names scope) :
    entry ∈ scope ∨ ∃ name ∈ names, ∃ id < index + names.length,
      entry.2 = .declared id name.1 name.2 := by
  induction names generalizing index scope with
  | nil => exact .inl h
  | cons name rest ih =>
    rcases ih h with hmem | ⟨other, hother, id, hlt, heq⟩
    · rcases List.mem_cons.mp hmem with rfl | hmem
      · exact .inr ⟨name, List.mem_cons_self, index, by simp, rfl⟩
      · exact .inl hmem
    · refine .inr ⟨other, List.mem_cons_of_mem _ hother, id, ?_, heq⟩
      rw [List.length_cons]
      omega

/-- A new table has the run-time functions, and nothing else is open. -/
theorem SymbolTable.top_new (nextId : Nat)
    (hok : ∀ entry ∈ builtins, ok entry.2 = true) : (SymbolTable.new nextId).Top ok := by
  refine ⟨⟨?_, ?_, ?_, Nat.le_refl _⟩, rfl⟩
  · intro entry hentry
    rcases SymbolTable.mem_declareAll hentry with hmem | ⟨name, hname, id, hlt, heq⟩
    · cases hmem
    · rw [heq]
      exact ⟨⟨rfl, name.2, rfl, hok name hname⟩, hlt⟩
  · exact fun scope hscope => absurd hscope List.not_mem_nil
  · exact fun id hid => absurd hid List.not_mem_nil

/-- A tree whose names could all be resolved: every name is bound to something in scope. -/
theorem Tree.scoped_of_resolve {tree : Tree} {nextId : Nat}
    (hok : ∀ entry ∈ builtins, ok entry.2 = true) (hplain : tree.items.all (Item.plain ok) = true)
    (hquiet : (tree.resolve nextId).2.errors = []) :
    (∀ item ∈ (tree.resolve nextId).1.items, item.Scoped ok) ∧
      List.Forall₂ Item.SameGlobal tree.items (tree.resolve nextId).1.items :=
  Item.scopedAll_of_resolveAll tree.items (SymbolTable.top_new nextId hok) hplain rfl hquiet

end

end WordLang
