import WordLang.Proofs.Asm.Names
import WordLang.Proofs.Lowering.Faults
import WordLang.Proofs.Lowering.Places
import WordLang.Proofs.Resolution.Declarations

/-!
# What the names of an assembled program stand for

A call in the assembly names its callee, and an address its variable; the linker finds what has that
name. That is what the source meant if every callee is a function, and every address that of a
global, for these are global and no two of them have the same name.

Nothing in the checks says so. A variable can have the type of a function: it can be called, and
then its name stands where a function's should. And the name of a function can be used as a value,
whose address is then taken as if the function were a variable. Where no variable has the type of a
function and no function returns one (`Tree.dataOnly`), neither can happen. Even where they happen,
an address is never that of a parameter or of a local.

So there are two statements. One is true of every tree without problems and says what may be
referred to (`Tree.references_of_clean`); its last part is about trees in which functions are not
passed around. The other is a tree in which they are, and whose program refers to what it should not
(`Tree.not_forall_linked`).

The way from references to the tree has three steps:

* a reference of the program is a reference of the tree: lowering refers to nothing else, and in the
  order of lowering;
* a reference of the tree comes from an occurrence, and how the name is used there shows in its type
  (`Explained`): a callee has the type of a function, a variable that is indexed that of an array;
* what an occurrence stands for is known from resolution: a run-time function, a function of the
  tree, a global, or something local. Types and places tell these apart.
-/

namespace WordLang

/-! ## References and types

Where references come from. What is called or indexed has its type from the rules of typing. What is
loaded is a value of its context; which types of values there are is left open, so that it can be
said that no value is a function where that is so. -/

/-- An occurrence that a reference comes from. A callee is a function by its type. What has its
address taken is an array, or else it has no register and its type is that of a value. -/
structure Occurrence.Explains (locals : List SymbolId) (value : Ty → Prop) (occurrence : Occurrence)
    (reference : Reference Symbol) : Prop where
  used : occurrence.declared = none
  called : ∀ symbol, reference = .call symbol →
    occurrence.symbol = some symbol ∧ ∃ params ret, symbol.ty = some (.func params ret)
  taken : ∀ symbol, reference = .address symbol →
    occurrence.symbol = some symbol ∧ ∃ ty, symbol.ty = some ty ∧
      (ty.isArray = true ∨ symbol.id ∉ locals ∧ value ty)

section

variable {value : Ty → Prop} {locals : List SymbolId} {scope : List Nat}

/-- The type of a name is that of its symbol. -/
theorem Ident.Has.ty_of_symbol {ident : Ident} {ty : Ty} {symbol : Symbol} (h : ident.Has ty)
    (hsymbol : ident.symbol = some symbol) : symbol.ty = some ty := by
  rw [Ident.Has, hsymbol] at h
  exact h

/-- A name that is called explains its reference as that of a callee. -/
theorem Ident.explains_calls {ident : Ident} {params : List Ty} {ret : Ty}
    (h : ident.Has (.func params ret)) {reference : Reference Symbol}
    (hmem : reference ∈ ident.calls) : (ident.used scope).Explains locals value reference := by
  obtain ⟨symbol, hsymbol, rfl⟩ := Option.map_eq_some_iff.mp (Option.mem_toList.mp hmem)
  refine ⟨rfl, fun other hother => ?_, fun other hother => nomatch hother⟩
  cases hother
  exact ⟨hsymbol, params, ret, h.ty_of_symbol hsymbol⟩

/-- A name that is indexed explains its reference as the address of an array. -/
theorem Ident.explains_indexes {ident : Ident} {element : Ty} {extent : UInt64}
    (h : ident.Has (.array element extent)) {reference : Reference Symbol}
    (hmem : reference ∈ ident.indexes) : (ident.used scope).Explains locals value reference := by
  obtain ⟨symbol, hsymbol, rfl⟩ := Option.map_eq_some_iff.mp (Option.mem_toList.mp hmem)
  refine ⟨rfl, (fun other hother => nomatch hother), fun other hother => ?_⟩
  cases hother
  exact ⟨hsymbol, _, h.ty_of_symbol hsymbol, .inl rfl⟩

/-- A name that is loaded explains its reference as the address of a value. There is no reference if
the name has a register. -/
theorem Ident.explains_loads {ident : Ident} {ty : Ty} (h : ident.Has ty) (hvalue : value ty)
    {reference : Reference Symbol} (hmem : reference ∈ ident.loads locals) :
    (ident.used scope).Explains locals value reference := by
  obtain ⟨symbol, hsymbol, rfl⟩ := Option.map_eq_some_iff.mp (Option.mem_toList.mp hmem)
  obtain ⟨hsymbol, hlocal⟩ := Option.filter_eq_some_iff.mp hsymbol
  refine ⟨rfl, (fun other hother => nomatch hother), fun other hother => ?_⟩
  cases hother
  exact ⟨hsymbol, ty, h.ty_of_symbol hsymbol, .inr ⟨of_decide_eq_true hlocal, hvalue⟩⟩

/-- Integers and booleans are values. -/
structure HasScalars (value : Ty → Prop) : Prop where
  int : value .int
  bool : value .bool

/-- Callees take values. -/
def TakesValues (value : Ty → Prop) (occurrences : List Occurrence) : Prop :=
  ∀ occurrence ∈ occurrences, ∀ params ret, occurrence.ident.Has (.func params ret) →
    ∀ param ∈ params, value param

/-- What is asked of several occurrences is asked of the first one and of the others. -/
theorem TakesValues.cons {ident : Ident} {rest : List Occurrence}
    (h : TakesValues value (ident.used scope :: rest)) :
    (∀ params ret, ident.Has (.func params ret) → ∀ param ∈ params, value param) ∧
      TakesValues value rest :=
  List.forall_mem_cons.mp h

/-- It is asked of two rows of occurrences separately. -/
theorem TakesValues.append {first second : List Occurrence}
    (h : TakesValues value (first ++ second)) :
    TakesValues value first ∧ TakesValues value second :=
  List.forall_mem_append.mp h

/-- The references of a part of a tree come from its occurrences. -/
def Explained (locals : List SymbolId) (value : Ty → Prop) (occurrences : List Occurrence)
    (references : List (Reference Symbol)) : Prop :=
  ∀ reference ∈ references, ∃ occurrence ∈ occurrences, occurrence.Explains locals value reference

namespace Explained

variable {first second : List Occurrence} {references others : List (Reference Symbol)}

/-- References in a row come from occurrences in a row. -/
theorem append (h : Explained locals value first references)
    (h' : Explained locals value second others) :
    Explained locals value (first ++ second) (references ++ others) := by
  refine List.forall_mem_append.mpr ⟨fun reference hmem => ?_, fun reference hmem => ?_⟩
  · obtain ⟨occurrence, hoccurrence, hexplains⟩ := h reference hmem
    exact ⟨occurrence, List.mem_append_left _ hoccurrence, hexplains⟩
  · obtain ⟨occurrence, hoccurrence, hexplains⟩ := h' reference hmem
    exact ⟨occurrence, List.mem_append_right _ hoccurrence, hexplains⟩

/-- With more occurrences, or fewer references, nothing is lost. -/
theorem mono (h : Explained locals value first references) (hsub : first ⊆ second)
    (hreferences : others ⊆ references) : Explained locals value second others := by
  intro reference hmem
  obtain ⟨occurrence, hoccurrence, hexplains⟩ := h reference (hreferences hmem)
  exact ⟨occurrence, hsub hoccurrence, hexplains⟩

/-- Without references there is nothing to explain. -/
theorem nil {occurrences : List Occurrence} : Explained locals value occurrences [] :=
  fun _ hmem => absurd hmem List.not_mem_nil

/-- The order of lowering is not that of reading. -/
theorem comm (h : Explained locals value first (references ++ others)) :
    Explained locals value first (others ++ references) := by
  refine h.mono (List.Subset.refl _) ?_
  exact List.append_subset.mpr ⟨List.subset_append_right _ _, List.subset_append_left _ _⟩

/-- The references of a single name come from that name. -/
theorem used {ident : Ident}
    (h : ∀ reference ∈ references, (ident.used scope).Explains locals value reference) :
    Explained locals value [ident.used scope] references :=
  fun reference hmem => ⟨_, List.mem_singleton_self _, h reference hmem⟩

end Explained

mutual

/-- The references of an expression whose type is that of a value. -/
theorem Expr.explained (hvalues : HasScalars value) : ∀ {expr : Expr} {ty : Ty},
    HasType expr ty → value ty → TakesValues value (expr.occurrences scope) →
      Explained locals value (expr.occurrences scope) (expr.references locals)
  | .int _ _, _, _, _, _ => .nil
  | .bool _ _, _, _, _, _ => .nil
  | .var _ ident, _, h, hvalue, _ => by
    cases h with
    | var hident _ => exact .used fun _ hmem => Ident.explains_loads hident hvalue hmem
  | .index _ base position, _, h, _, htakes => by
    cases h with
    | index hbase hposition =>
      have htakes := htakes.cons.2
      exact ((Explained.used fun _ hmem => Ident.explains_indexes hbase hmem).append
        (Expr.explained hvalues hposition hvalues.int htakes)).comm
  | .call _ callee args, _, h, _, htakes => by
    cases h with
    | call hcallee hargs =>
      obtain ⟨hparams, htakes⟩ := htakes.cons
      exact ((Explained.used fun _ hmem => Ident.explains_calls hcallee hmem).append
        (Expr.explainedAll hvalues hargs (hparams _ _ hcallee) htakes)).comm
  | .unary _ op operand, _, h, _, htakes => by
    cases h with
    | negate hoperand =>
      have htakes' : TakesValues value (operand.occurrences scope) := htakes
      have hoperand' : Explained locals value (operand.occurrences scope)
        (operand.references locals) := Expr.explained hvalues hoperand hvalues.bool htakes'
      exact hoperand'
  | .binary _ op left right, _, h, _, htakes => by
    obtain ⟨htakesLeft, htakesRight⟩ := htakes.append
    cases h with
    | arith hleft hright =>
      exact (Expr.explained hvalues hleft hvalues.int htakesLeft).append
        (Expr.explained hvalues hright hvalues.int htakesRight)
    | compare hleft hright =>
      exact (Expr.explained hvalues hleft hvalues.int htakesLeft).append
        (Expr.explained hvalues hright hvalues.int htakesRight)
    | connect hleft hright =>
      exact (Expr.explained hvalues hleft hvalues.bool htakesLeft).append
        (Expr.explained hvalues hright hvalues.bool htakesRight)
    | negateIgnoring hleft hright =>
      -- the right operand is checked, but not lowered
      exact (Expr.explained hvalues hleft hvalues.bool htakesLeft).mono
        (List.subset_append_left _ _)
        (List.Subset.refl _)

/-- The references of arguments, each of which is a value because its parameter is. -/
theorem Expr.explainedAll (hvalues : HasScalars value) : ∀ {exprs : List Expr}
    {types : List Ty}, HasTypes exprs types → (∀ ty ∈ types, value ty) →
    TakesValues value (Expr.occurrencesAll scope exprs) →
      Explained locals value (Expr.occurrencesAll scope exprs) (Expr.referencesAll locals exprs)
  | [], _, _, _, _ => .nil
  | expr :: rest, _, h, htypes, htakes => by
    obtain ⟨htakesFirst, htakesRest⟩ := htakes.append
    cases h with
    | cons hexpr hrest =>
      rw [List.forall_mem_cons] at htypes
      exact (Expr.explained hvalues hexpr htypes.1 htakesFirst).append
        (Expr.explainedAll hvalues hrest htypes.2 htakesRest)

end

/-- The references of an assignment. What is assigned has the type of the location, which is no
array. -/
theorem Assignment.explained (hvalues : HasScalars value) {assignment : Assignment}
    (h : assignment.WellTyped) (htakes : TakesValues value (assignment.occurrences scope)) :
    Explained locals value (assignment.occurrences scope) (assignment.references locals) := by
  obtain ⟨info, location, source⟩ := assignment
  obtain ⟨ty, hscalar, hlocation, hsource⟩ := h
  have hvalue : value ty := by
    rcases hscalar with rfl | rfl
    · exact hvalues.int
    · exact hvalues.bool
  obtain ⟨htakesLocation, htakesSource⟩ := htakes.append
  have hexplained : Explained locals value (location.occurrences scope ++ source.occurrences scope)
      (location.references locals ++ source.references locals) :=
    (Expr.explained hvalues hlocation hvalue htakesLocation).append
      (Expr.explained hvalues hsource hvalue htakesSource)
  -- the location of a variable is lowered after the value
  cases location with
  | var place ident => exact hexplained.comm
  | _ => exact hexplained

mutual

/-- The references of a statement. A value that is returned has the type that the function returns.
-/
theorem Stmt.explained (hvalues : HasScalars value) {ret : Ty} (hret : value ret) :
    ∀ {stmt : Stmt} {scope : List Nat} {inLoop : Bool} {n : Nat}, stmt.WellTyped ret inLoop →
    TakesValues value (stmt.occurrences scope n) →
      Explained locals value (stmt.occurrences scope n) (stmt.references locals)
  | .declare _ _, _, _, _, _, _ => .nil
  | .assign _ assignment, _, _, _, h, htakes => by
    cases h with
    | assign hassignment => exact Assignment.explained hvalues hassignment htakes
  | .call info callee args, scope, _, _, h, htakes => by
    cases h with
    | call hcallee hargs =>
      obtain ⟨hparams, htakes⟩ := htakes.cons
      -- arguments are lowered before the call itself, so the references change places
      exact ((Explained.used fun _ hmem => Ident.explains_calls hcallee hmem).append
        (Expr.explainedAll hvalues hargs (hparams _ _ hcallee) htakes)).comm
  | .ifElse _ cond onTrue onFalse, _, _, _, h, htakes => by
    obtain ⟨htakesCond, htakes⟩ := htakes.append
    obtain ⟨htakesTrue, htakesFalse⟩ := htakes.append
    cases h with
    | ifElse hcond htrue hfalse =>
      exact (Expr.explained hvalues hcond hvalues.bool htakesCond).append
        ((Stmt.explainedAll hvalues hret htrue htakesTrue).append
          (Stmt.explainedAll hvalues hret hfalse htakesFalse))
  | .loop _ init cond increment body, _, _, _, h, htakes => by
    obtain ⟨htakesInit, htakes⟩ := htakes.append
    obtain ⟨htakesCond, htakes⟩ := htakes.append
    obtain ⟨htakesStep, htakesBody⟩ := htakes.append
    cases h with
    | loop hinit hcond hincrement hbody =>
      exact (Assignment.explained hvalues hinit htakesInit).append
        ((Expr.explained hvalues hcond hvalues.bool htakesCond).append
          ((Assignment.explained hvalues hincrement htakesStep).append
            (Stmt.explainedAll hvalues hret hbody htakesBody)).comm)
  | .leave _, _, _, _, _, _ => .nil
  | .ret _ none, _, _, _, _, _ => .nil
  | .ret _ (some result), _, _, _, h, htakes => by
    cases h with
    | retValue hresult => exact Expr.explained hvalues hresult hret htakes

/-- The references of a block. -/
theorem Stmt.explainedAll (hvalues : HasScalars value) {ret : Ty} (hret : value ret) :
    ∀ {stmts : List Stmt} {scope : List Nat} {inLoop : Bool} {n : Nat},
    Stmt.AllWellTyped ret inLoop stmts → TakesValues value (Stmt.occurrencesAll scope n stmts) →
      Explained locals value (Stmt.occurrencesAll scope n stmts) (Stmt.referencesAll locals stmts)
  | [], _, _, _, _, _ => .nil
  | stmt :: rest, _, _, _, h, htakes => by
    obtain ⟨htakesFirst, htakesRest⟩ := htakes.append
    cases h with
    | cons hstmt hrest =>
      exact (Stmt.explained hvalues hret hstmt htakesFirst).append
        (Stmt.explainedAll hvalues hret hrest htakesRest)

end

/-- The references of a function come from the names inside of it. -/
theorem FunDef.explained (hvalues : HasScalars value) {definition : FunDef}
    (h : definition.WellTyped) (hret : value definition.ret) {m : Nat}
    (htakes : TakesValues value (definition.inside m)) :
    Explained definition.scope value (definition.inside m) definition.references :=
  (Stmt.explainedAll hvalues hret h.body htakes.append.2).mono (List.subset_append_right _ _)
    (List.Subset.refl _)

end

/-! ## Targets

What a name inside of a function may stand for, and which of these a reference can be to. What has
its address taken and has no register is not local, because everything local has one. -/

/-- Everything that a name of a tree may stand for. -/
def Tree.symbols (nextId : Nat) (tree : Tree) : List Symbol :=
  tree.callables nextId ++ (tree.globalSymbols ++ tree.localSymbols)

/-- What a name stands for is one of the symbols of the tree. -/
theorem Tree.StandsFor.mem_symbols {nextId : Nat} {tree : Tree} {definition : FunDef}
    {symbol : Symbol} (h : tree.StandsFor nextId definition symbol) :
    symbol ∈ tree.symbols nextId := by
  cases h with
  | runtime h => exact List.mem_append_left _ (List.mem_append_left _ h)
  | function h => exact List.mem_append_left _ (List.mem_append_right _ h)
  | global h => exact List.mem_append_right _ (List.mem_append_left _ h)
  | inside h => exact List.mem_append_right _ (List.mem_append_right _ h)

/-- What functions take and return are values, and so are integers and booleans. -/
structure Tree.Passes (nextId : Nat) (value : Ty → Prop) (tree : Tree) : Prop where
  scalars : HasScalars value
  rets : ∀ definition, Item.function definition ∈ tree.items → value definition.ret
  params : ∀ symbol ∈ tree.symbols nextId, ∀ params ret, symbol.ty = some (.func params ret) →
    ∀ param ∈ params, value param

/-- If any type may be that of a value, then nothing is asked. -/
theorem Tree.Passes.all {nextId : Nat} {tree : Tree} : tree.Passes nextId fun _ => True :=
  ⟨⟨trivial, trivial⟩, fun _ _ => trivial, fun _ _ _ _ _ _ _ => trivial⟩

/-- Whether a type is that of a function. -/
def Ty.isFunction : Ty → Bool
  | .func _ _ => true
  | _ => false

namespace Tree.Resolved

variable {nextId : Nat} {tree : Tree} {value : Ty → Prop} {symbol : Symbol}

/-- Every name inside of a function stands for something. -/
theorem exists_standsFor (h : tree.Resolved nextId) {definition : FunDef}
    (hmem : Item.function definition ∈ tree.items) :
    ∃ m, ∀ occurrence ∈ definition.inside m,
      ∃ symbol, occurrence.symbol = some symbol ∧ tree.StandsFor nextId definition symbol := by
  obtain ⟨m, hsub, hused⟩ := h.standsFor hmem
  refine ⟨m, fun occurrence hoccurrence => ?_⟩
  rcases hdeclared : occurrence.declared with _ | ty
  · exact hused occurrence hoccurrence hdeclared
  · exact h.standsFor_of_mem_inside hoccurrence hsub (by rw [hdeclared]; rfl)

/-- What a reference comes from. -/
theorem exists_explains (h : tree.Resolved nextId) (htyped : tree.WellTyped)
    (hpasses : tree.Passes nextId value) {reference : Reference Symbol}
    (hmem : reference ∈ tree.references) :
    ∃ (definition : FunDef) (occurrence : Occurrence), definition.WellTyped ∧
      occurrence.Explains definition.scope value reference ∧
      ∃ symbol, occurrence.symbol = some symbol ∧ tree.StandsFor nextId definition symbol := by
  obtain ⟨item, hitem, hreference⟩ := List.mem_flatMap.mp hmem
  cases item with
  | global decl => cases hreference
  | function definition =>
    obtain ⟨m, hstands⟩ := h.exists_standsFor hitem
    have htakes : TakesValues value (definition.inside m) := by
      intro occurrence hoccurrence params ret hhas
      obtain ⟨symbol, hsymbol, hstandsFor⟩ := hstands occurrence hoccurrence
      exact hpasses.params symbol hstandsFor.mem_symbols params ret (hhas.ty_of_symbol hsymbol)
    have htyped := htyped definition hitem
    obtain ⟨occurrence, hoccurrence, hexplains⟩ := FunDef.explained hpasses.scalars htyped
      (hpasses.rets definition hitem) htakes reference hreference
    exact ⟨definition, occurrence, htyped, hexplains, hstands occurrence hoccurrence⟩

/-- What is called is a function, or a variable of the type of one. -/
theorem of_call_mem (h : tree.Resolved nextId) (htyped : tree.WellTyped)
    (hmem : .call symbol ∈ tree.references) :
    symbol ∈ tree.callables nextId ∨
      symbol ∈ tree.globalSymbols ++ tree.localSymbols ∧
        ∃ params ret, symbol.ty = some (.func params ret) := by
  obtain ⟨definition, occurrence, -, hexplains, other, hother, hstands⟩ :=
    h.exists_explains htyped .all hmem
  obtain ⟨hsymbol, hty⟩ := hexplains.called symbol rfl
  obtain rfl := Option.some.inj (hsymbol.symm.trans hother)
  exact (List.mem_append.mp hstands.mem_symbols).imp_right fun hvariable => ⟨hvariable, hty⟩

/-- Whatever there is to call has the type of a function. -/
theorem ty_of_function (h : tree.Resolved nextId)
    (hmem : symbol ∈ tree.callables nextId) :
    ∃ params ret, symbol.ty = some (.func params ret) := by
  rcases List.mem_append.mp hmem with hmem | hmem
  · obtain ⟨entry, hentry, -, hty⟩ := exists_runtime hmem
    have hbuiltins : ∀ entry ∈ builtins, ∃ params ret, entry.2 = .func params ret := by
      simp [builtins]
    obtain ⟨params, ret, hfunc⟩ := hbuiltins entry hentry
    exact ⟨params, ret, hty.trans (congrArg some hfunc)⟩
  · obtain ⟨definition, -, -, -, -, hty⟩ := h.exists_function hmem
    exact ⟨_, _, hty⟩

/-- What has its address taken is a global, or a function whose type is that of a value. -/
theorem of_address_mem (h : tree.Resolved nextId) (htyped : tree.WellTyped)
    (hpasses : tree.Passes nextId value) (hmem : .address symbol ∈ tree.references) :
    symbol ∈ tree.globalSymbols ∨ symbol ∈ tree.callables nextId ∧
      ∃ params ret, symbol.ty = some (.func params ret) ∧ value (.func params ret) := by
  obtain ⟨definition, occurrence, hdefinition, hexplains, other, hother, hstands⟩ :=
    h.exists_explains htyped hpasses hmem
  obtain ⟨hsymbol, ty, hty, hreason⟩ := hexplains.taken symbol rfl
  obtain rfl := Option.some.inj (hsymbol.symm.trans hother)
  have hfunction (hmem : symbol ∈ tree.callables nextId) :
      ∃ params ret, symbol.ty = some (.func params ret) ∧ value (.func params ret) := by
    obtain ⟨params, ret, hfunc⟩ := h.ty_of_function hmem
    obtain rfl := Option.some.inj (hty.symm.trans hfunc)
    rcases hreason with harray | ⟨-, hvalue⟩
    · cases harray
    · exact ⟨params, ret, hfunc, hvalue⟩
  cases hstands with
  | runtime hmem =>
    have hmem := List.mem_append_left tree.functionSymbols hmem
    exact .inr ⟨hmem, hfunction hmem⟩
  | function hmem =>
    have hmem := List.mem_append_right (runtimeSymbols nextId) hmem
    exact .inr ⟨hmem, hfunction hmem⟩
  | global hmem => exact .inl hmem
  | inside _ hid htypes =>
    -- a local has a register, and no local is an array
    have harray := hdefinition.isArray_localTypes ty (htypes ty hty)
    rcases hreason with harray' | ⟨hnot, -⟩
    · rw [harray] at harray'
      cases harray'
    · exact absurd hid hnot

end Tree.Resolved

/-! ## Variables that are no functions

In most programs functions are called and not passed around. This is a property of the types that a
tree declares, so it can be seen in the tree as it was read. -/

/-- Whether a top declaration gives no variable the type of a function, and returns none. -/
def Item.dataOnly : Item → Bool
  | .global decl => ! decl.declared.isFunction
  | .function definition =>
    ! definition.ret.isFunction && definition.localTypes.all (! ·.isFunction)

/-- Whether no variable of a tree has the type of a function, and no function returns one. -/
def Tree.dataOnly (tree : Tree) : Bool :=
  tree.items.all Item.dataOnly

/-- A type that may be declared: only functions have the type of one, and they neither take nor
return any. -/
def Occurrence.DataOnly (occurrence : Occurrence) : Prop :=
  ∀ params ret, occurrence.declared = some (.func params ret) →
    occurrence.scope = [] ∧ (∀ param ∈ params, param.isFunction = false) ∧ ret.isFunction = false

/-- Whatever is declared with a type other than that of a function is data. -/
theorem Occurrence.DataOnly.of_isFunction {occurrence : Occurrence} {ty : Ty}
    (hty : occurrence.declared = some ty) (h : ty.isFunction = false) : occurrence.DataOnly := by
  intro params ret hfunc
  obtain rfl := Option.some.inj (hty.symm.trans hfunc)
  cases h

/-- In a tree of data, each occurrence is one that may be. -/
theorem Item.dataOnly_of_mem {items : List Item} {n : Nat} {occurrence : Occurrence}
    (h : items.all Item.dataOnly = true) (hmem : occurrence ∈ Item.occurrencesAll n items) :
    occurrence.DataOnly := by
  obtain ⟨item, hitem, m, hmem⟩ := Item.exists_of_mem_occurrencesAll hmem
  have hdata := List.all_eq_true.mp h item hitem
  cases item with
  | global decl =>
    obtain rfl := List.mem_singleton.mp hmem
    exact .of_isFunction rfl (Bool.not_eq_true' _ ▸ hdata)
  | function definition =>
    obtain ⟨hret, hlocals⟩ := Bool.and_eq_true_iff.mp hdata
    have hlocals : ∀ ty ∈ definition.localTypes, ty.isFunction = false := by
      simpa using hlocals
    rcases List.mem_cons.mp hmem with rfl | hmem
    · -- the function itself has the type of one, but its parameters are among the locals
      intro params ret hfunc
      cases Option.some.inj hfunc
      refine ⟨rfl, fun param hparam => ?_, by simpa using hret⟩
      exact hlocals param (List.mem_append_left _ hparam)
    · rcases hdeclared : occurrence.declared with _ | ty
      · intro params ret hfunc
        rw [hdeclared] at hfunc
        cases hfunc
      · exact .of_isFunction hdeclared
          (hlocals ty ((FunDef.localTo_of_mem hmem).ty_mem ty hdeclared))

/-- The globals of a resolved tree are declared like those of the tree that was read. -/
theorem Item.exists_global_of_same {items items' : List Item}
    (h : List.Forall₂ Item.SameGlobal items items') {decl : VarDecl}
    (hmem : Item.global decl ∈ items') :
    ∃ origin, Item.global origin ∈ items ∧ decl.declared = origin.declared := by
  induction h with
  | nil => cases hmem
  | @cons item item' _ _ hsame _ ih =>
    rcases List.mem_cons.mp hmem with rfl | hmem
    · cases item with
      | global origin => exact ⟨origin, List.mem_cons_self, hsame⟩
      | function definition => cases hsame
    · obtain ⟨origin, horigin, hdeclared⟩ := ih hmem
      exact ⟨origin, List.mem_cons_of_mem _ horigin, hdeclared⟩

section

variable {tree : Tree} {nextId : Nat} {symbol : Symbol}

/-- So each occurrence of the resolved tree is one that may be, too. -/
theorem Tree.dataOnly_of_mem (h : tree.dataOnly = true) {occurrence : Occurrence}
    (hmem : occurrence ∈ (tree.resolve nextId).1.occurrences) : occurrence.DataOnly := by
  obtain ⟨origin, horigin, hscope, hdeclared⟩ := Tree.exists_origin hmem
  have horigin := Item.dataOnly_of_mem h horigin
  intro params ret hfunc
  rw [← hscope]
  exact horigin params ret (hdeclared.trans hfunc)

/-- Functions take and return no functions. -/
theorem Tree.passes_of_dataOnly (h : tree.dataOnly = true)
    (hquiet : (tree.resolve nextId).2.errors = []) :
    (tree.resolve nextId).1.Passes nextId fun ty => ty.isFunction = false := by
  have hresolved := Tree.resolved_of_resolve hquiet
  refine ⟨⟨rfl, rfl⟩, fun definition hmem => ?_, fun symbol hmem params ret hty => ?_⟩
  · obtain ⟨m, hsub⟩ := Item.subset_occurrencesAll 0 hmem
    exact (Tree.dataOnly_of_mem h (hsub List.mem_cons_self) _ _ rfl).2.2
  · -- every symbol but those of the run-time functions is declared in the tree
    have hdeclared (hmem : ∃ occurrence ∈ (tree.resolve nextId).1.occurrences,
        occurrence.declared = symbol.ty) : ∀ param ∈ params, param.isFunction = false := by
      obtain ⟨occurrence, hoccurrence, hsame⟩ := hmem
      exact (Tree.dataOnly_of_mem h hoccurrence params ret (hsame.trans hty)).2.1
    rcases List.mem_append.mp hmem with hmem | hmem
    · rcases List.mem_append.mp hmem with hmem | hmem
      · have hbuiltins : ∀ entry ∈ builtins, ∀ params ret, entry.2 = .func params ret →
            ∀ param ∈ params, param.isFunction = false := by
          simp [builtins, Ty.isFunction]
        obtain ⟨entry, hentry, -, hentryTy⟩ := Tree.Resolved.exists_runtime hmem
        exact hbuiltins entry hentry params ret (Option.some.inj (hentryTy.symm.trans hty))
      · obtain ⟨definition, -, hdecl, -, -, hsame⟩ := hresolved.exists_function hmem
        exact hdeclared ⟨_, hdecl, hsame.symm⟩
    · rcases List.mem_append.mp hmem with hmem | hmem
      · obtain ⟨decl, -, hdecl, -, -, hsame⟩ := hresolved.exists_global hmem
        exact hdeclared ⟨_, hdecl, hsame.symm⟩
      · obtain ⟨occurrence, hoccurrence, -, hsame⟩ := hresolved.exists_local hmem
        exact hdeclared ⟨occurrence, hoccurrence, hsame⟩

/-- No variable has the type of a function. -/
theorem Tree.ty_ne_of_dataOnly (h : tree.dataOnly = true)
    (hquiet : (tree.resolve nextId).2.errors = [])
    (hsame : List.Forall₂ Item.SameGlobal tree.items (tree.resolve nextId).1.items)
    (hmem : symbol ∈ (tree.resolve nextId).1.globalSymbols ++ (tree.resolve nextId).1.localSymbols)
    (params : List Ty) (ret : Ty) : symbol.ty ≠ some (.func params ret) := by
  have hresolved := Tree.resolved_of_resolve hquiet
  intro hty
  rcases List.mem_append.mp hmem with hmem | hmem
  · obtain ⟨decl, hdecl, -, -, -, hdeclared⟩ := hresolved.exists_global hmem
    obtain ⟨origin, horigin, hsame⟩ := Item.exists_global_of_same hsame hdecl
    have hglobal : (! origin.declared.isFunction) = true := List.all_eq_true.mp h _ horigin
    rw [← hsame, Option.some.inj (hdeclared.symm.trans hty)] at hglobal
    cases hglobal
  · obtain ⟨occurrence, hoccurrence, hscope, hdeclared⟩ := hresolved.exists_local hmem
    exact hscope (Tree.dataOnly_of_mem h hoccurrence params ret (hdeclared.trans hty)).1

end

/-! ## Programs

From the tree to its program. Its references are those of the tree, and its globals are the globals
of the tree. -/

/-- Every call is of one of the functions, and every address that of one of the globals. -/
structure Program.Linked (functions : List Symbol) (program : Program) : Prop where
  calls : ∀ symbol, .call symbol ∈ program.references → symbol ∈ functions
  addresses : ∀ symbol, .address symbol ∈ program.references →
    symbol ∈ program.globals.map (·.symbol)

/-- The globals of a program are those of the tree, in order. -/
theorem Tree.globals_of_lower {tree : Tree} {nextId : Nat} {program : Program}
    (h : (tree.check nextId).tree.lower = .ok program) :
    program.globals.map (·.symbol) = (tree.resolve nextId).1.globalSymbols := by
  have hlower : (tree.resolve nextId).1.lower = .ok program := (Tree.lower_annotate _).symm.trans h
  exact Tree.map_globals hlower (fun _ => rfl) fun decl global hsymbol _ =>
    (Ident.resolved_eq_ok.mp hsymbol).1

/-- Checking a tree without a fault in its declared types shows that its types are right. -/
theorem Tree.wellTyped_of_clean {tree : Tree} {nextId : Nat}
    (hfree : ∀ ty ∈ tree.declaredTypes, ty.errorFree = true)
    (hclean : (tree.check nextId).diagnostics = []) : (tree.resolve nextId).1.WellTyped := by
  obtain ⟨hnames, htypes⟩ := List.append_eq_nil_iff.mp hclean
  exact (Tree.diagnose_eq_nil_iff (Tree.named_of_resolve hnames hfree)).mp htypes

/-- What a program refers to that comes from a tree without problems. Its references are those of
the tree: each is to the symbol that the name was resolved to. If no variable has the type of a
function and no function returns one, then every call is of a function and every address that of a
global. In any case a call is of a function or of a variable that has the type of one, and an
address is that of a global or of a function. The assembly has the names of these references and no
others, and what is global is known by its name. -/
theorem Tree.references_of_clean {tree : Tree} {nextId : Nat} {program : Program}
    (hfree : ∀ ty ∈ tree.declaredTypes, ty.errorFree = true)
    (hclean : (tree.check nextId).diagnostics = [])
    (hlower : (tree.check nextId).tree.lower = .ok program) :
    program.references = (tree.resolve nextId).1.references ∧
    (tree.dataOnly = true → program.Linked ((tree.resolve nextId).1.callables nextId)) ∧
    (∀ symbol, .call symbol ∈ program.references →
      symbol ∈ (tree.resolve nextId).1.callables nextId ∨
        symbol ∈ program.globals.map (·.symbol) ++ (tree.resolve nextId).1.localSymbols ∧
          ∃ params ret, symbol.ty = some (.func params ret)) ∧
    (∀ symbol, .address symbol ∈ program.references →
      symbol ∈ program.globals.map (·.symbol) ∨
        symbol ∈ (tree.resolve nextId).1.callables nextId) ∧
    (∀ routine ∈ program.routines, ∀ base,
      ∀ name ∈ Asm.references (Asm.routineCode program.constants base routine).lines,
        ∃ reference ∈ program.references, reference.map Symbol.name = name) ∧
    ∀ symbol ∈ (tree.resolve nextId).1.callables nextId ++ program.globals.map (·.symbol),
      ∀ other ∈ (tree.resolve nextId).1.callables nextId ++ program.globals.map (·.symbol),
        symbol.name = other.name → symbol = other := by
  have hok : ∀ ty, Ty.errorFree ty = true → ty.isError = false := fun _ => Ty.isError_of_errorFree
  have hbuiltins : ∀ entry ∈ builtins, Ty.errorFree entry.2 = true := by decide
  have hquiet : (tree.resolve nextId).2.errors = [] := (List.append_eq_nil_iff.mp hclean).1
  have hplain := Tree.plain_of_lower hlower hfree
  have htyped := Tree.wellTyped_of_clean hfree hclean
  have hresolved := Tree.resolved_of_resolve hquiet
  have hreferences := Tree.references_of_lower hbuiltins hplain hquiet hlower
  have hglobals := Tree.globals_of_lower hlower
  refine ⟨hreferences, fun hdata => ⟨fun symbol hmem => ?_, fun symbol hmem => ?_⟩, ?_, ?_, ?_, ?_⟩
  · -- what is called has the type of a function, and then it is one
    rw [hreferences] at hmem
    obtain ⟨-, hsame⟩ := Tree.scoped_of_resolve hbuiltins hplain hquiet
    rcases hresolved.of_call_mem htyped hmem with hfunction | ⟨hvariable, params, ret, hty⟩
    · exact hfunction
    · exact absurd hty (Tree.ty_ne_of_dataOnly hdata hquiet hsame hvariable params ret)
  · -- what has its address taken has the type of a value, so it is no function
    rw [hreferences] at hmem
    rw [hglobals]
    rcases hresolved.of_address_mem htyped (Tree.passes_of_dataOnly hdata hquiet) hmem with
      hglobal | ⟨-, params, ret, -, hvalue⟩
    · exact hglobal
    · cases hvalue
  · rw [hreferences, hglobals]
    exact fun symbol => hresolved.of_call_mem htyped
  · -- every type may be that of a value here
    rw [hreferences, hglobals]
    intro symbol hmem
    have hpasses : (tree.resolve nextId).1.Passes nextId fun _ => True := .all
    exact (hresolved.of_address_mem htyped hpasses hmem).imp_right And.left
  · intro routine hroutine base name hname
    have hvalid := Tree.violation?_of_lower hok hbuiltins hplain hclean hlower
    have hroutine' : routine.Valid program.constants :=
      Routine.valid_of_violation? (List.findSome?_eq_none_iff.mp hvalid routine hroutine)
    obtain ⟨reference, hmem, hsame⟩ := Asm.mem_references_of_text hroutine' hname
    exact ⟨reference, List.mem_flatMap.mpr ⟨routine, hroutine, hmem⟩, hsame⟩
  · rw [hglobals]
    exact fun symbol hmem other hother hname => hresolved.eq_of_name_eq hmem hother hname

/-- The countdown refers only to functions. -/
theorem Tree.references_of_clean_countdown :
    ∃ program, (countdownTree.check 0).tree.lower = .ok program ∧
      program.Linked ((countdownTree.resolve 0).1.callables 0) := by
  have hplain : countdownTree.plain Ty.errorFree = true := by decide +kernel
  have hfree : ∀ ty ∈ countdownTree.declaredTypes, ty.errorFree = true := by decide +kernel
  have hclean : (countdownTree.check 0).diagnostics = [] := by decide +kernel
  obtain ⟨program, hlower, -⟩ := Tree.lowers_of_missing? (fun _ => Ty.isError_of_errorFree)
    (by decide) hplain hclean (by decide +kernel)
  obtain ⟨-, hlinked, -⟩ := Tree.references_of_clean hfree hclean hlower
  exact ⟨program, hlower, hlinked (by decide +kernel)⟩

/-- A function calls its parameter `hook`, which has the name of another function. It is given a
third function. -/
def callbackTree : Tree :=
  let name (text : String) : Ident := { name := text }
  let function (text : String) (params : List Param) (stmts : List Stmt) : Item :=
    .function { ident := name text, params := params, ret := .void, body := { stmts := stmts } }
  { items :=
      [function "hook" [] [],
        function "other" [] [.call {} (name "println") []],
        function "run" [{ ident := name "hook", declared := .func [] .void }]
          [.call {} (name "hook") []],
        function "main" [] [.call {} (name "run") [.var {} (name "other")]]] }

/-- So not every program of a tree without problems is linked: what is called may be a parameter,
and the address of a function may be taken. -/
theorem Tree.not_forall_linked :
    (¬ ∀ (tree : Tree) (program : Program), (tree.check 0).diagnostics = [] →
      (tree.check 0).tree.lower = .ok program → ∀ symbol, .call symbol ∈ program.references →
        symbol ∈ (tree.resolve 0).1.callables 0) ∧
    ¬ ∀ (tree : Tree) (program : Program), (tree.check 0).diagnostics = [] →
      (tree.check 0).tree.lower = .ok program → ∀ symbol, .address symbol ∈ program.references →
        symbol ∈ program.globals.map (·.symbol) := by
  have hbuiltins : ∀ entry ∈ builtins, Ty.errorFree entry.2 = true := by decide
  have hplain : callbackTree.plain Ty.errorFree = true := by decide +kernel
  have hclean : (callbackTree.check 0).diagnostics = [] := by decide +kernel
  obtain ⟨program, hlower, -⟩ := Tree.lowers_of_missing? (fun _ => Ty.isError_of_errorFree)
    hbuiltins hplain hclean (by decide +kernel)
  have hreferences := Tree.references_of_lower hbuiltins hplain
    (List.append_eq_nil_iff.mp hclean).1 hlower
  have hglobals := Tree.globals_of_lower hlower
  refine ⟨fun h => ?_, fun h => ?_⟩
  · have hcall := h callbackTree program hclean hlower (.declared 9 "hook" (.func [] .void))
    rw [hreferences] at hcall
    exact absurd (hcall (by decide +kernel)) (by decide +kernel)
  · have haddress := h callbackTree program hclean hlower (.declared 7 "other" (.func [] .void))
    rw [hreferences, hglobals] at haddress
    exact absurd (haddress (by decide +kernel)) (by decide +kernel)

end WordLang
