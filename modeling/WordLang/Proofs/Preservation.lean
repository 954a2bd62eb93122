import WordLang.Proofs.Pipeline
import WordLang.Proofs.Simulation.Functions

/-!
# Lowering preserves meaning

A tree is of first order when its variables hold words: locals and parameters are integers or truth
values, globals are those or arrays of those, and functions return a word or nothing. If such a tree
has no problems, then each of its functions does the same in the tree as in the program that the
tree is lowered to, for all arguments, all contents of memory and of the variables, and all ways in
which the functions that it calls may behave (`Tree.lower_preserves_meaning`).

The simulation is shown elsewhere, construct by construct, for functions whose names are in scope
and whose types fit. What is left to do here is to see that a tree of first order without problems
is such a tree: its declared types are types that may be declared, and with these everything that
the simulation asks for follows from resolution and checking.
-/

namespace WordLang

/-! ## First order

A property of the types that a tree declares, so that it can be seen without resolving anything. -/

/-- Whether a global may have a type: it holds a word, or is an array of words. -/
def Ty.isGlobal : Ty → Bool
  | .array base _ => base.isScalar
  | ty => ty.isScalar

/-- Whether a top declaration is of first order. Functions may not be passed on or assigned, and no
local is an array. -/
def Item.firstOrder : Item → Bool
  | .global decl => decl.declared.isGlobal
  | .function definition =>
    definition.params.all (·.declared.isScalar) &&
      (definition.ret.isScalar || definition.ret.isVoid) &&
      Stmt.plainAll Ty.isScalar definition.body.stmts

/-- Whether a tree is of first order, and assigns to places only. -/
def Tree.firstOrder (tree : Tree) : Bool :=
  tree.items.all Item.firstOrder

/-- Integers and truth values may be declared. -/
theorem Ty.declarable_of_isScalar {ty : Ty} (h : ty.isScalar = true) : ty.declarable = true := by
  cases ty <;> first | rfl | cases h

/-- So may arrays of them. -/
theorem Ty.declarable_of_isGlobal {ty : Ty} (h : ty.isGlobal = true) : ty.declarable = true := by
  cases ty with
  | array base extent =>
    rw [Ty.declarable]
    exact Ty.declarable_of_isScalar h
  | _ => exact Ty.declarable_of_isScalar h

/-- They may be the types of parameters. -/
theorem Ty.declarableParams_of_isScalar : ∀ {params : List Param},
    params.all (·.declared.isScalar) = true →
    Ty.declarableParams (params.map (·.declared)) = true
  | [], _ => rfl
  | param :: rest, h => by
    rw [List.all_cons, Bool.and_eq_true] at h
    have hvoid : param.declared.isVoid = false := by
      cases hty : param.declared <;> rw [hty] at h <;> first | rfl | cases h.1
    rw [List.map_cons, Ty.declarableParams, hvoid, Ty.declarable_of_isScalar h.1,
      Ty.declarableParams_of_isScalar h.2]
    rfl

mutual

/-- If fewer types are allowed, then more statements are. -/
theorem Stmt.plain_mono {ok ok' : Ty → Bool} (hok : ∀ ty, ok ty = true → ok' ty = true) :
    ∀ stmt : Stmt, stmt.plain ok = true → stmt.plain ok' = true
  | .declare _ decl, h => hok decl.declared h
  | .assign _ _, h => h
  | .call _ _ _, h => h
  | .ifElse _ _ onTrue onFalse, h => by
    rw [Stmt.plain, Bool.and_eq_true] at h ⊢
    exact ⟨Stmt.plainAll_mono hok onTrue.stmts h.1, Stmt.plainAll_mono hok onFalse.stmts h.2⟩
  | .loop _ _ _ _ body, h => by
    rw [Stmt.plain, Bool.and_eq_true] at h ⊢
    exact ⟨h.1, Stmt.plainAll_mono hok body.stmts h.2⟩
  | .leave _, h => h
  | .ret _ _, h => h

/-- So it is for blocks. -/
theorem Stmt.plainAll_mono {ok ok' : Ty → Bool} (hok : ∀ ty, ok ty = true → ok' ty = true) :
    ∀ stmts : List Stmt, Stmt.plainAll ok stmts = true → Stmt.plainAll ok' stmts = true
  | [], h => h
  | stmt :: rest, h => by
    rw [Stmt.plainAll, Bool.and_eq_true] at h ⊢
    exact ⟨Stmt.plain_mono hok stmt h.1, Stmt.plainAll_mono hok rest h.2⟩

end

/-- A top declaration of first order declares only such types. -/
theorem Item.plain_of_firstOrder {item : Item} (h : item.firstOrder = true) :
    item.plain Ty.declarable = true := by
  cases item with
  | global decl => exact Ty.declarable_of_isGlobal h
  | function definition =>
    rw [Item.firstOrder, Bool.and_eq_true, Bool.and_eq_true, Bool.or_eq_true] at h
    obtain ⟨⟨hparams, hret⟩, hbody⟩ := h
    have hret : definition.ret.declarable = true := by
      rcases hret with hret | hret
      · exact Ty.declarable_of_isScalar hret
      · cases hty : definition.ret <;> rw [hty] at hret <;> first | rfl | cases hret
    have hall : definition.params.all (fun param => param.declared.declarable) = true := by
      rw [List.all_eq_true] at hparams ⊢
      intro param hparam
      exact Ty.declarable_of_isScalar (hparams param hparam)
    rw [Item.plain, FunDef.plain, FunDef.ty, Ty.declarable,
      Ty.declarableParams_of_isScalar hparams, hret, hall,
      Stmt.plainAll_mono (fun _ => Ty.declarable_of_isScalar) _ hbody]
    rfl

/-! ## Programs -/

/-- A tree of first order without problems means the same as the program that it is lowered to: its
functions and the routines of the program correspond in order, and do the same.

Lowering succeeds for such a tree, so this says of every one of them what its program does. What a
function that is called does is up to the world on both sides; if it is one of the same program, the
theorem says that its routine does it too. -/
theorem Tree.lower_preserves_meaning {tree : Tree} {nextId : Nat} (hfirst : tree.firstOrder = true)
    (hclean : (tree.check nextId).diagnostics = []) :
    ∃ program, (tree.check nextId).tree.lower = .ok program ∧
      List.Forall₂ (fun definition routine => definition.RunsAs program.constants routine)
        (tree.check nextId).tree.functions program.routines := by
  have hbuiltins : ∀ entry ∈ builtins, entry.2.declarable = true := by decide
  have hplain : tree.items.all (Item.plain Ty.declarable) = true := by
    rw [Tree.firstOrder, List.all_eq_true] at hfirst
    rw [List.all_eq_true]
    intro item hitem
    exact Item.plain_of_firstOrder (hfirst item hitem)
  obtain ⟨program, hlower, -⟩ :=
    Tree.lowers_of_clean Ty.regular_declarable hbuiltins hplain hclean
  obtain ⟨hnames, -⟩ := List.append_eq_nil_iff.mp hclean
  obtain ⟨hscoped, -⟩ := Tree.scoped_of_resolve hbuiltins hplain hnames
  have hscoped' : ∀ item ∈ (tree.check nextId).tree.items, item.Scoped Ty.declarable := by
    intro item hitem
    obtain ⟨resolved, hresolved, rfl⟩ := List.mem_map.mp hitem
    exact Item.scoped_annotate (hscoped resolved hresolved)
  refine ⟨program, hlower, (Tree.forall₂_functions hlower).imp ?_⟩
  rintro definition routine ⟨hmem, constants, pool, hroutine, hpool⟩
  exact FunDef.runsAs_of_lower (hscoped' _ hmem) hroutine hpool

/-- A loop that is left early, by a break and by a return, with a division and both connectives. -/
def searchTree : Tree :=
  let name (text : String) : Ident := { name := text }
  let var (text : String) : Expr := .var {} (name text)
  let element : Expr := .index {} (name "seen") (var "i")
  { items :=
      [.global { ident := name "seen", declared := .array .bool 8 },
        .function
          { ident := name "search", params :=
              [{ ident := name "limit", declared := .int },
                { ident := name "strict", declared := .bool }],
            ret := .int,
            body := { stmts :=
              [.declare {} { ident := name "i", declared := .int },
                .loop {} { location := var "i", value := .int {} 0 }
                  (.binary {} (.compare .lt) (var "i") (var "limit"))
                  { location := var "i", value := .binary {} (.arith .add) (var "i") (.int {} 1) }
                  { stmts :=
                    [.ifElse {}
                      (.binary {} (.connect .and) (var "strict") element)
                      { stmts := [.leave {}] }
                      { stmts :=
                        [.call {} (name "printInt")
                          [.binary {} (.arith .div) (var "limit") (var "i")]] },
                      .ifElse {}
                      (.binary {} (.connect .or) (.unary {} .negate (var "strict"))
                        (.bool {} false))
                      { stmts := [.ret {} (some (var "i"))] }
                      { stmts := [.assign {} { location := element, value := .bool {} true }] }] },
                .ret {} (some (.call {} (name "readInt") []))] } }] }

/-- The search does the same in the tree and in the program. -/
theorem Tree.lower_preserves_meaning_search :
    ∃ program, (searchTree.check 0).tree.lower = .ok program ∧
      List.Forall₂ (fun definition routine => definition.RunsAs program.constants routine)
        (searchTree.check 0).tree.functions program.routines :=
  Tree.lower_preserves_meaning (by decide +kernel) (by decide +kernel)

end WordLang
