import Mathlib.Algebra.Group.Nat.Defs
import WordLang.Proofs.Asm.Completeness
import WordLang.Proofs.Lowering.Totality

/-!
# A tree without problems compiles

The passes put together. If checking reports nothing, then lowering succeeds, validation finds
nothing wrong, and assembly is written to the end, for every tree in which

* assignments are to variables and array elements;
* no declared type has an `error` in it;
* no function has a `void` parameter, nor has a function type in a declared type.

The one exception is a global array whose size in bytes is no machine word.

The conditions are about how the tree is written down and not about what it means, and each of them
can be seen in it (`Tree.plain`). They are needed: a tree can be given in which a call stands where
a location should, in which a type says of itself that it is an error, or in which a `void`
parameter makes room for an argument without a value. The checks do not look for these things.
-/

namespace WordLang

mutual

/-- Whether a type may be declared: it has no fault in it, and functions in it take values. -/
def Ty.declarable : Ty → Bool
  | .int => true
  | .bool => true
  | .void => true
  | .array base _ => base.declarable
  | .func params ret => Ty.declarableParams params && ret.declarable
  | .error _ => false

/-- Whether types may be those of parameters. -/
def Ty.declarableParams : List Ty → Bool
  | [] => true
  | param :: rest => ! param.isVoid && param.declarable && Ty.declarableParams rest

end

/-- Parameters whose types may be declared are not `void`. -/
theorem Ty.isVoid_of_declarableParams : ∀ {params : List Ty}, Ty.declarableParams params = true →
    ∀ param ∈ params, param.isVoid = false
  | [], _ => fun _ h => absurd h List.not_mem_nil
  | param :: rest, h => by
    rw [Ty.declarableParams, Bool.and_eq_true, Bool.and_eq_true, Bool.not_eq_true'] at h
    rw [List.forall_mem_cons]
    exact ⟨h.1.1, Ty.isVoid_of_declarableParams h.2⟩

/-- The types that may be declared are regular, which is what lowering asks for. -/
theorem Ty.regular_declarable : Ty.Regular Ty.declarable where
  clean ty h := by
    cases ty with
    | error message => cases h
    | _ => rfl
  params params ret h := by
    rw [Ty.declarable, Bool.and_eq_true] at h
    exact Ty.isVoid_of_declarableParams h.1

/-! ## Globals

Lowering a global cannot fail, and writing it can. Its size is all that matters, and this is known
from the tree. -/

/-- The elements of a global, if the item is one. Anything but an array has one element. -/
def Item.elements? : Item → Option UInt64
  | .global decl => some decl.elements
  | .function _ => none

/-- The globals of the program have the sizes of those of the tree, in the same order. -/
theorem Tree.elements_of_lower {tree : Tree} {program : Program} (h : tree.lower = .ok program) :
    program.globals.map (·.elements) = tree.items.filterMap Item.elements? := by
  refine Tree.map_globals h (fun _ => rfl) fun decl global _ helements => ?_
  rw [Item.elements?, helements]

/-- Resolving and annotating a tree does not change the sizes of its globals. -/
theorem Item.elements_of_sameGlobal {items items' : List Item}
    (h : List.Forall₂ Item.SameGlobal items items') :
    items'.filterMap Item.elements? = items.filterMap Item.elements? := by
  induction h with
  | nil => rfl
  | @cons item item' rest rest' hsame _ ih =>
    have helements : item'.elements? = item.elements? := by
      cases item <;> cases item' <;>
        simp_all [Item.SameGlobal, Item.elements?, VarDecl.elements]
    rw [List.filterMap_cons, List.filterMap_cons, helements, ih]

/-- A declaration that is too large is one of an array. -/
theorem VarDecl.oversized_iff {decl : VarDecl} :
    ¬ decl.elements.toNat * Asm.wordSize < UInt64.size ↔
      ∃ base extent, decl.declared = .array base extent ∧ 2 ^ 64 ≤ extent.toNat * 8 := by
  have hsize : UInt64.size = 2 ^ 64 := rfl
  rw [Nat.not_lt, hsize, Asm.wordSize]
  constructor
  · intro h
    unfold VarDecl.elements at h
    split at h
    · next base extent hdeclared => exact ⟨base, extent, hdeclared, h⟩
    · exact absurd h (by decide)
  · rintro ⟨base, extent, hdeclared, h⟩
    rw [VarDecl.elements, hdeclared]
    exact h

/-- There is no other reason to end early: a global that can be written has one line. -/
theorem Asm.oversized_of_findSome? {globals : List GlobalDecl} {halt : Halt}
    (h : (globals.findSome? fun global => (Asm.globalCode global).halt) = some halt) :
    ∃ name, halt = .oversized name := by
  obtain ⟨global, -, hglobal⟩ := List.exists_of_findSome?_eq_some h
  rw [Asm.halt_globalCode] at hglobal
  split at hglobal
  · cases hglobal
  · cases hglobal
    exact ⟨_, rfl⟩

/-- What writing the assembly of a lowered program comes to depends on the globals of the tree. The
routines of a valid program can all be written, and the globals come first. -/
theorem Asm.oversized_emit_iff {tree : Tree} {program : Program}
    (hlower : tree.lower = .ok program) (hvalid : program.violation? = none) (nextLabel : Nat) :
    (∃ name, (Asm.emit program nextLabel .unlimited).halt = some (.oversized name)) ↔
      ∃ elements ∈ tree.items.filterMap Item.elements?,
        ¬ elements.toNat * Asm.wordSize < UInt64.size := by
  rw [← Tree.elements_of_lower hlower, Asm.halt_emit hvalid]
  constructor
  · rintro ⟨name, hhalt⟩
    obtain ⟨global, hmem, hglobal⟩ := List.exists_of_findSome?_eq_some hhalt
    refine ⟨global.elements, List.mem_map_of_mem hmem, fun hlt => ?_⟩
    rw [Asm.halt_globalCode, if_pos hlt] at hglobal
    cases hglobal
  · rintro ⟨elements, hmem, hsize⟩
    obtain ⟨global, hglobal, rfl⟩ := List.mem_map.mp hmem
    rcases hhalt : program.globals.findSome? fun global =>
      (Asm.globalCode global).halt with _ | halt
    · have hnone := List.findSome?_eq_none_iff.mp hhalt global hglobal
      rw [Asm.halt_globalCode, if_neg hsize] at hnone
      cases hnone
    · obtain ⟨name, rfl⟩ := Asm.oversized_of_findSome? hhalt
      exact ⟨name, rfl⟩

/-! ## The pipeline -/

/-- A tree without problems, of the kind above, compiles: lowering succeeds, validation finds
nothing, and the assembly is written to its end unless a global array is too large, in which case
writing stops there.

So no internal error is left that such a tree could run into. Which trees have too large an array is
said exactly, in terms of their declarations. -/
theorem Tree.compile_of_clean {tree : Tree} (hplain : tree.plain Ty.declarable = true)
    (hclean : (tree.check 0).diagnostics = []) :
    ∃ program, (tree.check 0).tree.lower = .ok program ∧ program.violation? = none ∧
      (tree.compile .unlimited).2 = .ok (Asm.emit program 0 .unlimited) ∧
      ((Asm.emit program 0 .unlimited).halt = none ∨
        ∃ name, (Asm.emit program 0 .unlimited).halt = some (.oversized name)) ∧
      ((∃ name, (Asm.emit program 0 .unlimited).halt = some (.oversized name)) ↔
        ∃ decl base extent, Item.global decl ∈ tree.items ∧ decl.declared = .array base extent ∧
          2 ^ 64 ≤ extent.toNat * 8) := by
  have hbuiltins : ∀ entry ∈ builtins, entry.2.declarable = true := by decide
  obtain ⟨program, hlower, hvalid⟩ :=
    Tree.lowers_of_clean Ty.regular_declarable hbuiltins hplain hclean
  obtain ⟨hnames, -⟩ := List.append_eq_nil_iff.mp hclean
  obtain ⟨-, hsame⟩ := Tree.scoped_of_resolve hbuiltins hplain hnames
  have hlower' : (tree.resolve 0).1.lower = .ok program := (Tree.lower_annotate _).symm.trans hlower
  refine ⟨program, hlower, hvalid, ?_, ?_, ?_⟩
  · rw [Tree.compile, Checked.program, hclean, hlower]
    simp only [List.isEmpty_nil, Bool.not_true, Bool.false_eq_true, if_false, hvalid]
    rfl
  -- a valid program can only be stopped by its globals
  · rw [Asm.halt_emit hvalid]
    rcases hhalt : program.globals.findSome? fun global =>
      (Asm.globalCode global).halt with _ | halt
    · exact .inl rfl
    · obtain ⟨name, rfl⟩ := Asm.oversized_of_findSome? hhalt
      exact .inr ⟨name, rfl⟩
  · rw [Asm.oversized_emit_iff hlower' hvalid, Item.elements_of_sameGlobal hsame]
    constructor
    · rintro ⟨elements, hmem, hsize⟩
      obtain ⟨item, hitem, helements⟩ := List.mem_filterMap.mp hmem
      cases item with
      | global decl =>
        cases helements
        obtain ⟨base, extent, hdeclared, hextent⟩ := VarDecl.oversized_iff.mp hsize
        exact ⟨decl, base, extent, hitem, hdeclared, hextent⟩
      | function definition => cases helements
    · rintro ⟨decl, base, extent, hitem, hdeclared, hextent⟩
      exact ⟨decl.elements, List.mem_filterMap.mpr ⟨_, hitem, rfl⟩,
        VarDecl.oversized_iff.mpr ⟨base, extent, hdeclared, hextent⟩⟩

/-- A global array that a loop fills and prints. -/
def countdownTree : Tree :=
  let name (text : String) : Ident := { name := text }
  let var (text : String) : Expr := .var {} (name text)
  let element : Expr := .index {} (name "row") (var "i")
  { items :=
      [.global { ident := name "row", declared := .array .int 4 },
        .function
          { ident := name "main", params := [], ret := .void,
            body := { stmts :=
              [.declare {} { ident := name "i", declared := .int },
                .loop {} { location := var "i", value := .int {} 3 }
                  (.binary {} (.compare .gt) (var "i") (.int {} 0))
                  { location := var "i", value := .binary {} (.arith .sub) (var "i") (.int {} 1) }
                  { stmts :=
                    [.assign {} { location := element, value := var "i" },
                      .call {} (name "printInt") [element]] }] } }] }

/-- It has no problems, and compiles. -/
theorem Tree.compile_of_clean_countdown :
    ∃ program, (countdownTree.check 0).tree.lower = .ok program ∧ program.violation? = none ∧
      (countdownTree.compile .unlimited).2 = .ok (Asm.emit program 0 .unlimited) ∧
      ((Asm.emit program 0 .unlimited).halt = none ∨
        ∃ name, (Asm.emit program 0 .unlimited).halt = some (.oversized name)) ∧
      ((∃ name, (Asm.emit program 0 .unlimited).halt = some (.oversized name)) ↔
        ∃ decl base extent, Item.global decl ∈ countdownTree.items ∧
          decl.declared = .array base extent ∧ 2 ^ 64 ≤ extent.toNat * 8) :=
  Tree.compile_of_clean (by decide +kernel) (by decide +kernel)

end WordLang
