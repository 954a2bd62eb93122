import WordLang.Compiler
import WordLang.Proofs.Relabelling.Lowering
import WordLang.Proofs.Relabelling.Resolution
import WordLang.Proofs.Relabelling.Typing
import WordLang.Proofs.Typing.Annotation

/-!
# Slots are written and never read

What stands in the slots of a tree when a pass begins has no effect. Every symbol that checking and
lowering look at was put there by the resolution of the same run, and the types in the slots are
looked at by nobody. So two trees that differ in their slots only, as a tree does before and after
earlier passes, have the same problems, the same program and the same assembly
(`Tree.slots_write_only`).

Conversely a pass changes nothing but slots, and what is written down of a tree does not show them.

Each tree is compared with the one that has all its slots empty. For symbols this is an instance of
relabelling before resolution: the names are the same, so the table never notices, and afterwards
the slots of names have been filled alike. The types that may have been in the slots are still
different, and are emptied in a second step, which neither checking nor lowering notices either.
-/

namespace WordLang

/-! ## What was in the slots does not matter

From the tree with empty slots to any other, pass by pass. -/

/-- A name that is declared or used gets its symbol from the table, whatever symbol it had. -/
theorem Relabelling.erase_carries : Relabelling.erase.Carries .untyped id where
  place := rfl
  ty := rfl
  declare _ _ _ := rfl
  resolve _ _ := rfl
  enter _ := rfl
  leave _ := rfl

/-- Emptying the slots for types renames no symbol. -/
theorem Relabelling.untyped_renames : Relabelling.untyped.Renames ⟨id, id, id⟩ where
  symbol := Option.map_id.symm
  name := rfl
  injective h := h

/-- Renaming nothing changes nothing. -/
theorem Program.rename_id (program : Program) : program.rename ⟨id, id, id⟩ = program := by
  have hkind : ∀ kind : InstKind, kind.rename ⟨id, id, id⟩ = kind := by
    intro kind
    cases kind <;> rfl
  have hinst : Inst.rename ⟨id, id, id⟩ = id := by
    funext inst
    rw [Inst.rename, hkind]
    rfl
  have hroutine : Routine.rename ⟨id, id, id⟩ = id := by
    funext routine
    rw [Routine.rename, hinst, Array.map_id]
    rfl
  have hglobal : GlobalDecl.rename ⟨id, id, id⟩ = id := rfl
  rw [Program.rename, hroutine, hglobal, List.map_id, List.map_id]

/-- Lowering does not look at the types in the slots. -/
theorem Tree.lower_untyped (tree : Tree) : (tree.relabel .untyped).lower = tree.lower := by
  rw [Tree.lower_relabel Relabelling.untyped_renames rfl]
  cases tree.lower with
  | error error => cases error <;> rfl
  | ok program => exact congrArg Except.ok program.rename_id

/-- Resolving the tree with empty slots gives the same symbols and problems. -/
theorem Tree.resolve_erase (tree : Tree) (nextId : Nat) :
    tree.erase.resolve nextId = ((tree.resolve nextId).1.relabel .untyped,
      (tree.resolve nextId).2) :=
  Tree.resolve_relabel Relabelling.erase_carries rfl tree

/-- Checking finds the same problems in it. -/
theorem Tree.diagnostics_check_erase (tree : Tree) (nextId : Nat) :
    (tree.erase.check nextId).diagnostics = (tree.check nextId).diagnostics := by
  simp only [Tree.check, Tree.resolve_erase, Tree.diagnose_untyped]

/-- It uses up the same ids. -/
theorem Tree.nextId_check_erase (tree : Tree) (nextId : Nat) :
    (tree.erase.check nextId).nextId = (tree.check nextId).nextId := by
  simp only [Tree.check, Tree.resolve_erase]

/-- It leads to the same program, or fails in the same way. -/
theorem Tree.program_check_erase (tree : Tree) (nextId : Nat) :
    (tree.erase.check nextId).program = (tree.check nextId).program := by
  have hlower : (tree.erase.check nextId).tree.lower = (tree.check nextId).tree.lower := by
    simp only [Tree.check, Tree.resolve_erase, Tree.lower_annotate, Tree.lower_untyped]
  rw [Checked.program, Tree.diagnostics_check_erase, hlower, Checked.program]

/-- It has the same assembly, or fails in the same way. -/
theorem Tree.compile_erase (tree : Tree) (room : Asm.Room) :
    (tree.erase.compile room).2 = (tree.compile room).2 := by
  rw [Tree.compile, Tree.compile, Tree.program_check_erase]

/-! ## Nothing else is changed

The passes that write to a tree. Each of them may end with problems, and its tree is there
nevertheless. -/

/-- A pass over a tree. -/
inductive Pass where
  | resolve (nextId : Nat)
  | annotate
  | check (nextId : Nat)
  | compile (room : Asm.Room)

/-- The tree after a pass, whether or not problems were found. -/
def Pass.apply (tree : Tree) : Pass → Tree
  | .resolve nextId => (tree.resolve nextId).1
  | .annotate => tree.annotate
  | .check nextId => (tree.check nextId).tree
  | .compile room => (tree.compile room).1

/-- A pass changes nothing but slots. -/
theorem Pass.erase_apply (tree : Tree) (pass : Pass) : (pass.apply tree).erase = tree.erase := by
  cases pass with
  | resolve nextId => exact tree.erase_resolve nextId
  | annotate => exact tree.erase_annotate
  | check nextId => exact (Tree.erase_annotate _).trans (tree.erase_resolve nextId)
  | compile room => exact (Tree.erase_annotate _).trans (tree.erase_resolve 0)

/-- Nor do several passes, one after the other. -/
theorem Pass.erase_foldl_apply (tree : Tree) (passes : List Pass) :
    (passes.foldl Pass.apply tree).erase = tree.erase := by
  induction passes generalizing tree with
  | nil => rfl
  | cons pass rest ih => exact (ih (pass.apply tree)).trans (pass.erase_apply tree)

/-- If two trees agree in everything but their slots, then they have the same problems, the same
program, and the same assembly or the same failure. Whatever passes go over a tree, in everything
but its slots it stays as it was, and so does its written form. -/
theorem Tree.slots_write_only {tree tree' : Tree} (h : tree.erase = tree'.erase) :
    (∀ nextId, (tree.check nextId).diagnostics = (tree'.check nextId).diagnostics ∧
      (tree.check nextId).nextId = (tree'.check nextId).nextId ∧
      (tree.check nextId).program = (tree'.check nextId).program) ∧
    (∀ room, (tree.compile room).2 = (tree'.compile room).2) ∧
    ∀ passes : List Pass, (passes.foldl Pass.apply tree).erase = tree.erase ∧
      (passes.foldl Pass.apply tree).toJson = tree.toJson := by
  refine ⟨fun nextId => ⟨?_, ?_, ?_⟩, fun room => ?_, fun passes => ⟨?_, ?_⟩⟩
  · rw [← tree.diagnostics_check_erase, h, Tree.diagnostics_check_erase]
  · rw [← tree.nextId_check_erase, h, Tree.nextId_check_erase]
  · rw [← tree.program_check_erase, h, Tree.program_check_erase]
  · rw [← tree.compile_erase, h, Tree.compile_erase]
  · exact Pass.erase_foldl_apply tree passes
  · rw [← Tree.toJson_erase, Pass.erase_foldl_apply, Tree.toJson_erase]

/-- A program that prints a global, and a `main` that is not allowed and so is passed over. The
slots of the uses of the global are given. -/
def slottedTree (symbol : Option Symbol) (ty : Option Ty) : Tree :=
  let name (text : String) : Ident := { name := text }
  let function (text : String) (ret : Ty) (stmts : List Stmt) : Item :=
    .function { ident := name text, params := [], ret := ret, body := { stmts := stmts } }
  let total : Expr := .var { ty := ty } { name := "total", symbol := symbol }
  { items :=
      [.global { ident := name "total", declared := .int },
        function "show" .void [.call {} (name "printInt") [total]],
        function "main" .int [.ret {} (some total)]] }

/-- Empty slots, and slots that hold the symbol of a function and a wrong type. -/
theorem Tree.slots_write_only_stale :
    let fresh := slottedTree none none
    let stale := slottedTree (some (.declared 3 "printInt" (.func [.int] .void))) (some .bool)
    let passes : List Pass := [.check 0, .compile .unlimited, .annotate, .resolve 7]
    fresh.erase = stale.erase ∧
      (fresh.check 0).diagnostics = [.illTyped {} "main function must return void"] ∧
      (stale.check 0).diagnostics = (fresh.check 0).diagnostics ∧
      (passes.foldl Pass.apply stale).toJson = stale.toJson := by
  intro fresh stale passes
  have hslots : stale.erase = fresh.erase := rfl
  obtain ⟨hcheck, -, hpasses⟩ := Tree.slots_write_only hslots
  exact ⟨hslots.symm, by decide +kernel, (hcheck 0).1, (hpasses passes).2⟩

end WordLang
