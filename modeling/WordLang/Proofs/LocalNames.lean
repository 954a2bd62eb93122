import Mathlib.Logic.Equiv.Basic
import WordLang.Proofs.Linkage
import WordLang.Proofs.Relabelling.Assembly
import WordLang.Proofs.Relabelling.Resolution
import WordLang.Proofs.Relabelling.Typing

/-!
# Local names, places and ids do not show

Two trees that differ in how parameters and locals are spelled, in where things stand, and in what
was in their slots have the same assembly, and so has one tree whose symbols are numbered from
another id on (`Tree.assembly_of_respelledAs`).

A tree is compared with its `bare` form, in which nothing has a place, the slots are empty and names
are spelled anew. Resolution carries along: what the bare form is resolved to is what the tree is
resolved to, with symbols renamed (`Relabelling.bare_carries`). So problems correspond, lowering
gives the renamed program, and the assembly of that is the same if all names in it are kept. These
are names of functions and globals as long as no parameter or local can be called. Two trees with
the same bare form are alike then.

The comparison has one direction only. That a tree and its bare form have the same assembly is shown
for one tree, without looking at a second; two trees with the same bare form then have the same
assembly as that form, each by the same theorem. This is why it is enough that different names stay
different: nothing has to be undone.

Spelling can go wrong in one place. A callee is referred to by name even if it is a parameter, and
then the name of a parameter shows in the assembly after all. A parameter that can be called has the
type of a function, so the theorem asks that no parameter or local has (`Tree.keeps_of_lower`).
-/

namespace WordLang

/-! ## Spelling names anew

What a renaming does to a symbol table: it spells the names in it anew and adds to the ids. Each
operation on tables commutes with it, because names are compared only with each other and different
names stay different. -/

/-- Spells names anew and numbers symbols from a later id on. -/
def Renaming.respell (spell : String → String) (shift : Nat) : Renaming where
  id id := ⟨id.index + shift⟩
  name := spell
  routine := spell

/-- Spells names anew, and forgets places and slots. -/
def Relabelling.bare (spell : String → String) : Relabelling where
  place _ := {}
  name := spell
  symbol _ := none
  ty _ := none

/-- What `bare` is after resolution, when the names have symbols. -/
def Relabelling.respell (spell : String → String) (shift : Nat) : Relabelling where
  place _ := {}
  name := spell
  symbol := Option.map (Renaming.respell spell shift).symbol
  ty _ := none

/-- A problem with names, respelled and without its place. -/
def Diagnostic.respell (spell : String → String) : Diagnostic → Diagnostic
  | .duplicate _ name => .duplicate {} (spell name)
  | .unresolved _ name => .unresolved {} (spell name)
  | .illTyped _ message => .illTyped {} message

/-- The declarations of a scope, respelled. -/
def Scope.respell (spell : String → String) (shift : Nat) (scope : Scope) : Scope :=
  scope.map fun entry => (spell entry.1, (Renaming.respell spell shift).symbol entry.2)

/-- A table with everything respelled. -/
def SymbolTable.respell (spell : String → String) (shift : Nat) (table : SymbolTable) :
    SymbolTable where
  globals := table.globals.respell spell shift
  inner := table.inner.map (Scope.respell spell shift)
  nextId := table.nextId + shift
  errors := table.errors.map (Diagnostic.respell spell)

section

variable {spell : String → String} {shift : Nat}

/-- A name is found under its new spelling. -/
theorem Scope.lookup_respell (hspell : Function.Injective spell) (scope : Scope) (name : String) :
    (scope.respell spell shift).lookup (spell name) =
      (scope.lookup name).map (Renaming.respell spell shift).symbol := by
  induction scope with
  | nil => rfl
  | cons entry rest ih =>
    have hname : (spell name == spell entry.1) = (name == entry.1) := by
      rw [Bool.eq_iff_iff, beq_iff_eq, beq_iff_eq]
      exact hspell.eq_iff
    rw [Scope.respell, List.map_cons, List.lookup_cons, List.lookup_cons, hname]
    cases name == entry.1 with
    | true => rfl
    | false => exact ih

namespace SymbolTable

variable (table : SymbolTable)

/-- The innermost scope, respelled. -/
theorem current_respell :
    (table.respell spell shift).current = table.current.respell spell shift := by
  unfold current respell
  cases table.inner <;> rfl

/-- A name that is in scope is found under its new spelling. -/
theorem find?_respell (hspell : Function.Injective spell) (name : String) :
    (table.respell spell shift).find? (spell name) =
      (table.find? name).map (Renaming.respell spell shift).symbol := by
  have hscopes : (table.respell spell shift).scopes =
      table.scopes.map (Scope.respell spell shift) := by
    simp [scopes, respell]
  rw [find?, find?, hscopes, List.findSome?_map, List.map_findSome?]
  congr 1
  funext scope
  exact scope.lookup_respell hspell name

/-- Binding a symbol commutes with respelling. -/
theorem bind_respell (symbol : Symbol) :
    (table.respell spell shift).bind ((Renaming.respell spell shift).symbol symbol) =
      (table.bind symbol).respell spell shift := by
  obtain ⟨globals, inner, nextId, errors⟩ := table
  cases inner <;> rfl

/-- So does leaving out an id. -/
theorem skipId_respell : (table.respell spell shift).skipId = table.skipId.respell spell shift := by
  simp only [skipId, respell, Nat.add_right_comm]

/-- So does reporting a problem. -/
theorem report_respell (problem : Diagnostic) :
    (table.respell spell shift).report (problem.respell spell) =
      (table.report problem).respell spell shift := by
  simp [report, respell]

/-- So does declaring a name, whether or not it succeeds. -/
theorem add_respell (hspell : Function.Injective spell) (shift : Nat) (pos : Position)
    (name : String) (ty : Ty) :
    (table.respell spell shift).add {} (spell name) ty =
      ((Renaming.respell spell shift).symbol (table.add pos name ty).1,
        (table.add pos name ty).2.respell spell shift) := by
  have hfound : (((table.respell spell shift).current.lookup (spell name)).isSome = true) =
      ((table.current.lookup name).isSome = true) := by
    rw [current_respell, Scope.lookup_respell hspell, Option.isSome_map]
  unfold add
  simp only [hfound]
  split
  · rw [skipId_respell, ← report_respell]
    rfl
  · rw [skipId_respell, ← bind_respell]
    rfl

/-- So does using one. -/
theorem lookup_respell (hspell : Function.Injective spell) (shift : Nat) (pos : Position)
    (name : String) :
    (table.respell spell shift).lookup {} (spell name) =
      ((Renaming.respell spell shift).symbol (table.lookup pos name).1,
        (table.lookup pos name).2.respell spell shift) := by
  unfold lookup
  rw [find?_respell table hspell]
  cases table.find? name with
  | some symbol => rfl
  | none =>
    simp only [Option.map_none, skipId_respell, ← report_respell]
    rfl

/-- So does declaring the run-time functions, if their names are kept. -/
theorem declareAll_respell {entries : List (String × Ty)}
    (hentries : ∀ entry ∈ entries, spell entry.1 = entry.1) (index : Nat) (scope : Scope) :
    (declareAll index entries scope).respell spell shift =
      declareAll (index + shift) entries (scope.respell spell shift) := by
  induction entries generalizing index scope with
  | nil => rfl
  | cons entry rest ih =>
    rw [List.forall_mem_cons] at hentries
    have hfirst : (Renaming.respell spell shift).symbol (.declared index entry.1 entry.2) =
        .declared (index + shift) entry.1 entry.2 := by
      simp only [Renaming.symbol, Renaming.respell, Symbol.declared, hentries.1]
    rw [declareAll, declareAll, ih hentries.2, Nat.add_right_comm, Scope.respell,
      List.map_cons, hfirst, hentries.1]
    rfl

/-- The names of the run-time functions are kept, so a new table is a new table. -/
theorem new_respell (hbuiltins : ∀ entry ∈ builtins, spell entry.1 = entry.1) (nextId : Nat) :
    (new nextId).respell spell shift = new (nextId + shift) := by
  rw [new, respell, declareAll_respell hbuiltins, new, Nat.add_right_comm]
  rfl

end SymbolTable

/-- Resolution of the bare form goes along with that of the tree. -/
theorem Relabelling.bare_carries (hspell : Function.Injective spell) (shift : Nat) :
    (Relabelling.bare spell).Carries (.respell spell shift) (SymbolTable.respell spell shift) where
  place := rfl
  ty := rfl
  declare ident ty table := by
    have hadd := table.add_respell hspell shift ident.pos ident.name ty
    let answer := (table.respell spell shift).add {} (spell ident.name) ty
    change (Ident.mk {} (spell ident.name) (some answer.1), answer.2) = _
    rw [show answer = _ from hadd]
    rfl
  resolve ident table := by
    have hlookup := table.lookup_respell hspell shift ident.pos ident.name
    let answer := (table.respell spell shift).lookup {} (spell ident.name)
    change (Ident.mk {} (spell ident.name) (some answer.1), answer.2) = _
    rw [show answer = _ from hlookup]
    rfl
  enter _ := rfl
  leave table := by
    simp [SymbolTable.leave, SymbolTable.respell]

/-- Symbols in the slots are renamed as names are spelled. -/
theorem Relabelling.respell_renames (spell : String → String) (shift : Nat) :
    (Relabelling.respell spell shift).Renames (.respell spell shift) where
  symbol := rfl
  name := rfl
  injective {first second} h := by
    have hindex : first.index + shift = second.index + shift := congrArg SymbolId.index h
    have hsame : first.index = second.index := Nat.add_right_cancel hindex
    exact congrArg SymbolId.mk hsame

/-- Their types are kept. -/
theorem Relabelling.respell_keepsTypes (spell : String → String) (shift : Nat) :
    (Relabelling.respell spell shift).KeepsTypes := by
  intro symbol
  cases symbol <;> rfl

/-- The bare form is resolved to the respelled tree, with respelled problems. -/
theorem Tree.resolve_bare (hspell : Function.Injective spell)
    (hbuiltins : ∀ entry ∈ builtins, spell entry.1 = entry.1) (tree : Tree) (nextId shift : Nat) :
    (tree.relabel (.bare spell)).resolve (nextId + shift) =
      ((tree.resolve nextId).1.relabel (.respell spell shift),
        (tree.resolve nextId).2.respell spell shift) :=
  Tree.resolve_relabel (Relabelling.bare_carries hspell shift)
    (SymbolTable.new_respell hbuiltins nextId) tree

/-! ## Problems

Problems of names correspond one by one. Problems of types need not, but a tree has one exactly if
its bare form has. -/

/-- Resolution keeps the names of the top declarations. -/
theorem Tree.names_resolve (tree : Tree) (nextId : Nat) :
    (tree.resolve nextId).1.items.map Item.name = tree.items.map Item.name := by
  have herase : ∀ tree : Tree, tree.erase.items.map Item.name = tree.items.map Item.name := by
    intro tree
    rw [Tree.erase, Tree.relabel, List.map_map]
    refine List.map_congr_left fun item _ => ?_
    cases item <;> rfl
  rw [← herase, tree.erase_resolve nextId, herase]

/-- The names of the top declarations are kept in the resolved tree too. -/
theorem Tree.spell_resolve {tree : Tree} (hitems : ∀ item ∈ tree.items, spell item.name = item.name)
    (nextId : Nat) : ∀ item ∈ (tree.resolve nextId).1.items, spell item.name = item.name := by
  intro item hitem
  have hname : item.name ∈ tree.items.map Item.name := by
    rw [← tree.names_resolve nextId]
    exact List.mem_map_of_mem hitem
  obtain ⟨origin, horigin, hsame⟩ := List.mem_map.mp hname
  rw [← hsame]
  exact hitems origin horigin

/-- A tree has no problems exactly if its bare form has none. -/
theorem Tree.clean_bare (hspell : Function.Injective spell)
    (hbuiltins : ∀ entry ∈ builtins, spell entry.1 = entry.1) {tree : Tree}
    (hitems : ∀ item ∈ tree.items, spell item.name = item.name) (nextId shift : Nat) :
    ((tree.relabel (.bare spell)).check (nextId + shift)).diagnostics = [] ↔
      (tree.check nextId).diagnostics = [] := by
  simp only [Tree.check, Tree.resolve_bare hspell hbuiltins, List.append_eq_nil_iff,
    SymbolTable.respell, List.map_eq_nil_iff]
  exact and_congr_right fun _ =>
    Tree.diagnose_relabel (Relabelling.respell_keepsTypes spell shift)
      (tree.spell_resolve hitems nextId)

/-! ## Outcomes

Failures mention places and names, so they can be the same only in kind. -/

/-- The assembly of a checked tree, or why there is none. -/
def Checked.assembly (checked : Checked) (nextLabel : Nat) (room : Asm.Room) :
    Except CompileError Asm.Emission :=
  checked.program.map fun program => Asm.emit program nextLabel room

/-- The kind of a failure: without the problems, places and names that it mentions. -/
def CompileError.bare : CompileError → CompileError
  | .diagnostics _ => .diagnostics []
  | .lowering error => .lowering (error.relabel (.bare fun _ => ""))
  | .invalid violation => .invalid violation

/-- Lowering the bare form gives the renamed program, or the relabelled error. -/
theorem Tree.lower_bare (hspell : Function.Injective spell)
    (hbuiltins : ∀ entry ∈ builtins, spell entry.1 = entry.1) (tree : Tree)
    (nextId shift : Nat) :
    ((tree.relabel (.bare spell)).check (nextId + shift)).tree.lower =
      LowerError.outcome (.respell spell shift) (Program.rename (.respell spell shift))
        (tree.check nextId).tree.lower := by
  simp only [Tree.check, Tree.resolve_bare hspell hbuiltins, Tree.lower_annotate]
  exact Tree.lower_relabel (Relabelling.respell_renames spell shift) rfl _

/-- A tree without problems and its bare form have the same assembly, or fail in the same way, if
the names in the program are kept. -/
theorem Tree.assembly_bare (hspell : Function.Injective spell)
    (hbuiltins : ∀ entry ∈ builtins, spell entry.1 = entry.1) {tree : Tree}
    (hitems : ∀ item ∈ tree.items, spell item.name = item.name) {nextId : Nat}
    (hclean : (tree.check nextId).diagnostics = [])
    (hkeeps : ∀ program, (tree.check nextId).tree.lower = .ok program →
      program.Keeps (.respell spell shift)) (nextLabel : Nat) (room : Asm.Room) :
    (((tree.relabel (.bare spell)).check (nextId + shift)).assembly nextLabel room).mapError
        CompileError.bare =
      ((tree.check nextId).assembly nextLabel room).mapError CompileError.bare := by
  have hclean' := (Tree.clean_bare hspell hbuiltins hitems nextId shift).mpr hclean
  have hlower' := Tree.lower_bare hspell hbuiltins tree nextId shift
  unfold Checked.assembly Checked.program
  rw [hclean, hclean', hlower']
  cases hlower : (tree.check nextId).tree.lower with
  | error error => cases error <;> rfl
  | ok program =>
    have hprogram := hkeeps program hlower
    simp only [LowerError.outcome, Program.violation?_rename hprogram]
    cases program.violation? with
    | some violation => rfl
    | none => exact congrArg Except.ok (Asm.emit_rename hprogram nextLabel room)

end

/-! ## Names that are kept

The names in a program are those of its routines and globals, and those it refers to. Each of them
is spelled like something global. -/

section

variable {spell : String → String} {tree : Tree} {nextId : Nat} {symbol : Symbol}

/-- What is global keeps its name. -/
theorem Tree.Resolved.spell_eq (h : (tree.resolve nextId).1.Resolved nextId)
    (hbuiltins : ∀ entry ∈ builtins, spell entry.1 = entry.1)
    (hitems : ∀ item ∈ tree.items, spell item.name = item.name)
    (hmem : symbol ∈ (tree.resolve nextId).1.callables nextId ++
      (tree.resolve nextId).1.globalSymbols) :
    spell symbol.name = symbol.name := by
  have hkept := tree.spell_resolve hitems nextId
  rcases List.mem_append.mp hmem with hmem | hmem
  · rcases List.mem_append.mp hmem with hmem | hmem
    · obtain ⟨entry, hentry, hname, -⟩ := Tree.Resolved.exists_runtime hmem
      rw [hname]
      exact hbuiltins entry hentry
    · obtain ⟨definition, hitem, -, -, hname, -⟩ := h.exists_function hmem
      rw [hname]
      exact hkept _ hitem
  · obtain ⟨decl, hitem, -, -, hname, -⟩ := h.exists_global hmem
    rw [hname]
    exact hkept _ hitem

/-- No parameter or local can be called. -/
theorem Tree.Resolved.ty_ne_of_local (h : (tree.resolve nextId).1.Resolved nextId)
    (hlocals : ∀ definition, Item.function definition ∈ tree.items →
      ∀ ty ∈ definition.localTypes, ty.isFunction = false)
    (hmem : symbol ∈ (tree.resolve nextId).1.localSymbols) (params : List Ty) (ret : Ty) :
    symbol.ty ≠ some (.func params ret) := by
  intro hty
  obtain ⟨occurrence, hoccurrence, hscope, hdeclared⟩ := h.exists_local hmem
  obtain ⟨origin, horigin, hsame, hdeclared'⟩ := Tree.exists_origin hoccurrence
  obtain ⟨item, hitem, m, hmem⟩ := Item.exists_of_mem_occurrencesAll horigin
  rw [← hsame] at hscope
  cases item with
  | global decl =>
    obtain rfl := List.mem_singleton.mp hmem
    exact hscope rfl
  | function definition =>
    rcases List.mem_cons.mp hmem with rfl | hinside
    · exact hscope rfl
    · have hfunc := hdeclared'.trans (hdeclared.trans hty)
      have hlocal := (FunDef.localTo_of_mem hinside).ty_mem _ hfunc
      cases hlocals definition hitem _ hlocal

/-- All names in the program of a tree without problems are kept. -/
theorem Tree.keeps_of_lower (hbuiltins : ∀ entry ∈ builtins, spell entry.1 = entry.1)
    (hitems : ∀ item ∈ tree.items, spell item.name = item.name)
    (hfree : ∀ ty ∈ tree.declaredTypes, ty.errorFree = true)
    (hlocals : ∀ definition, Item.function definition ∈ tree.items →
      ∀ ty ∈ definition.localTypes, ty.isFunction = false)
    (hclean : (tree.check nextId).diagnostics = []) {program : Program}
    (hlower : (tree.check nextId).tree.lower = .ok program) (shift : Nat) :
    program.Keeps (.respell spell shift) := by
  have hok : ∀ entry ∈ builtins, Ty.errorFree entry.2 = true := by decide
  have hplain := Tree.plain_of_lower hlower hfree
  have hquiet : (tree.resolve nextId).2.errors = [] := (List.append_eq_nil_iff.mp hclean).1
  have htyped := Tree.wellTyped_of_clean hfree hclean
  have hresolved := Tree.resolved_of_resolve hquiet
  -- functions, builtins and globals keep their names, so it is enough to refer to these
  have hkept : ∀ {symbol : Symbol},
      symbol ∈ (tree.resolve nextId).1.callables nextId ++ (tree.resolve nextId).1.globalSymbols →
        spell symbol.name = symbol.name := hresolved.spell_eq hbuiltins hitems
  have hreferences := Tree.references_of_lower hok hplain hquiet hlower
  refine ⟨fun routine hroutine => ?_, fun global hglobal => ?_, fun reference hreference => ?_⟩
  · have hname : routine.name ∈ program.routines.map (·.name) := List.mem_map_of_mem hroutine
    rw [Tree.names_of_lower ((Tree.lower_annotate _).symm.trans hlower)] at hname
    obtain ⟨symbol, hsymbol, hsame⟩ := List.mem_map.mp hname
    rw [← hsame]
    exact hkept (List.mem_append_left _ (List.mem_append_right _ hsymbol))
  · have hsymbol : global.symbol ∈ program.globals.map (·.symbol) := List.mem_map_of_mem hglobal
    rw [Tree.globals_of_lower hlower] at hsymbol
    exact hkept (List.mem_append_right _ hsymbol)
  · rw [hreferences] at hreference
    cases reference with
    | call symbol =>
      refine congrArg Reference.call (hkept ?_)
      rcases hresolved.of_call_mem htyped hreference with hfunction | ⟨hvariable, params, ret, hty⟩
      · exact List.mem_append_left _ hfunction
      · rcases List.mem_append.mp hvariable with hglobal | hlocal
        · exact List.mem_append_right _ hglobal
        · exact absurd hty (hresolved.ty_ne_of_local hlocals hlocal params ret)
    | address symbol =>
      refine congrArg Reference.address (hkept ?_)
      rcases hresolved.of_address_mem htyped .all hreference with hglobal | ⟨hfunction, -⟩
      · exact List.mem_append_right _ hglobal
      · exact List.mem_append_left _ hfunction

end

/-! ## Trees that are spelled differently

The main statement, for two trees and two ways to number symbols. -/

/-- The second tree is the first one with names spelled anew. Places and slots may differ in any
way. -/
def Tree.RespelledAs (spell : String → String) (tree tree' : Tree) : Prop :=
  tree'.relabel (.bare id) = tree.relabel (.bare spell)

/-- Spelling every name as it is keeps all of them. -/
theorem Program.keeps_id (program : Program) (shift : Nat) : program.Keeps (.respell id shift) where
  routines _ _ := rfl
  globals _ _ := rfl
  references reference _ := by
    cases reference <;> rfl

/-- The names of parameters and locals, the places, and the numbering of symbols do not show. If
names are spelled anew so that different names stay different and all that is global keeps its name,
then a tree has problems exactly when it had some before, whatever ids its symbols start from.
Without problems it has the same assembly as before, or fails in the same way, unless a parameter or
local might be called. -/
theorem Tree.assembly_of_respelledAs {spell : String → String} (hspell : Function.Injective spell)
    (hbuiltins : ∀ entry ∈ builtins, spell entry.1 = entry.1) {tree tree' : Tree}
    (hitems : ∀ item ∈ tree.items, spell item.name = item.name)
    (hfree : ∀ ty ∈ tree.declaredTypes, ty.errorFree = true)
    (hlocals : ∀ definition, Item.function definition ∈ tree.items →
      ∀ ty ∈ definition.localTypes, ty.isFunction = false)
    (hrespelled : tree.RespelledAs spell tree') (nextId nextId' : Nat) :
    ((tree.check nextId).diagnostics = [] ↔ (tree'.check nextId').diagnostics = []) ∧
    ((tree.check nextId).diagnostics = [] → ∀ nextLabel room,
      ((tree.check nextId).assembly nextLabel room).mapError CompileError.bare =
        ((tree'.check nextId').assembly nextLabel room).mapError CompileError.bare) := by
  -- both are compared with their common bare form, from a later id than either starts from
  have hclean := Tree.clean_bare hspell hbuiltins hitems nextId nextId'
  have hclean' := Tree.clean_bare Function.injective_id (fun _ _ => rfl)
    (fun item (_ : item ∈ tree'.items) => rfl) nextId' nextId
  rw [hrespelled, Nat.add_comm] at hclean'
  have hiff := hclean.symm.trans hclean'
  refine ⟨hiff, fun hquiet nextLabel room => ?_⟩
  have hassembly := Tree.assembly_bare hspell hbuiltins hitems hquiet
    (fun _ hlower => Tree.keeps_of_lower hbuiltins hitems hfree hlocals hquiet hlower nextId')
    nextLabel room
  have hassembly' := Tree.assembly_bare Function.injective_id (fun _ _ => rfl)
    (fun item (_ : item ∈ tree'.items) => rfl) (hiff.mp hquiet)
    (fun program _ => program.keeps_id nextId) nextLabel room
  rw [hrespelled, Nat.add_comm] at hassembly'
  exact hassembly.symm.trans hassembly'

/-- A function that adds up, with the given names for its parameter and its local, and `main`. -/
def summingTree (limit index : String) (pos : Position) : Tree :=
  let name (text : String) : Ident := { pos := pos, name := text }
  let var (text : String) : Expr := .var { pos := pos } (name text)
  let set (text : String) (value : Expr) : Assignment :=
    { info := { pos := pos }, location := var text, value := value }
  { items :=
      [.global { ident := name "total", declared := .int },
        .function
          { ident := name "sum", params := [{ ident := name limit, declared := .int }], ret := .int,
            body :=
              { stmts :=
                  [.declare {} { ident := name index, declared := .int },
                    .loop { pos := pos } (set index (.int {} 0))
                      (.binary {} (.compare .lt) (var index) (var limit))
                      (set index (.binary {} (.arith .add) (var index) (.int {} 1)))
                      { stmts := [.assign {} (set "total"
                          (.binary {} (.arith .add) (var "total") (var index)))] },
                    .ret {} (some (var "total"))] } },
        .function
          { ident := name "main", params := [], ret := .void,
            body :=
              { stmts := [.call {} (name "printInt") [.call {} (name "sum") [.int {} 4]]] } }] }

/-- The parameter and the local exchange their names. -/
theorem Tree.assembly_of_respelledAs_swap :
    ((summingTree "i" "n" ⟨7, 3⟩).check 40).diagnostics = [] ∧
      ∀ nextLabel room,
        (((summingTree "n" "i" {}).check 0).assembly nextLabel room).mapError CompileError.bare =
          (((summingTree "i" "n" ⟨7, 3⟩).check 40).assembly nextLabel room).mapError
            CompileError.bare := by
  have hclean : ((summingTree "n" "i" {}).check 0).diagnostics = [] := by decide +kernel
  have hlocals : ∀ definition, Item.function definition ∈ (summingTree "n" "i" {}).items →
      ∀ ty ∈ definition.localTypes, ty.isFunction = false := by
    intro definition hmem
    simp only [summingTree, List.mem_cons, reduceCtorEq, Item.function.injEq,
      List.not_mem_nil, false_or, or_false] at hmem
    rcases hmem with rfl | rfl <;> decide
  obtain ⟨hiff, hassembly⟩ := Tree.assembly_of_respelledAs (Equiv.swap "n" "i").injective
    (by decide +kernel) (by simp [summingTree, Item.name, Equiv.swap_apply_def])
      (by decide +kernel) hlocals
    (show (summingTree "n" "i" {}).RespelledAs _ (summingTree "i" "n" ⟨7, 3⟩) from rfl) 0 40
  exact ⟨hiff.mp hclean, hassembly hclean⟩

end WordLang
