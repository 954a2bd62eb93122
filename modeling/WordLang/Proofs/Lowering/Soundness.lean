import Mathlib.Data.List.Forall2
import WordLang.Proofs.Lowering.Chains

/-!
# Lowered routines are sound

Soundness is about the whole arena, reachable or not. It is what validation asks for, and more, with
one exception: whether a call has as many arguments as the callee's type has parameters is for type
checking to say. So a program that was lowered from any tree at all, checked or not, has only that
one kind of violation (`Tree.lower_sound`).

A routine is sound with respect to the constants of the program. The pool grows from function to
function, and soundness survives that. What else a program has of its tree, in the order of the
items, is said here too: one global for each variable and one routine for each function
(`Program.Adds`).

The work is in the invariant of lowering (`Builder.Builds`), which already says of each instruction
that its registers exist and where its edges lead. Here it is used once, for a whole body. There
nothing is pending any more and there is no loop around from which a break could lead out, so all
that the invariant leaves open is settled. The one thing to arrange is the beginning: an arena
starts with an instruction of its own, and the body is built from the arena without it
(`Builder.emptied`).
-/

namespace WordLang

/-- An instruction is in order, wherever it stands. -/
structure Inst.Sound (constants : List Constant) (routine : Routine) (inst : Inst) : Prop where
  /-- edges lead to instructions of the routine -/
  targets : ∀ id : Nat, id ∈ inst.successors → id < routine.insts.size
  /-- a jump has both edges -/
  complete : inst.kind.isJump = true → inst.next.isSome = true ∧ inst.onTrue.isSome = true
  /-- only a jump has a true side -/
  branch : inst.onTrue.isSome = true → inst.kind.isJump = true
  /-- a return leads nowhere -/
  final : inst.kind.isReturn = true → inst.successors = []
  /-- registers are the routine's own -/
  owned : ∀ register ∈ inst.kind.registers, routine.owns register = true
  /-- constants are in the pool -/
  pooled : ∀ id : Nat, Operand.const id ∈ inst.kind.operands → id < constants.length

/-- A jump decides by a register. -/
theorem InstKind.exists_jump {kind : InstKind} (h : kind.isJump = true) :
    ∃ cond, kind = .jump cond := by
  cases kind with
  | jump cond => exact ⟨cond, rfl⟩
  | _ => cases h

/-- How an instruction leads on: not at all, to another one, or as a jump to one of two. -/
inductive Inst.LeadsOn (inst : Inst) : Prop where
  | stop (hjump : inst.kind.isJump = false) (hnext : inst.next = none)
  | next {target : InstId} (hjump : inst.kind.isJump = false) (hnext : inst.next = some target)
  | jump {cond : Temp} {onFalse onTrue : InstId} (hkind : inst.kind = .jump cond)
      (hnext : inst.next = some onFalse) (htrue : inst.onTrue = some onTrue)

namespace Inst.Sound

variable {constants : List Constant} {routine : Routine} {inst : Inst}

/-- A jump that is in order has both sides. -/
theorem exists_targets (h : inst.Sound constants routine) (hjump : inst.kind.isJump = true) :
    ∃ onFalse onTrue, inst.next = some onFalse ∧ inst.onTrue = some onTrue := by
  obtain ⟨hnext, htrue⟩ := h.complete hjump
  obtain ⟨onFalse, hnext⟩ := Option.isSome_iff_exists.mp hnext
  obtain ⟨onTrue, htrue⟩ := Option.isSome_iff_exists.mp htrue
  exact ⟨onFalse, onTrue, hnext, htrue⟩

/-- Nothing else has a true side. -/
theorem onTrue_eq_none (h : inst.Sound constants routine) (hjump : inst.kind.isJump = false) :
    inst.onTrue = none := by
  by_contra hne
  have hbranch := h.branch (Option.isSome_iff_ne_none.mpr hne)
  rw [hjump] at hbranch
  cases hbranch

/-- There is no other way on from an instruction that is in order. -/
theorem leadsOn (h : inst.Sound constants routine) : inst.LeadsOn := by
  rcases hjump : inst.kind.isJump with _ | _
  · rcases hnext : inst.next with _ | target
    · exact .stop hjump hnext
    · exact .next hjump hnext
  · obtain ⟨cond, hkind⟩ := InstKind.exists_jump hjump
    obtain ⟨onFalse, onTrue, hnext, htrue⟩ := h.exists_targets hjump
    exact .jump hkind hnext htrue

end Inst.Sound

/-- A routine is in order: where it starts, its arguments, and all of its instructions. -/
structure Routine.Sound (constants : List Constant) (routine : Routine) : Prop where
  start : routine.holds routine.start = true
  args : ∀ arg ∈ routine.args, routine.owns (.temp arg) = true
  insts : ∀ (id : Nat) inst, routine.insts[id]? = some inst → inst.Sound constants routine

/-- Every routine of a program is in order. -/
def Program.Sound (program : Program) : Prop :=
  ∀ routine ∈ program.routines, routine.Sound program.constants

/-- A pool that grew still has what was in it. -/
theorem Routine.Sound.mono {constants pool : List Constant} {routine : Routine}
    (h : routine.Sound constants) (hpool : constants <+: pool) : routine.Sound pool := by
  refine ⟨h.start, h.args, fun id inst hinst => ?_⟩
  have hsound := h.insts id inst hinst
  exact { hsound with
    pooled := fun id hid => Nat.lt_of_lt_of_le (hsound.pooled id hid) hpool.length_le }

/-! ## Functions

Parameters first, then the body as a single part. -/

/-- Parameters take registers and leave the rest of the builder alone. -/
theorem Param.keeps_of_lowerAll (params : List Param) {b b' : Builder} {temps : List Temp}
    (hb : b.Settled) (h : Param.lowerAll params b = .ok (temps, b')) :
    b'.Settled ∧ b'.constants = b.constants ∧ b'.routine.insts = b.routine.insts ∧
      b'.routine.start = b.routine.start ∧ b.routine.temps ≤ b'.routine.temps ∧
        ∀ t ∈ temps, t.index < b'.routine.temps := by
  induction params generalizing b temps with
  | nil =>
    obtain ⟨rfl, rfl⟩ := Param.lowerAll_nil_eq_ok.mp h
    exact ⟨hb, rfl, rfl, rfl, Nat.le_refl _, fun _ ht => absurd ht List.not_mem_nil⟩
  | cons param rest ih =>
    obtain ⟨symbol, -, others, hrest, rfl⟩ := Param.lowerAll_cons_eq_ok.mp h
    obtain ⟨hsettled, hpool, hinsts, hstart, htemps, hothers⟩ :=
      ih (hb.grows ((Builder.Grows.refl b).bindNext symbol)) hrest
    rw [Builder.temps_bindNext] at htemps
    refine ⟨hsettled, hpool, hinsts, hstart, by omega, ?_⟩
    rw [List.forall_mem_cons]
    exact ⟨htemps, hothers⟩

/-- The arena without its first instruction, which is there from the start. -/
def Builder.emptied (b : Builder) : Builder :=
  { b with routine := { b.routine with insts := #[] } }

/-- Adding the first instruction to the emptied arena gives the arena that there was. -/
theorem Builder.push_emptied {b : Builder} (h : b.routine.insts = #[{ kind := .nop }]) :
    b.emptied.push .nop = b := by
  obtain ⟨constants, ⟨name, ty, args, start, insts, temps, addrs⟩, locals⟩ := b
  subst h
  rfl

/-- The whole body is one part, built from an arena without instructions. -/
theorem Builder.spans_start {b : Builder} (hinsts : b.routine.insts = #[{ kind := .nop }])
    (hstart : b.routine.start = 0) :
    b.emptied.Spans none b.routine.start b.routine.start b := by
  have hnop : b.emptied.Spans none b.routine.start b.routine.start (b.emptied.push .nop) :=
    .nop hstart
  rwa [Builder.push_emptied hinsts] at hnop

/-- A return is no jump. -/
theorem InstKind.isJump_eq_false_of_isReturn {kind : InstKind} (h : kind.isReturn = true) :
    kind.isJump = false := by
  cases kind with
  | ret _ => rfl
  | _ => cases h

/-- What was built from no instructions is in order once no edges are missing and no breaks lead out
of it. -/
theorem Builder.Builds.sound {b₀ b : Builder} (h : b₀.Builds none [] b) (hempty : b₀.size = 0)
    {id : Nat} {inst : Inst} (hinst : b.inst? id = some inst) :
    inst.Sound b.constants b.routine := by
  have hnew : b₀.size ≤ id := hempty ▸ Nat.zero_le id
  have hadmits := h.admits id inst hnew hinst
  refine ⟨?_, ?_, hadmits.branch, ?_, hadmits.owned, hadmits.pooled⟩
  · intro target htarget
    rcases hadmits.targets target htarget with ⟨-, hlt⟩ | hout
    · exact hlt
    · cases hout
  · intro hjump
    exact h.complete id inst hnew hinst hjump List.not_mem_nil
  · intro hret
    have htrue : inst.onTrue = none := by
      rcases htrue : inst.onTrue with _ | target
      · rfl
      · have hjump := hadmits.branch (by rw [htrue]; rfl)
        rw [InstKind.isJump_eq_false_of_isReturn hret] at hjump
        cases hjump
    rw [Inst.successors, hadmits.final hret, htrue]
    rfl

/-- A function is lowered to a sound routine, and keeps the constants that there were. -/
theorem FunDef.sound_of_lower {definition : FunDef} {constants pool : List Constant}
    {routine : Routine} (h : definition.lower constants = .ok (routine, pool)) :
    routine.Sound pool ∧ constants <+: pool := by
  obtain ⟨symbol, -, args, b₁, hargs, last, b₂, hbody, rfl, rfl⟩ := FunDef.lower_eq_ok.mp h
  obtain ⟨hsettled, hpool, hinsts, hstart, -, hvalues⟩ :=
    Param.keeps_of_lowerAll definition.params (fun _ he => absurd he List.not_mem_nil) hargs
  have hnop : (b₁.withArgs args).emptied.Spans none b₁.routine.start b₁.routine.start
    (b₁.withArgs args) := Builder.spans_start hinsts hstart
  have hsettled' : (b₁.withArgs args).Settled := hsettled
  have hspans := Stmt.spans_of_lowerAll definition.body.stmts hsettled' hnop hbody
  have hgrows := hspans.grows
  refine ⟨⟨?_, ?_, ?_⟩, ?_⟩
  · rw [Routine.holds, hgrows.start_eq]
    exact decide_eq_true hspans.entry_lt
  · rw [hgrows.args_eq]
    intro arg harg
    exact Builder.owns_temp_iff.mpr (Nat.lt_of_lt_of_le (hvalues arg harg) hgrows.temps_le)
  · intro id inst hinst
    exact hspans.builds.sound rfl hinst
  · have hprefix : b₁.constants <+: b₂.constants := hgrows.pool
    rw [hpool] at hprefix
    exact hprefix

/-! ## Programs

Items are lowered into a program that grows. By induction on the items: what the program had is
kept, and each item adds its global or its routine. -/

/-- The function of a top declaration, if it is one. -/
def Item.function? : Item → Option FunDef
  | .function definition => some definition
  | .global _ => none

/-- The functions of a tree, in order. -/
def Tree.functions (tree : Tree) : List FunDef :=
  tree.items.filterMap Item.function?

/-- The variable of a top declaration, if it is one. -/
def Item.global? : Item → Option VarDecl
  | .function _ => none
  | .global decl => some decl

/-- What lowering items adds to a program, in order: a global for each variable, and a routine for
each function. The constants that a function needs are in the pool from then on. -/
structure Program.Adds (program : Program) (items : List Item) (program' : Program) : Prop where
  pool : program.constants <+: program'.constants
  globals : ∃ globals, program'.globals = program.globals ++ globals ∧
    List.Forall₂ (fun decl global =>
        decl.ident.resolved = .ok global.symbol ∧ global.elements = decl.elements)
      (items.filterMap Item.global?) globals
  routines : ∃ routines, program'.routines = program.routines ++ routines ∧
    List.Forall₂ (fun definition routine => ∃ constants pool,
        definition.lower constants = .ok (routine, pool) ∧ pool <+: program'.constants)
      (items.filterMap Item.function?) routines

/-- What lowering all items adds. -/
theorem Item.adds_of_lowerAll {items : List Item} {program program' : Program}
    (h : items.foldlM Item.lower program = .ok program') : program.Adds items program' := by
  induction items generalizing program with
  | nil =>
    cases h
    exact ⟨List.prefix_refl _, ⟨[], (List.append_nil _).symm, .nil⟩,
      ⟨[], (List.append_nil _).symm, .nil⟩⟩
  | cons item rest ih =>
    obtain ⟨mid, hitem, hrest⟩ := Item.lowerAll_cons_eq_ok.mp h
    obtain ⟨hpool, ⟨globals, hglobals, hdecls⟩, ⟨routines, hroutines, hfunctions⟩⟩ := ih hrest
    cases item with
    | global decl =>
      obtain ⟨symbol, hsymbol, rfl⟩ := Item.lower_global_eq_ok.mp hitem
      refine ⟨hpool, ⟨{ symbol, elements := decl.elements } :: globals, ?_,
        .cons ⟨hsymbol, rfl⟩ hdecls⟩, ⟨routines, hroutines, hfunctions⟩⟩
      rw [hglobals, List.append_assoc, List.singleton_append]
    | function definition =>
      obtain ⟨routine, pool, hlower, rfl⟩ := Item.lower_function_eq_ok.mp hitem
      refine ⟨(FunDef.sound_of_lower hlower).2.trans hpool, ⟨globals, hglobals, hdecls⟩,
        ⟨routine :: routines, ?_, .cons ⟨_, pool, hlower, hpool⟩ hfunctions⟩⟩
      rw [hroutines, List.append_assoc, List.singleton_append]

/-- If what is kept of two lists corresponds member by member, then the lists that are kept
correspond. -/
theorem filterMap_of_forall₂ {α β γ : Type} {f : α → Option γ} {g : β → γ} {as : List α}
    {bs : List β} (h : List.Forall₂ (fun a b => f a = some (g b)) as bs) :
    as.filterMap f = bs.map g := by
  induction h with
  | nil => rfl
  | cons hab _ ih => rw [List.filterMap_cons_some hab, List.map_cons, ih]

section

variable {tree : Tree} {program : Program}

/-- The functions of a tree are among its items. -/
theorem Tree.mem_items_of_mem_functions {definition : FunDef} (h : definition ∈ tree.functions) :
    Item.function definition ∈ tree.items := by
  obtain ⟨item, hmem, hitem⟩ := List.mem_filterMap.mp h
  cases item with
  | global decl => cases hitem
  | function other =>
    obtain rfl := Option.some.inj hitem
    exact hmem

/-- Each function of a tree is lowered to the routine at its place. -/
theorem Tree.forall₂_functions (h : tree.lower = .ok program) :
    List.Forall₂ (fun definition routine => Item.function definition ∈ tree.items ∧
        ∃ constants pool, definition.lower constants = .ok (routine, pool) ∧
          pool <+: program.constants)
      tree.functions program.routines := by
  obtain ⟨routines, hroutines, hall⟩ := (Item.adds_of_lowerAll h).routines
  rw [hroutines]
  exact (List.forall₂_and_left _ _).mpr ⟨fun _ => Tree.mem_items_of_mem_functions, hall⟩

/-- Each variable of a tree is lowered to the global at its place. -/
theorem Tree.forall₂_globals (h : tree.lower = .ok program) :
    List.Forall₂ (fun decl global =>
        decl.ident.resolved = .ok global.symbol ∧ global.elements = decl.elements)
      (tree.items.filterMap Item.global?) program.globals := by
  obtain ⟨globals, hglobals, hall⟩ := (Item.adds_of_lowerAll h).globals
  rw [hglobals]
  exact hall

/-- All routines of the program of a tree are sound. -/
theorem Tree.sound_of_lower (h : tree.lower = .ok program) : program.Sound := by
  have hsound : List.Forall₂ (fun routine _ => routine.Sound program.constants ∧ True)
      program.routines tree.functions := by
    refine ((Tree.forall₂_functions h).imp ?_).flip
    rintro definition routine ⟨-, constants, pool, hlower, hpool⟩
    exact ⟨(FunDef.sound_of_lower hlower).1.mono hpool, trivial⟩
  exact ((List.forall₂_and_left _ _).mp hsound).1

/-- What the globals of a program have can be read off the variables of the tree. -/
theorem Tree.map_globals {α : Type} {ofItem : Item → Option α} {ofGlobal : GlobalDecl → α}
    (h : tree.lower = .ok program) (hfunction : ∀ definition, ofItem (.function definition) = none)
    (hglobal : ∀ decl global, decl.ident.resolved = .ok global.symbol →
      global.elements = decl.elements → ofItem (.global decl) = some (ofGlobal global)) :
    program.globals.map ofGlobal = tree.items.filterMap ofItem := by
  have hall : List.Forall₂ (fun decl global => ofItem (.global decl) = some (ofGlobal global))
      (tree.items.filterMap Item.global?) program.globals :=
    (Tree.forall₂_globals h).imp fun decl global ⟨hsymbol, helements⟩ =>
      hglobal decl global hsymbol helements
  rw [← filterMap_of_forall₂ hall, List.filterMap_filterMap]
  refine List.filterMap_congr fun item _ => ?_
  cases item with
  | global decl => rfl
  | function definition => exact (hfunction definition).symm

/-- What the routines of a program have can be read off the functions of the tree. -/
theorem Tree.map_routines {α : Type} {ofItem : Item → Option α} {ofRoutine : Routine → α}
    (h : tree.lower = .ok program) (hglobal : ∀ decl, ofItem (.global decl) = none)
    (hfunction : ∀ definition, Item.function definition ∈ tree.items → ∀ routine constants pool,
      definition.lower constants = .ok (routine, pool) →
        ofItem (.function definition) = some (ofRoutine routine)) :
    program.routines.map ofRoutine = tree.items.filterMap ofItem := by
  have hall : List.Forall₂
      (fun definition routine => ofItem (.function definition) = some (ofRoutine routine))
      tree.functions program.routines :=
    (Tree.forall₂_functions h).imp fun definition routine ⟨hmem, constants, pool, hlower, _⟩ =>
      hfunction definition hmem routine constants pool hlower
  rw [← filterMap_of_forall₂ hall, Tree.functions, List.filterMap_filterMap]
  refine List.filterMap_congr fun item _ => ?_
  cases item with
  | global decl => exact (hglobal decl).symm
  | function definition => rfl

end

/-! ## Validation

Soundness without the count of arguments is everything that validation asks for, and it asks for it
only where control can get. -/

/-- A sound instruction has nothing wrong with it but its argument count. -/
theorem Inst.Sound.violation?_eq {constants : List Constant} {routine : Routine} {inst : Inst}
    (h : inst.Sound constants routine) (site : Site) :
    inst.violation? constants routine site = inst.arityViolation? site := by
  -- each part of the check is silent but the last, the number of arguments
  have htargets : inst.targetViolation? routine site = none := by
    rw [Inst.targetViolation?, if_pos]
    exact List.all_eq_true.mpr fun id hid => decide_eq_true (h.targets id hid)
  have hregisters : inst.registerViolation? routine site = none := by
    rw [Inst.registerViolation?, if_pos]
    exact List.all_eq_true.mpr h.owned
  have hconstant : inst.constantViolation? constants site = none := by
    unfold Inst.constantViolation?
    split
    · next dst id hkind =>
      rw [if_pos]
      refine h.pooled id ?_
      rw [hkind]
      exact List.mem_singleton.mpr rfl
    · rfl
  have hshape : inst.shapeViolation? site = none := by
    unfold Inst.shapeViolation?
    split
    · next cond hkind =>
      obtain ⟨onFalse, onTrue, hnext, htrue⟩ := h.exists_targets (by rw [hkind]; rfl)
      rw [if_pos]
      rw [Inst.successors, hnext, htrue]
      rfl
    · next value hkind =>
      rw [if_pos]
      rw [h.final (by rw [hkind]; rfl)]
      rfl
    · next hother _ =>
      rw [if_pos]
      cases h.leadsOn with
      | stop hjump _ | next hjump _ =>
        rw [h.onTrue_eq_none hjump]
        rfl
      | jump hkind => exact absurd hkind (hother _)
  simp [Inst.violation?, htargets, hregisters, hconstant, hshape]

/-- Whether a violation is a wrong argument count. -/
def Violation.IsArity (violation : Violation) : Prop :=
  ∃ site callee expected found, violation = .arityMismatch site callee expected found

/-- Counting arguments finds violations of that one kind. -/
theorem Inst.isArity_of_arityViolation? {site : Site} {inst : Inst} {violation : Violation}
    (h : inst.arityViolation? site = some violation) : violation.IsArity := by
  unfold Inst.arityViolation? at h
  split at h
  · split at h
    · split at h
      · cases h
      · cases h
        exact ⟨_, _, _, _, rfl⟩
    · cases h
  · cases h

/-- What validation finds wrong with a sound routine is the argument count of one of its calls. -/
theorem Routine.Sound.exists_arityViolation? {constants : List Constant} {routine : Routine}
    (h : routine.Sound constants) {violation : Violation}
    (hv : routine.violation? constants = some violation) :
    ∃ (id : InstId) (inst : Inst) (site : Site), routine.insts[id]? = some inst ∧
      inst.arityViolation? site = some violation := by
  have hargs : (routine.args.all fun arg => routine.owns (.temp arg)) = true :=
    List.all_eq_true.mpr h.args
  simp only [Routine.violation?, h.start, hargs, Bool.not_true, Bool.false_eq_true, if_false] at hv
  obtain ⟨id, -, hid⟩ := List.exists_of_findSome?_eq_some hv
  obtain ⟨inst, hinst, hviolation⟩ := Option.bind_eq_some_iff.mp hid
  rw [(h.insts id inst hinst).violation?_eq] at hviolation
  exact ⟨id, inst, _, hinst, hviolation⟩

/-- Validation finds nothing else in a program whose routines are sound. -/
theorem Program.Sound.isArity_of_violation? {program : Program} (h : program.Sound)
    {violation : Violation} (hv : program.violation? = some violation) : violation.IsArity := by
  obtain ⟨routine, hmem, hviolation⟩ := List.exists_of_findSome?_eq_some hv
  obtain ⟨id, inst, site, -, harity⟩ := (h routine hmem).exists_arityViolation? hviolation
  exact Inst.isArity_of_arityViolation? harity

/-- Whatever the tree, and whether or not it was checked: the routines that lowering makes are
sound, and validation finds nothing wrong with them except wrong argument counts. -/
theorem Tree.lower_sound {tree : Tree} {program : Program} (h : tree.lower = .ok program) :
    (program.violation? = none ∨
      ∃ site callee expected found,
        program.violation? = some (.arityMismatch site callee expected found)) ∧
      ∀ routine ∈ program.routines, routine.Sound program.constants := by
  have hsound := Tree.sound_of_lower h
  refine ⟨?_, hsound⟩
  rcases hv : program.violation? with _ | violation
  · exact .inl rfl
  · obtain ⟨site, callee, expected, found, rfl⟩ := hsound.isArity_of_violation? hv
    exact .inr ⟨site, callee, expected, found, rfl⟩

/-- A tree that no check has seen: a conditional, and in it a call without its argument. -/
def uncheckedTree : Tree :=
  let callee : Ident := { name := "f", symbol := some (.declared 0 "f" (.func [.int] .void)) }
  let main : Ident := { name := "main", symbol := some (.declared 1 "main" (.func [] .void)) }
  { items := [.function
      { ident := main, params := [], ret := .void,
        body := { stmts :=
          [.ifElse {} (.bool {} true) { stmts := [.call {} callee []] } { stmts := [] }] } }] }

/-- The tree above is lowered to a sound program, although its call passes too few arguments. -/
theorem Tree.lower_sound_unchecked :
    ∃ program, uncheckedTree.lower = .ok program ∧
      (program.violation? = none ∨
        ∃ site callee expected found,
          program.violation? = some (.arityMismatch site callee expected found)) ∧
        ∀ routine ∈ program.routines, routine.Sound program.constants := by
  have hok : uncheckedTree.lower.isOk = true := by decide +kernel
  rcases h : uncheckedTree.lower with error | program
  · rw [h] at hok
    cases hok
  · exact ⟨program, rfl, Tree.lower_sound h⟩

end WordLang
