import WordLang.Proofs.Asm.Slots
import WordLang.Proofs.Coverage
import WordLang.Proofs.Lowering.Registers
import WordLang.Proofs.WellLinked

/-!
# The size of frames

A function opens its frame with one instruction, whose operand has sixteen bits for the size in
bytes. The size comes from the number of registers that the function takes, an even number of words,
and nothing keeps it below that: a frame is as large as it should be exactly if the function takes
at most 8190 registers (`Tree.frames_of_compile`). There are trees without problems whose frames are
larger than any bound (`Tree.exists_compile_leaving`), so for some the operand is too large.

The size of a frame is seen in the text, and the number of registers in the tree. In between there
is the program: the frame of a routine has a slot for every register that its assembly mentions,
which need not be every register that was taken. But a register that is not mentioned was taken for
something that cannot be reached, and the frame has room for it all the same: the words of a frame
are counted by the registers that the routine owns. That is why a program can have a large frame and
use a single slot of it.

The witness is a function that returns before it comes to a sum with so many summands. Nothing runs
that sum, and no other rule is broken.
-/

namespace WordLang

/-! ## In the text

Frames are found in the text of a program by the instruction that opens one, which is spelled like
no other line. -/

namespace Asm

/-- No other instruction is spelled like the one that opens a frame. -/
theorem Instr.eq_enter_of_text {i : Instr} {words : Nat} (h : i.text = (Instr.enter words).text) :
    i = .enter words := by
  have hhead : i.text.toList.head? = some 'e' := by
    rw [h]
    simp [Instr.text]
  cases i with
  | enter other =>
    have hdigits : toString other = toString words := by simpa [Instr.text] using h
    rw [toString_nat_injective hdigits]
  | alu op src dst => cases op <;> simp [Instr.text, Alu.mnemonic] at hhead
  | cmov op src dst => cases op <;> simp [Instr.text, cmovMnemonic] at hhead
  | _ => simp [Instr.text] at hhead

/-- Nor is another line, whatever names there are. -/
theorem Line.eq_enter_of_text {line : Line} {words : Nat}
    (h : line.text = (Line.instr (.enter words)).text) : line = .instr (.enter words) := by
  cases line with
  | instr i => rw [Instr.eq_enter_of_text ((String.append_right_inj _).mp h)]
  | entry name =>
    have hlast := congrArg (fun text => text.toList.getLast?) h
    simp [Line.text, Instr.text, List.getLast?_cons, List.getLast?_append] at hlast
  | label number =>
    have hhead := congrArg (fun text => text.toList.head?) h
    simp [Line.text, Instr.text, labelText] at hhead
  | _ =>
    have hfifth := congrArg (fun text => text.toList[4]?) h
    simp [Line.text, Instr.text] at hfifth

/-- A frame is opened in the text exactly if it is opened in the lines. -/
theorem mem_map_text_enter {lines : List Line} {words : Nat} :
    (Line.instr (.enter words)).text ∈ lines.map Line.text ↔ .instr (.enter words) ∈ lines := by
  refine ⟨fun hmem => ?_, List.mem_map_of_mem⟩
  obtain ⟨line, hline, htext⟩ := List.mem_map.mp hmem
  rwa [Line.eq_enter_of_text htext] at hline

/-- No operand opens a frame. -/
theorem Operand.frameUse?_ne_opening (operand : Operand) (words : Nat) :
    operand.frameUse? ≠ some (.opening words) := by
  cases operand <;> simp [Operand.frameUse?]

/-- The instruction that opens a frame says so, and no other does. -/
theorem Instr.opening_mem_frameUses {i : Instr} {words : Nat} :
    .opening words ∈ i.frameUses ↔ i = .enter words := by
  cases i with
  | enter other => simp [Instr.frameUses, eq_comm]
  | mov src dst => simp [Instr.frameUses, Operand.frameUse?_ne_opening]
  | alu op src dst => simp [Instr.frameUses, Operand.frameUse?_ne_opening]
  | push src => simp [Instr.frameUses, Operand.frameUse?_ne_opening]
  | _ => simp [Instr.frameUses]

/-- So it is for lines. -/
theorem opening_mem_frameUses {lines : List Line} {words : Nat} :
    .opening words ∈ frameUses lines ↔ .instr (.enter words) ∈ lines := by
  rw [frameUses, List.mem_flatMap]
  constructor
  · rintro ⟨line, hline, hopening⟩
    cases line with
    | instr i =>
      obtain rfl := Instr.opening_mem_frameUses.mp hopening
      exact hline
    | _ => simp at hopening
  · exact fun hline => ⟨_, hline, List.mem_singleton_self _⟩

/-- What the text of a function begins with, with a frame of so many words. -/
def heading (name : String) (words : Nat) : List Line :=
  [.exported name, .entry name, .instr (.enter words)]

section

variable {constants : List Constant} {routine : Routine} {words : Nat}

/-- The code of a routine begins with its name and its frame. -/
theorem heading_prefix_routineCode (h : routine.Valid constants) (base : Nat) :
    heading routine.name routine.frameWords <+: (routineCode constants base routine).lines := by
  rw [lines_routineCode h base, prologue, List.append_assoc]
  exact List.prefix_append _ _

/-- A routine opens no frame but its own. -/
theorem mem_enter_routineCode (h : routine.Valid constants) (base : Nat) :
    .instr (.enter words) ∈ (routineCode constants base routine).lines ↔
      words = routine.frameWords := by
  rw [← opening_mem_frameUses, frameUses_routineCode h base, List.mem_cons]
  simp [Context.frameUse]

end

/-- Every routine is written, with some number for its first label. -/
theorem exists_mem_numbered {routines : List Routine} {routine : Routine}
    (h : routine ∈ routines) (nextLabel : Nat) :
    ∃ base, (base, routine) ∈ numbered nextLabel routines := by
  rw [← map_snd_numbered nextLabel routines] at h
  obtain ⟨entry, hentry, rfl⟩ := List.mem_map.mp h
  exact ⟨entry.1, hentry⟩

section

variable {program : Program} (hvalid : program.violation? = none)
  (hsized : (Fragment.join (program.globals.map globalCode)).halt = none)

include hvalid hsized

/-- The name and the frame of each routine are in the code of the program. -/
theorem heading_infix_code {routine : Routine} (hroutine : routine ∈ program.routines)
    (nextLabel : Nat) : heading routine.name routine.frameWords <:+: code program nextLabel := by
  obtain ⟨base, hentry⟩ := exists_mem_numbered hroutine nextLabel
  have hprefix := heading_prefix_routineCode (valid_of_violation? hvalid routine hroutine) base
  have hinside : entryLines program.constants (base, routine) <:+:
      (numbered nextLabel program.routines).flatMap (entryLines program.constants) :=
    List.flatMap_def ▸ List.infix_of_mem_flatten (List.mem_map_of_mem hentry)
  rw [code_eq hsized]
  exact hprefix.isInfix.trans (hinside.trans (List.suffix_append _ _).isInfix)

/-- The frames that a program opens are those of its routines. -/
theorem mem_enter_code {words : Nat} (nextLabel : Nat) :
    .instr (.enter words) ∈ code program nextLabel ↔
      ∃ routine ∈ program.routines, words = routine.frameWords := by
  have hcommons : .instr (.enter words) ∉ commonLines program.globals := by simp [commonLines]
  rw [code_eq hsized, List.mem_append, or_iff_right hcommons, List.mem_flatMap]
  constructor
  · rintro ⟨entry, hentry, hmem⟩
    have hroutine := mem_of_mem_numbered hentry
    exact ⟨entry.2, hroutine,
      (mem_enter_routineCode (valid_of_violation? hvalid _ hroutine) entry.1).mp hmem⟩
  · rintro ⟨routine, hroutine, rfl⟩
    obtain ⟨base, hentry⟩ := exists_mem_numbered hroutine nextLabel
    exact ⟨(base, routine), hentry,
      (mem_enter_routineCode (valid_of_violation? hvalid routine hroutine) base).mpr rfl⟩

end

end Asm

/-! ## In the tree

The registers of a routine were counted on the tree. An even number of words has room for them, and
for nothing else. -/

/-- The words of the frame of a function: one for each register that it takes, and an even number.
-/
def FunDef.frameWords (definition : FunDef) : Nat :=
  definition.takes + definition.takes % 2

/-- Every frame of a program is that of the function at its place. -/
theorem Tree.frames_of_lower {ok : Ty → Bool} {tree : Tree} {program : Program}
    (hscoped : ∀ item ∈ tree.items, item.Scoped ok) (h : tree.lower = .ok program) :
    program.routines.map (·.frameWords) = tree.functions.map (·.frameWords) := by
  rw [Tree.functions, List.map_filterMap]
  refine Tree.map_routines h (fun _ => rfl) fun definition hmem routine constants pool hlower => ?_
  have htaken := FunDef.taken_of_lower (hscoped _ hmem) hlower
  rw [Routine.frameWords, htaken]
  rfl

section

variable {tree : Tree} {nextId : Nat} {program : Program}

/-- The routines are named like the functions of the tree, and have their frames. -/
theorem Tree.headings_of_lower (hquiet : (tree.resolve nextId).2.errors = [])
    (hlower : (tree.check nextId).tree.lower = .ok program) :
    program.routines.map (fun routine => (routine.name, routine.frameWords)) =
      (tree.resolve nextId).1.functions.map
        fun definition => (definition.ident.name, definition.frameWords) := by
  have hplain : tree.plain (fun _ => true) = true := Tree.plain_of_lower hlower fun _ _ => rfl
  obtain ⟨hscoped, -⟩ := Tree.scoped_of_resolve (fun _ _ => rfl) hplain hquiet
  have hframes := Tree.frames_of_lower hscoped ((Tree.lower_annotate _).symm.trans hlower)
  have hnames : program.routines.map (·.name) =
      (tree.resolve nextId).1.functions.map (·.ident.name) := by
    rw [Tree.functionNames_of_lower hquiet hlower, Tree.functions, List.map_filterMap,
      ← tree.filterMap_resolve (fun item => by cases item <;> rfl) nextId]
    exact List.filterMap_congr fun item _ => by cases item <;> rfl
  rw [← List.zip_map', ← List.zip_map', hnames, hframes]

end

/-- What a compiled tree has written of it comes from a valid program, whose globals have a size. -/
theorem Tree.written_of_compile {tree : Tree} {room : Asm.Room} {emission : Asm.Emission}
    (hcompile : (tree.compile room).2 = .ok emission) (hwritten : emission.halt = none) :
    ∃ program, (tree.resolve 0).2.errors = [] ∧ (tree.check 0).tree.lower = .ok program ∧
      program.violation? = none ∧
      (Asm.Fragment.join (program.globals.map Asm.globalCode)).halt = none ∧
      emission.lines = (Asm.code program 0).map Asm.Line.text := by
  obtain ⟨program, hclean, hlower, hvalid, rfl⟩ := Tree.of_compile_eq_ok hcompile
  exact ⟨program, (List.append_eq_nil_iff.mp hclean).1, hlower, hvalid,
    Asm.halt_of_writeSections hwritten, Asm.lines_emit hwritten⟩

/-- The frames in the text of a compiled tree are those of its functions. -/
theorem Tree.mem_enter_of_compile {tree : Tree} {room : Asm.Room} {emission : Asm.Emission}
    (hcompile : (tree.compile room).2 = .ok emission) (hwritten : emission.halt = none)
    {words : Nat} :
    (Asm.Line.instr (.enter words)).text ∈ emission.lines ↔
      ∃ definition ∈ (tree.resolve 0).1.functions, words = definition.frameWords := by
  obtain ⟨program, hquiet, hlower, hvalid, hsized, hlines⟩ :=
    Tree.written_of_compile hcompile hwritten
  have hframes := congrArg (List.map Prod.snd) (Tree.headings_of_lower hquiet hlower)
  rw [List.map_map, List.map_map] at hframes
  rw [hlines, Asm.mem_map_text_enter, Asm.mem_enter_code hvalid hsized]
  constructor
  · rintro ⟨routine, hroutine, rfl⟩
    obtain ⟨definition, hdefinition, hwords⟩ :=
      List.mem_map.mp (hframes ▸ List.mem_map_of_mem hroutine)
    exact ⟨definition, hdefinition, hwords.symm⟩
  · rintro ⟨definition, hdefinition, rfl⟩
    obtain ⟨routine, hroutine, hwords⟩ :=
      List.mem_map.mp (hframes.symm ▸ List.mem_map_of_mem hdefinition)
    exact ⟨routine, hroutine, hwords.symm⟩

/-- The text of every function begins with its name and its frame. -/
theorem Tree.heading_of_compile {tree : Tree} {room : Asm.Room} {emission : Asm.Emission}
    (hcompile : (tree.compile room).2 = .ok emission) (hwritten : emission.halt = none)
    {definition : FunDef} (hdefinition : definition ∈ (tree.resolve 0).1.functions) :
    (Asm.heading definition.ident.name definition.frameWords).map Asm.Line.text <:+:
      emission.lines := by
  obtain ⟨program, hquiet, hlower, hvalid, hsized, hlines⟩ :=
    Tree.written_of_compile hcompile hwritten
  obtain ⟨routine, hroutine, hsame⟩ := List.mem_map.mp
    ((Tree.headings_of_lower hquiet hlower).symm ▸ List.mem_map_of_mem hdefinition)
  obtain ⟨hname, hwords⟩ := Prod.mk.inj hsame
  rw [hlines, ← hname, ← hwords]
  exact (Asm.heading_infix_code hvalid hsized hroutine 0).map _

/-- With an even number of words, 8190 is the most that sixteen bits have room for. -/
theorem FunDef.frame_fits_iff (definition : FunDef) :
    8 * definition.frameWords ≤ 65535 ↔ definition.takes ≤ 8190 := by
  rw [FunDef.frameWords]
  omega

/-- The operand says what the frame needs exactly if sixteen bits have room for that. -/
theorem Asm.frameBytes_eq_iff {words : Nat} :
    frameBytes words = 8 * words ↔ 8 * words ≤ 65535 := by
  rw [frameBytes, wordSize]
  omega

/-- Every function of a tree that compiles begins by opening its frame, which is as large as its
slots need exactly if it takes at most 8190 registers; there are no other frames. So all of them fit
in the instruction that opens them exactly if no function takes more. -/
theorem Tree.frames_of_compile {tree : Tree} {room : Asm.Room} {emission : Asm.Emission}
    (hcompile : (tree.compile room).2 = .ok emission) (hwritten : emission.halt = none) :
    (∀ definition ∈ (tree.resolve 0).1.functions,
      (Asm.heading definition.ident.name definition.frameWords).map Asm.Line.text <:+:
        emission.lines ∧
      (Asm.frameBytes definition.frameWords = 8 * definition.frameWords ↔
        definition.takes ≤ 8190)) ∧
    (∀ words, (Asm.Line.instr (.enter words)).text ∈ emission.lines →
      ∃ definition ∈ (tree.resolve 0).1.functions, words = definition.frameWords) ∧
    ((∀ words, (Asm.Line.instr (.enter words)).text ∈ emission.lines → 8 * words ≤ 65535) ↔
      ∀ definition ∈ (tree.resolve 0).1.functions, definition.takes ≤ 8190) := by
  have hmem := @Tree.mem_enter_of_compile tree room emission hcompile hwritten
  refine ⟨fun definition hdefinition => ⟨?_, ?_⟩, fun _ => hmem.mp,
    fun hfits definition hdefinition => ?_, fun htakes words hwords => ?_⟩
  · exact Tree.heading_of_compile hcompile hwritten hdefinition
  · rw [Asm.frameBytes_eq_iff, definition.frame_fits_iff]
  · exact definition.frame_fits_iff.mp (hfits _ (hmem.mpr ⟨definition, hdefinition, rfl⟩))
  · obtain ⟨definition, hdefinition, rfl⟩ := hmem.mp hwords
    exact definition.frame_fits_iff.mpr (htakes definition hdefinition)

/-- Two functions whose frames have room for twelve registers and for two. -/
theorem Tree.frames_of_compile_summing :
    ∃ emission, ((summingTree "n" "i" {}).compile .unlimited).2 = .ok emission ∧
      emission.halt = none ∧
      ["    .globl sum", "sum:", "    enter $(8 * 12), $0"] <:+: emission.lines ∧
      ["    .globl main", "main:", "    enter $(8 * 2), $0"] <:+: emission.lines ∧
      ∀ words, (Asm.Line.instr (.enter words)).text ∈ emission.lines → 8 * words ≤ 65535 := by
  have hwritten : (match ((summingTree "n" "i" {}).compile .unlimited).2 with
    | .ok emission => emission.halt.isNone
    | .error _ => false) = true := by decide +kernel
  have hframes : ((summingTree "n" "i" {}).resolve 0).1.functions.map
      (fun definition => (definition.ident.name, definition.frameWords)) =
        [("sum", 12), ("main", 2)] := by decide +kernel
  have htakes : ∀ definition ∈ ((summingTree "n" "i" {}).resolve 0).1.functions,
      definition.takes ≤ 8190 := by decide +kernel
  split at hwritten
  · next emission hcompile =>
    have hhalt := Option.isNone_iff_eq_none.mp hwritten
    obtain ⟨heach, -, hall⟩ := Tree.frames_of_compile hcompile hhalt
    have hheadings : ∀ entry ∈ [("sum", 12), ("main", 2)],
        (Asm.heading entry.1 entry.2).map Asm.Line.text <:+: emission.lines := by
      rw [← hframes, List.forall_mem_map]
      exact fun definition hdefinition => (heach definition hdefinition).1
    exact ⟨emission, hcompile, hhalt, hheadings ("sum", 12) (by simp),
      hheadings ("main", 2) (by simp), hall.mpr htakes⟩
  · cases hwritten

/-! ## Frames of any size

Sums of sums, so deep that they have more literals than any given number. Each level is resolved and
checked by the one before it. -/

/-- A sum whose two operands are the same, so many times over. -/
def doubling : Nat → Expr
  | 0 => .int {} 1
  | depth + 1 => .binary {} (.arith .add) (doubling depth) (doubling depth)

/-- A function that is left before it comes to such a sum. -/
def FunDef.leaving (ident callee : Ident) (depth : Nat) : FunDef :=
  { ident, params := [], ret := .void
    body := { stmts :=
      [.call {} callee [.int {} 1], .ret {} none, .call {} callee [doubling depth]] } }

/-- A program that prints 1. -/
def leavingTree (depth : Nat) : Tree :=
  { items := [.function (.leaving { name := "main" } { name := "printInt" } depth)] }

/-- There is no name in such a sum. -/
theorem resolve_doubling (depth : Nat) : (doubling depth).resolve = pure (doubling depth) := by
  induction depth with
  | zero => rfl
  | succ depth ih =>
    rw [doubling, Expr.resolve, ih]
    rfl

/-- It is an integer. -/
theorem infer_doubling (depth : Nat) : (doubling depth).infer = .int := by
  induction depth with
  | zero => rfl
  | succ depth ih =>
    rw [doubling, Expr.infer, ih]
    rfl

/-- Nothing is wrong with it. -/
theorem diagnose_doubling (depth : Nat) : (doubling depth).diagnose = [] := by
  induction depth with
  | zero => rfl
  | succ depth ih =>
    rw [doubling, Expr.diagnose, ih, infer_doubling]
    rfl

/-- Every literal and every sum takes a register. -/
theorem takes_doubling (locals : List SymbolId) (depth : Nat) :
    (doubling depth).takes locals + 1 = 2 ^ (depth + 1) := by
  induction depth with
  | zero => rfl
  | succ depth ih =>
    simp only [doubling, Expr.takes, Nat.pow_succ 2 (depth + 1)]
    omega

section

variable {ident callee : Ident} {depth : Nat}

/-- Nothing is wrong with the function either, as it may return before its end. -/
theorem FunDef.diagnose_leaving (hcallee : callee.ty = .func [.int] .void) :
    (FunDef.leaving ident callee depth).diagnose = [] := by
  have hsignature : (FunDef.leaving ident callee depth).signatureFault? = none := by
    simp [FunDef.signatureFault?, FunDef.leaving, Ty.isVoid]
  rw [FunDef.diagnose, hsignature]
  simp only [FunDef.leaving, Stmt.diagnoseAll, Stmt.diagnose, Expr.diagnoseAll, Expr.inferAll,
    diagnose_doubling, infer_doubling, hcallee]
  rfl

/-- What is never run takes registers all the same. -/
theorem FunDef.frameWords_leaving (hcallee : callee.ty = .func [.int] .void) :
    (FunDef.leaving ident callee depth).frameWords = 2 ^ (depth + 1) := by
  have hresults : callee.results = 0 := by
    rw [Ident.results, hcallee]
    rfl
  have htakes : (FunDef.leaving ident callee depth).takes = 2 ^ (depth + 1) := by
    rw [← takes_doubling (FunDef.leaving ident callee depth).scope depth, Nat.add_comm]
    simp [FunDef.takes, FunDef.leaving, Stmt.takesAll, Stmt.takes, Expr.takesAll, Expr.takes,
      hresults]
  have heven : 2 ^ (depth + 1) % 2 = 0 := by
    rw [Nat.pow_succ]
    exact Nat.mul_mod_left _ _
  rw [FunDef.frameWords, htakes, heven]
  rfl

end

/-- Its names are resolved without problems. -/
theorem resolve_leavingTree (depth : Nat) :
    ∃ ident callee table, (leavingTree depth).resolve 0 =
      ({ items := [.function (.leaving ident callee depth)] }, table) ∧
      callee.ty = .func [.int] .void ∧ table.errors = [] := by
  refine ⟨{ name := "main", symbol := some (.declared 6 "main" (.func [] .void)) },
    { name := "printInt", symbol := some (.declared 3 "printInt" (.func [.int] .void)) },
    ((leavingTree 0).resolve 0).2, ?_, rfl, by decide +kernel⟩
  simp only [leavingTree, FunDef.leaving, Tree.resolve, List.mapM_cons, List.mapM_nil,
    Item.resolve, FunDef.resolve, Stmt.resolveAll, Stmt.resolve, Expr.resolveAll, resolve_doubling]
  rfl

/-- There are programs without problems whose frames are larger than any bound, although they use
one slot. -/
theorem Tree.exists_compile_leaving (depth : Nat) :
    ∃ emission, ((leavingTree depth).compile .unlimited).2 = .ok emission ∧ emission.halt = none ∧
      (Asm.Line.instr (.enter (2 ^ (depth + 1)))).text ∈ emission.lines := by
  obtain ⟨ident, callee, table, hresolve, hcallee, hquiet⟩ := resolve_leavingTree depth
  have hclean : ((leavingTree depth).check 0).diagnostics = [] := by
    simp [Tree.check, hresolve, hquiet, Tree.diagnose, Item.diagnose,
      FunDef.diagnose_leaving hcallee]
  obtain ⟨program, hlower, hvalid⟩ :=
    Tree.lowers_of_clean Ty.regular_declarable (by decide) rfl hclean
  have hcompile : ((leavingTree depth).compile .unlimited).2 =
      .ok (Asm.emit program 0 .unlimited) := by
    rw [Tree.compile, Checked.program_eq_ok hclean hlower hvalid]
    rfl
  have hglobals : program.globals = [] := by
    have hsymbols := Tree.globals_of_lower hlower
    rw [hresolve] at hsymbols
    exact List.map_eq_nil_iff.mp hsymbols
  have hwritten : (Asm.emit program 0 .unlimited).halt = none := by
    rw [Asm.halt_emit hvalid, hglobals]
    rfl
  have hmem : FunDef.leaving ident callee depth ∈ ((leavingTree depth).resolve 0).1.functions := by
    rw [hresolve]
    exact List.mem_singleton_self _
  exact ⟨_, hcompile, hwritten, (Tree.mem_enter_of_compile hcompile hwritten).mpr
    ⟨_, hmem, (FunDef.frameWords_leaving hcallee).symm⟩⟩

/-- So the frame of a program that compiles need not fit in the instruction that opens it. -/
theorem Tree.not_forall_frame_fits :
    ¬ ∀ (tree : Tree) (emission : Asm.Emission), (tree.compile .unlimited).2 = .ok emission →
      emission.halt = none → ∀ words, (Asm.Line.instr (.enter words)).text ∈ emission.lines →
        8 * words ≤ 65535 := by
  intro h
  obtain ⟨emission, hcompile, hwritten, hmem⟩ := Tree.exists_compile_leaving 12
  exact absurd (h _ emission hcompile hwritten _ hmem) (by decide)

end WordLang
