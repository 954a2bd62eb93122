import WordLang.Invocation
import WordLang.Proofs.Asm.Sinks
import WordLang.Proofs.WellLinked

/-!
# The command line and the passes

A run of the program goes through the passes by itself: it reads the source, checks it, lowers it
and writes the assembly to a file. What it leaves behind is what the passes give when they are asked
for it one by one, for every source that can be read. It fails with the diagnostics of `Tree.check`,
prints the program of `Checked.program`, or writes the text that `Tree.compile` gives; and only in
the last of these cases does it touch a file (`Invocation.run_agrees`).

A sink that counts bytes takes the same lines as one without a limit, if it has room for the text.

Files are those of a `Disk`, about which only one thing is known: what was written can be read. A
plan is made without files, so there is not much for a disk to do: it is asked for the source, and
then perhaps for one write. Which of the cases it comes to is a matter of the plan.
-/

namespace WordLang

/-! ## Sinks with enough room

The text of a program is the lines of its assembly, each with its line end, and so are the bytes
that a sink counts. -/

/-- A line takes its bytes and one for its end. -/
theorem Asm.length_lineBytes (line : String) :
    (lineBytes line).length = (line ++ "\n").utf8ByteSize := by
  rw [lineBytes, Array.length_toList]
  rfl

/-- A text has the bytes of its lines. -/
theorem Text.utf8ByteSize_ofLines (lines : List String) :
    (Text.ofLines lines).utf8ByteSize = (Asm.textBytes lines).length := by
  have hfold : ∀ text : String,
      (lines.foldl (fun text line => text ++ line ++ "\n") text).utf8ByteSize =
        text.utf8ByteSize + (Asm.textBytes lines).length := by
    induction lines with
    | nil => exact fun text => rfl
    | cons line more ih =>
      intro text
      rw [List.foldl_cons, ih, Asm.textBytes_cons, List.length_append, Asm.length_lineBytes]
      simp only [String.utf8ByteSize_append]
      omega
  exact (hfold "").trans (Nat.zero_add _)

/-- A sink that counts bytes gets the same assembly as one without a limit, if it has room for the
text. -/
theorem Asm.emit_bytes {program : Program} {nextLabel count : Nat}
    (h : (Text.ofLines (emit program nextLabel .unlimited).lines).utf8ByteSize ≤ count) :
    emit program nextLabel (.bytes count) = emit program nextLabel .unlimited := by
  rw [Text.utf8ByteSize_ofLines] at h
  exact writeSections_of_ok ((Room.rest_deliver_bytes _ _).trans (if_neg (Nat.not_lt.mpr h)))

/-- The assembly of a valid program whose globals all have a size is complete. -/
theorem Asm.halt_emit_eq_none {program : Program} (hvalid : program.violation? = none)
    (hsizes : ∀ global ∈ program.globals, global.elements.toNat * wordSize < UInt64.size)
    (nextLabel : Nat) : (emit program nextLabel .unlimited).halt = none := by
  rw [halt_emit hvalid, List.findSome?_eq_none_iff]
  intro global hglobal
  rw [halt_globalCode, if_pos (hsizes global hglobal)]

/-! ## Files

The two plans there are, carried out on a disk. -/

/-- Files in a state `σ`. Reading leaves them as they are. Writing may fail, whatever it does to
them then; if it does not, the text can be read from then on. -/
structure Disk (σ : Type) where
  read : String → σ → Except String String
  write : String → String → σ → Except String Unit × σ
  read_write : ∀ path content state, (write path content state).1 = .ok () →
    read path (write path content state).2 = .ok content

namespace Disk

variable {σ : Type} (disk : Disk σ)

/-- A disk as a system to run on. -/
def system : System (StateM σ) where
  read path := fun state => (disk.read path state, state)
  write path content := fun state => disk.write path content state

/-- A plan that is finished leaves the files alone. -/
theorem run_finish (outcome : Outcome) (state : σ) :
    ((Plan.finish outcome).run disk.system).run state = (outcome, state) := rfl

/-- A plan that writes changes the file that it names. -/
theorem run_write {path content : String} {state : σ}
    (h : (disk.write path content state).1 = .ok ()) (outcome : Outcome) :
    ((Plan.write path content outcome).run disk.system).run state =
      (outcome, (disk.write path content state).2) := by
  obtain ⟨state', hwrite⟩ : ∃ state', disk.write path content state = (.ok (), state') :=
    ⟨_, Prod.ext h rfl⟩
  rw [hwrite]
  change (Plan.run disk.system (.write path content outcome)) state = _
  simp only [Plan.run, system, bind, StateT.bind, hwrite]
  rfl

/-- A run does what it plans for the text of the source. -/
theorem run_invocation (invocation : Invocation) (state : σ) :
    (invocation.run disk.system).run state =
      ((invocation.plan (disk.read invocation.source state)).run disk.system).run state := rfl

end Disk

/-! ## What a run does

The cases of a plan, by what checking and lowering give. -/

/-- With problems there is no program, and the problems are what is reported. -/
theorem Checked.program_eq_error {checked : Checked} (h : checked.diagnostics ≠ []) :
    checked.program = .error (.diagnostics checked.diagnostics) := by
  have hempty : (! checked.diagnostics.isEmpty) = true := by simpa using h
  rw [Checked.program, if_pos hempty]

/-- Without problems, only the compiler itself is to blame. -/
theorem Checked.code_uncompiled {checked : Checked} {error : CompileError}
    (hclean : checked.diagnostics = []) (h : checked.program = .error error) :
    (Outcome.uncompiled error).code = 2 := by
  rw [Checked.program, hclean] at h
  simp only [List.isEmpty_nil, Bool.not_true, Bool.false_eq_true, if_false] at h
  split at h
  · cases h
    rfl
  · split at h
    · cases h
      rfl
    · cases h

namespace Invocation

variable {invocation : Invocation} {tree : Tree} {program : Program}

/-- Without a program nothing is written. -/
theorem planTree_error {error : CompileError} (h : (tree.check 0).program = .error error) :
    invocation.planTree tree = .finish (.uncompiled error) := by
  rw [planTree, h]

/-- A program is printed if that was asked for. -/
theorem planTree_list (h : (tree.check 0).program = .ok program)
    (hlist : invocation.listProgram = true) :
    invocation.planTree tree = .finish { stdout := program.text } := by
  rw [planTree, h]
  exact if_pos hlist

/-- Otherwise its assembly is written, to the end if no global is too large. -/
theorem planTree_write (h : (tree.check 0).program = .ok program)
    (hlist : invocation.listProgram = false)
    (hsizes : ∀ global ∈ program.globals, global.elements.toNat * Asm.wordSize < UInt64.size) :
    invocation.planTree tree =
      .write invocation.output (Text.ofLines (Asm.emit program 0 .unlimited).lines) {} := by
  obtain ⟨-, -, hvalid⟩ := Checked.of_program_eq_ok h
  have hhalt := Asm.halt_emit_eq_none hvalid hsizes 0
  rw [planTree, h]
  simp only [planProgram, hlist, Bool.false_eq_true, if_false, hhalt]
  rfl

end Invocation

/-- What a run does with a source that can be read, if writing to the output succeeds and no global
is too large. A text that is no tree, and a fault of the compiler itself, end it with code 2.
Problems end it with code 1 and are printed one on each line, in the order of checking. Otherwise it
is done, and either has printed the program, or the output holds the text that compiling the tree
writes to a sink without a limit, or to one that has room for the bytes of that text. In all cases
but the last the files are what they were. -/
theorem Invocation.run_agrees {σ : Type} (disk : Disk σ) (invocation : Invocation)
    {state state' : σ} {text : String} {outcome : Outcome}
    (hread : disk.read invocation.source state = .ok text)
    (hwrite : ∀ content, (disk.write invocation.output content state).1 = .ok ())
    (hrun : (invocation.run disk.system).run state = (outcome, state')) :
    (Tree.parse? text = none → outcome.code = 2 ∧ state' = state) ∧
    ∀ tree, Tree.parse? text = some tree →
      ((tree.check 0).diagnostics ≠ [] →
        outcome =
            { code := 1, stderr := Text.ofLines ((tree.check 0).diagnostics.map Diagnostic.text) } ∧
          state' = state) ∧
      ((tree.check 0).diagnostics = [] → ∀ error, (tree.check 0).program = .error error →
        outcome.code = 2 ∧ state' = state) ∧
      ∀ program, (tree.check 0).program = .ok program →
        (invocation.listProgram = true → outcome = { stdout := program.text } ∧ state' = state) ∧
        (invocation.listProgram = false →
          (∀ global ∈ program.globals, global.elements.toNat * Asm.wordSize < UInt64.size) →
          ∃ emission, (tree.compile .unlimited).2 = .ok emission ∧ emission.halt = none ∧
            outcome = {} ∧
            state' = (disk.write invocation.output (Text.ofLines emission.lines) state).2 ∧
            disk.read invocation.output state' = .ok (Text.ofLines emission.lines) ∧
            ∀ count, (Text.ofLines emission.lines).utf8ByteSize ≤ count →
              (tree.compile (.bytes count)).2 = .ok emission) := by
  rw [disk.run_invocation, hread, Invocation.plan] at hrun
  refine ⟨fun hparse => ?_, fun tree hparse => ?_⟩
  · rw [hparse, disk.run_finish] at hrun
    obtain ⟨rfl, rfl⟩ := Prod.mk.inj hrun
    exact ⟨rfl, rfl⟩
  simp only [hparse] at hrun
  refine ⟨fun hproblems => ?_, fun hclean error herror => ?_, fun program hprogram =>
    ⟨fun hlist => ?_, fun hlist hsizes => ?_⟩⟩
  · rw [planTree_error (Checked.program_eq_error hproblems), disk.run_finish] at hrun
    obtain ⟨rfl, rfl⟩ := Prod.mk.inj hrun
    exact ⟨rfl, rfl⟩
  · rw [planTree_error herror, disk.run_finish] at hrun
    obtain ⟨rfl, rfl⟩ := Prod.mk.inj hrun
    exact ⟨Checked.code_uncompiled hclean herror, rfl⟩
  · rw [planTree_list hprogram hlist, disk.run_finish] at hrun
    obtain ⟨rfl, rfl⟩ := Prod.mk.inj hrun
    exact ⟨rfl, rfl⟩
  -- only here is the disk touched, and only after the emission has ended
  · rw [planTree_write hprogram hlist hsizes, disk.run_write (hwrite _)] at hrun
    obtain ⟨rfl, rfl⟩ := Prod.mk.inj hrun
    obtain ⟨-, -, hvalid⟩ := Checked.of_program_eq_ok hprogram
    have hcompile : ∀ room, (tree.compile room).2 = .ok (Asm.emit program 0 room) := by
      intro room
      rw [Tree.compile, hprogram]
      rfl
    refine ⟨_, hcompile .unlimited, Asm.halt_emit_eq_none hvalid hsizes 0, rfl, rfl,
      disk.read_write _ _ _ (hwrite _), fun count hcount => ?_⟩
    rw [hcompile, Asm.emit_bytes hcount]

/-- Files by their names. Writing to a file always succeeds. -/
def Disk.named : Disk (String → Option String) where
  read path files := (files path).elim (.error "no such file") .ok
  write path content files := (.ok (), Function.update files path (some content))
  read_write path content files _ := by
    simp only [Function.update_self]
    rfl

/-- A source with a function that returns at once. -/
def returning : String :=
  "[[\x7b\"Function\":[[1,1],[[1,6],\"main\"],[],\"Void\"," ++
    "[[1,13],[[[2,3],\x7b\"Return\":null\x7d]]]]\x7d]]"

/-- The assembly of that source. -/
def returningLines : List String :=
  ["    .globl main", "main:", "    enter $(8 * 0), $0", "    leave", "    ret"]

/-- That source is the only file. -/
def onlyReturning (path : String) : Option String :=
  if path = "main.json" then some returning else none

/-- The source above is read, and its assembly is the text of the file that is left. -/
theorem Invocation.run_agrees_returning :
    ∃ files, (Invocation.run Disk.named.system { source := "main.json" }).run onlyReturning =
        ({}, files) ∧
      Disk.named.read "a.s" files = .ok (Text.ofLines returningLines) := by
  have hsource : Disk.named.read "main.json" onlyReturning = .ok returning := rfl
  have hpasses : ((Tree.parse? returning).any fun tree =>
      (tree.check 0).program.toOption.any fun program => program.globals.isEmpty &&
        (Asm.emit program 0 .unlimited).lines == returningLines) = true := by decide +kernel
  rcases hparse : Tree.parse? returning with _ | tree
  · rw [hparse] at hpasses
    cases hpasses
  rw [hparse, Option.any_some] at hpasses
  rcases hprogram : (tree.check 0).program with error | program
  · rw [hprogram] at hpasses
    cases hpasses
  rw [hprogram] at hpasses
  obtain ⟨hglobals, hlines⟩ := Bool.and_eq_true_iff.mp hpasses
  have hsizes : ∀ global ∈ program.globals,
      global.elements.toNat * Asm.wordSize < UInt64.size := by
    rw [List.isEmpty_iff.mp hglobals]
    exact nofun
  rcases hrun : (Invocation.run Disk.named.system { source := "main.json" }).run onlyReturning with
    ⟨outcome, files⟩
  have hagrees :=
    Invocation.run_agrees Disk.named { source := "main.json" } hsource (fun _ => rfl) hrun
  obtain ⟨-, -, hdone⟩ := hagrees.2 tree hparse
  obtain ⟨emission, hcompile, -, rfl, -, hread, -⟩ := (hdone program hprogram).2 rfl hsizes
  rw [Tree.compile, hprogram] at hcompile
  obtain rfl := Except.ok.inj hcompile
  rw [eq_of_beq hlines] at hread
  exact ⟨files, rfl, hread⟩

end WordLang
