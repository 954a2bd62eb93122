import WordLang.Proofs.Asm.Streams
import WordLang.Proofs.CommandLine
import WordLang.Streaming

/-!
# Output line by line and output at once

A run that writes its output line by line leaves behind what a run leaves that writes it at once.

The files here are those of a `Volume`. It says of an open file only what can be relied on: what was
handed to it is there to be read after it was flushed, and not before. Where the text is in between,
and in which pieces it gets there, is left open. Handing a text over whole and flushing it is one
way to write at once, so a volume is also a `Disk`, and the two runs can be compared on the same
files (`Invocation.stream_agrees`).

If files fail, the two runs differ where they have to: a line can be refused on its own only if
there are lines. How the one that has them ends then is `Invocation.run_writeOutput`.

The comparison has three parts. Handing over lines one after the other hands over the text that they
make up (`Volume.run_offer`). What the program does with its output is to offer the lines of the
whole assembly and to flush (`Invocation.writeOutput_eq`), which is where the emission with the sink
in hand is used. And the plan to write at once is one for the same program of the same source
(`Invocation.plan_eq_program`).
-/

namespace WordLang

/-- What follows an action starts from where the action leads. The actions here are those of files,
whose results are given as equations. -/
theorem run_bind_of_run {σ α β : Type} {action : StateM σ α} {state after : σ} {a : α}
    (h : action.run state = (a, after)) (next : α → StateM σ β) :
    (action >>= next).run state = (next a).run after := by
  rw [StateT.run_bind, h]
  rfl

/-- A text begins with its first line. -/
theorem Text.ofLines_cons (line : String) (more : List String) :
    ofLines (line :: more) = line ++ "\n" ++ ofLines more := by
  have hfold : ∀ text : String, more.foldl (fun text line => text ++ line ++ "\n") text =
      text ++ ofLines more := by
    unfold ofLines
    induction more with
    | nil => exact fun text => String.append_empty.symm
    | cons next more ih =>
      intro text
      rw [List.foldl_cons, List.foldl_cons, ih, ih ("" ++ next ++ "\n")]
      simp only [String.empty_append, String.append_assoc]
  rw [ofLines, List.foldl_cons, hfold, String.empty_append]

/-- A plan to write ends with the reason why it is refused. -/
theorem Disk.run_write_of_refused {σ : Type} (disk : Disk σ) {path content reason : String}
    {state left : σ} (h : disk.write path content state = (.error reason, left))
    (outcome : Outcome) :
    ((Plan.write path content outcome).run disk.system).run state =
      (.unwritable path reason, left) := by
  have hwrite : (disk.system.write path content).run state = (.error reason, left) := h
  rw [Plan.run, run_bind_of_run hwrite]
  rfl

/-! ## Files -/

/-- Files in a state `σ`, which are opened, appended to and flushed. An open file belongs to a path,
and in each state there is a text that was handed to it since it was created. Nothing is said of
what happens when something fails, except to the other files. -/
structure Volume (σ Handle : Type) where
  read : String → σ → Except String String
  create : String → σ → Except String Handle × σ
  append : Handle → String → σ → Except String Unit × σ
  flush : Handle → σ → Except String Unit × σ
  path : Handle → String
  handed : Handle → σ → String
  path_create : ∀ {file state handle}, (create file state).1 = .ok handle → path handle = file
  handed_create : ∀ {file state handle}, (create file state).1 = .ok handle →
    handed handle (create file state).2 = ""
  handed_append : ∀ {handle text state}, (append handle text state).1 = .ok () →
    handed handle (append handle text state).2 = handed handle state ++ text
  read_flush : ∀ {handle state}, (flush handle state).1 = .ok () →
    read (path handle) (flush handle state).2 = .ok (handed handle state)
  read_create : ∀ {file state} other, other ≠ file →
    read other (create file state).2 = read other state
  read_append : ∀ {handle text state} other, other ≠ path handle →
    read other (append handle text state).2 = read other state
  read_flush_other : ∀ {handle state} other, other ≠ path handle →
    read other (flush handle state).2 = read other state

namespace Volume

variable {σ Handle : Type} (volume : Volume σ Handle)

/-- Creating a file changes no other one. -/
theorem read_of_create {file other : String} {state opened : σ} {handle : Handle}
    (hcreate : volume.create file state = (.ok handle, opened)) (hother : other ≠ file) :
    volume.read other opened = volume.read other state := by
  have hread : volume.read other (volume.create file state).2 = volume.read other state :=
    volume.read_create other hother
  rwa [hcreate] at hread

/-- A volume as files to run on. -/
def files : Files (StateM σ) Handle where
  read file := fun state => (volume.read file state, state)
  create file := fun state => volume.create file state
  append handle text := fun state => volume.append handle text state
  flush handle := fun state => volume.flush handle state

/-- Writes a text at once: it is handed over whole and flushed. -/
def writeAtOnce (file content : String) (state : σ) : Except String Unit × σ :=
  match volume.create file state with
  | (.error reason, state) => (.error reason, state)
  | (.ok handle, state) =>
    match volume.append handle content state with
    | (.error reason, state) => (.error reason, state)
    | (.ok _, state) => volume.flush handle state

theorem writeAtOnce_of_refused {file reason : String} {state left : σ}
    (hcreate : volume.create file state = (.error reason, left)) (content : String) :
    volume.writeAtOnce file content state = (.error reason, left) := by
  rw [writeAtOnce, hcreate]

/-- What was written at once can be read. -/
theorem read_writeAtOnce {file content : String} {state : σ}
    (h : (volume.writeAtOnce file content state).1 = .ok ()) :
    volume.read file (volume.writeAtOnce file content state).2 = .ok content := by
  rw [writeAtOnce] at h ⊢
  rcases hcreate : volume.create file state with ⟨reason | handle, opened⟩
  · rw [hcreate] at h
    cases h
  have hpath := volume.path_create (congrArg Prod.fst hcreate)
  have hempty := volume.handed_create (congrArg Prod.fst hcreate)
  rw [hcreate] at h hempty
  rcases happend : volume.append handle content opened with ⟨reason | _, filled⟩
  · simp only [happend] at h
    cases h
  have hfilled := volume.handed_append (congrArg Prod.fst happend)
  rw [happend, hempty, String.empty_append] at hfilled
  simp only [happend] at h ⊢
  rw [← hpath, volume.read_flush h, hfilled]

/-- A volume as a disk. A write is refused as soon as one of the three steps is, with the reason
that this step gives. -/
def disk : Disk σ where
  read := volume.read
  write := volume.writeAtOnce
  read_write _ _ _ h := volume.read_writeAtOnce h

/-- From one state to the other, one file got a content and nothing happened to the others. Both
ways of writing are said to leave this, and nothing else is known about either. -/
structure Left (state left : σ) (file content : String) : Prop where
  read_eq : volume.read file left = .ok content
  read_other : ∀ other, other ≠ file → volume.read other left = volume.read other state

variable {volume} in
/-- The file, its content and the state before decide what can be read afterwards. -/
theorem Left.read_agrees {state left left' : σ} {file content : String}
    (h : volume.Left state left file content) (h' : volume.Left state left' file content)
    (other : String) : volume.read other left = volume.read other left' := by
  by_cases hother : other = file
  · rw [hother, h.read_eq, h'.read_eq]
  · rw [h.read_other other hother, h'.read_other other hother]

/-! ## Files that take everything -/

section

variable (happend : ∀ handle text state, (volume.append handle text state).1 = .ok ())
  (hflush : ∀ handle state, (volume.flush handle state).1 = .ok ())

include happend

/-- Lines that are all taken are handed over as the text that they make up, and nothing happens to
the other files. -/
theorem run_offer (handle : Handle) (lines : List String) (state : σ) :
    let result := ((volume.files.sink handle).offer lines).run state
    result.1 = .ok () ∧
      volume.handed handle result.2 = volume.handed handle state ++ Text.ofLines lines ∧
      ∀ other, other ≠ volume.path handle →
        volume.read other result.2 = volume.read other state := by
  induction lines generalizing state with
  | nil => exact ⟨rfl, String.append_empty.symm, fun _ _ => rfl⟩
  | cons line more ih =>
    have htaken := happend handle (line ++ "\n") state
    obtain ⟨hok, hhanded, hothers⟩ := ih (volume.append handle (line ++ "\n") state).2
    have hline : ((volume.files.sink handle).append line).run state =
        (.ok (), (volume.append handle (line ++ "\n") state).2) := Prod.ext htaken rfl
    have hoffer : ((volume.files.sink handle).offer (line :: more)).run state =
        ((volume.files.sink handle).offer more).run
          (volume.append handle (line ++ "\n") state).2 := run_bind_of_run hline _
    rw [hoffer]
    refine ⟨hok, ?_, fun other hother => ?_⟩
    · rw [hhanded, volume.handed_append htaken, Text.ofLines_cons, String.append_assoc]
    · exact (hothers other hother).trans (volume.read_append other hother)

include hflush

/-- A text that is written at once is left behind. -/
theorem left_writeAtOnce {file : String} {state opened : σ} {handle : Handle}
    (hcreate : volume.create file state = (.ok handle, opened)) (content : String) :
    (volume.writeAtOnce file content state).1 = .ok () ∧
      volume.Left state (volume.writeAtOnce file content state).2 file content := by
  have hpath := volume.path_create (congrArg Prod.fst hcreate)
  rcases hfilled : volume.append handle content opened with ⟨answer, filled⟩
  obtain rfl : answer = .ok () := by rw [← happend handle content opened, hfilled]
  have hwritten : volume.writeAtOnce file content state = volume.flush handle filled := by
    simp only [writeAtOnce, hcreate, hfilled]
  have hok : (volume.writeAtOnce file content state).1 = .ok () := by rw [hwritten, hflush]
  refine ⟨hok, volume.read_writeAtOnce hok, fun other hother => ?_⟩
  have happended : volume.read other (volume.append handle content opened).2 =
      volume.read other opened := volume.read_append other (hpath ▸ hother)
  rw [hfilled] at happended
  rw [hwritten, volume.read_flush_other other (hpath ▸ hother), happended,
    volume.read_of_create hcreate hother]

end

end Volume

namespace Invocation

/-- A plan is made for the program of the source, if there is one. -/
theorem plan_eq_program (invocation : Invocation) (source : Except String String) :
    invocation.plan source =
      match invocation.program source with
      | .error outcome => .finish outcome
      | .ok program => invocation.planProgram program := by
  rcases source with reason | text
  · rfl
  rw [plan, program]
  rcases Tree.parse? text with _ | tree
  · rfl
  simp only [planTree]
  rcases (tree.check 0).program with error | program <;> rfl

/-- What is done with the output: it is created, it is offered the lines of the whole assembly until
it refuses one, and it is flushed whatever came before. -/
theorem writeOutput_eq {m : Type → Type} [Monad m] [LawfulMonad m] {Handle : Type}
    (files : Files m Handle) (invocation : Invocation) (program : Program) :
    invocation.writeOutput files program = (do
      match ← files.create invocation.output with
      | .error reason => return .unwritable invocation.output reason
      | .ok handle =>
        let whole := Asm.emit program 0 .unlimited
        let outcome ← (files.sink handle).offerThen whole.halt whole.lines
        let flushed ← files.flush handle
        return invocation.ending outcome flushed) := by
  rw [writeOutput]
  refine bind_congr fun created => ?_
  rcases created with reason | handle
  · rfl
  · simp only [← Asm.Sink.outcome_program, bind_map_left]

/-- Once the output was created, a run ends as the answer to the lines of the whole assembly and
that to flushing say. -/
theorem run_writeOutput {σ Handle : Type} (files : Files (StateM σ) Handle)
    (invocation : Invocation) (program : Program) {state opened filled left : σ} {handle : Handle}
    {answer flushed : Except String Unit}
    (hcreate : (files.create invocation.output).run state = (.ok handle, opened))
    (hoffer : ((files.sink handle).offer (Asm.emit program 0 .unlimited).lines).run opened =
      (answer, filled))
    (hflush : (files.flush handle).run filled = (flushed, left)) :
    (invocation.writeOutput files program).run state =
      (invocation.ending (Asm.outcomeOf (Asm.emit program 0 .unlimited).halt answer) flushed,
        left) := by
  have hoffered : ((files.sink handle).offerThen (Asm.emit program 0 .unlimited).halt
      (Asm.emit program 0 .unlimited).lines).run opened =
      (Asm.outcomeOf (Asm.emit program 0 .unlimited).halt answer, filled) :=
    run_bind_of_run hoffer _
  rw [writeOutput_eq, run_bind_of_run hcreate]
  exact (run_bind_of_run hoffered _).trans (run_bind_of_run hflush _)

variable {σ Handle : Type} (volume : Volume σ Handle)
  (happend : ∀ handle text state, (volume.append handle text state).1 = .ok ())
  (hflush : ∀ handle state, (volume.flush handle state).1 = .ok ())

include happend hflush

/-- What is written line by line is left behind, also if writing ended early: the lines before the
halt have been handed over by then, and the file is flushed in any case. -/
theorem left_writeOutput (invocation : Invocation) (program : Program) {state opened : σ}
    {handle : Handle} (hcreate : volume.create invocation.output state = (.ok handle, opened)) :
    let whole := Asm.emit program 0 .unlimited
    let result := (invocation.writeOutput volume.files program).run state
    result.1 = .emitted whole.halt ∧
      volume.Left state result.2 invocation.output (Text.ofLines whole.lines) := by
  intro whole result
  have hpath := volume.path_create (congrArg Prod.fst hcreate)
  have hempty := volume.handed_create (congrArg Prod.fst hcreate)
  rw [hcreate] at hempty
  obtain ⟨hok, hhanded, hothers⟩ := volume.run_offer happend handle whole.lines opened
  rcases hoffer : ((volume.files.sink handle).offer whole.lines).run opened with ⟨answer, filled⟩
  rw [hoffer] at hok hhanded hothers
  obtain rfl : answer = .ok () := hok
  have hflushed : (volume.files.flush handle).run filled =
      (.ok (), (volume.flush handle filled).2) := Prod.ext (hflush handle filled) rfl
  have hresult : result = (.emitted whole.halt, (volume.flush handle filled).2) := by
    refine (run_writeOutput volume.files invocation program hcreate hoffer hflushed).trans ?_
    change (invocation.ending (Asm.outcomeOf whole.halt (.ok ())) (.ok ()), _) = _
    cases whole.halt <;> rfl
  rw [hresult]
  refine ⟨rfl, ?_, fun other hother => ?_⟩
  · rw [← hpath, volume.read_flush (hflush handle filled), hhanded, hempty, String.empty_append]
  · rw [volume.read_flush_other other (hpath ▸ hother), hothers other (hpath ▸ hother),
      volume.read_of_create hcreate hother]

end Invocation

/-- On files that take every line, a run that writes its output line by line ends like one that
writes it at once, and all files can be read as after that one. If the output cannot be created,
both of them say so. -/
theorem Invocation.stream_agrees {σ Handle : Type} (volume : Volume σ Handle)
    (happend : ∀ handle text state, (volume.append handle text state).1 = .ok ())
    (hflush : ∀ handle state, (volume.flush handle state).1 = .ok ()) (invocation : Invocation)
    (state : σ) :
    let streamed := (invocation.stream volume.files).run state
    let atOnce := (invocation.run volume.disk.system).run state
    streamed.1 = atOnce.1 ∧ ∀ file, volume.read file streamed.2 = volume.read file atOnce.2 := by
  have hsource : (volume.files.read invocation.source).run state =
      (volume.read invocation.source state, state) := rfl
  have hplan : invocation.plan (volume.disk.read invocation.source state) =
      match invocation.program (volume.read invocation.source state) with
      | .error outcome => .finish outcome
      | .ok program => invocation.planProgram program := invocation.plan_eq_program _
  rw [volume.disk.run_invocation, hplan, stream, run_bind_of_run hsource]
  rcases invocation.program (volume.read invocation.source state) with outcome | program
  · exact ⟨rfl, fun _ => rfl⟩
  simp only [planProgram]
  rcases invocation.listProgram with _ | _
  · simp only [Bool.false_eq_true, if_false]
    rcases hcreate : volume.create invocation.output state with ⟨reason | handle, opened⟩
    · have hrefused := volume.writeAtOnce_of_refused hcreate
        (Text.ofLines (Asm.emit program 0 .unlimited).lines)
      have hcreated : (volume.files.create invocation.output).run state =
          (.error reason, opened) := hcreate
      rw [volume.disk.run_write_of_refused hrefused, writeOutput, run_bind_of_run hcreated]
      exact ⟨rfl, fun _ => rfl⟩
    -- both leave a file that holds the same text, and no other file changes
    · obtain ⟨houtcome, hleft⟩ :=
        invocation.left_writeOutput volume happend hflush program hcreate
      obtain ⟨hok, hleft'⟩ := volume.left_writeAtOnce happend hflush hcreate
        (Text.ofLines (Asm.emit program 0 .unlimited).lines)
      rw [volume.disk.run_write hok]
      exact ⟨houtcome, hleft.read_agrees hleft'⟩
  · exact ⟨rfl, fun _ => rfl⟩

/-- Files whose new texts stay in memory until they are flushed. -/
structure Buffered where
  onDisk : String → Option String
  handed : String → String

/-- They are a volume, and one that takes everything. -/
def Volume.buffered : Volume Buffered String where
  read file state := (state.onDisk file).elim (.error "no such file") .ok
  create file state := (.ok file,
    { onDisk := Function.update state.onDisk file (some "")
      handed := Function.update state.handed file "" })
  append handle text state := (.ok (),
    { state with handed := Function.update state.handed handle (state.handed handle ++ text) })
  flush handle state := (.ok (),
    { state with onDisk := Function.update state.onDisk handle (some (state.handed handle)) })
  path := id
  handed handle state := state.handed handle
  path_create h := (Except.ok.inj h).symm
  handed_create h := by
    obtain rfl := Except.ok.inj h
    exact Function.update_self ..
  handed_append _ := Function.update_self ..
  read_flush {handle state} _ := by simp
  read_create other hother := by simp [Function.update_of_ne hother]
  read_append _ _ := rfl
  read_flush_other {handle _} other hother := by
    have hne : other ≠ handle := hother
    simp [Function.update_of_ne hne]

example (invocation : Invocation) (state : Buffered) :
    ((invocation.stream Volume.buffered.files).run state).1 =
      ((invocation.run Volume.buffered.disk.system).run state).1 :=
  (invocation.stream_agrees Volume.buffered (fun _ _ _ => rfl) (fun _ _ => rfl) state).1

end WordLang
