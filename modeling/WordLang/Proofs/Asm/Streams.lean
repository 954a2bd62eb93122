import WordLang.Proofs.Asm.Sinks
import WordLang.Proofs.Asm.Writing

/-!
# Programs that are written line by line

`emit` makes whole sections and asks the sink afterwards; `Sink.program` has the sink at hand at
every line. They write the same.

* Any sink is offered the lines that `emit` writes to a sink without a limit, in their order, up to
  the first one that it refuses; nothing else is asked of it (`outcome_program`). This holds in any
  monad, so also for a file, and for a sink that answers differently every time.
* For the sinks with room that `emit` is about, all of the emission is the same: lines, the part of
  a line that was cut off, why writing ended, and the label to go on with (`writeProgram_eq_emit`).

The way there leads over sections. `Sink.offer` is all that a fragment does to a sink, and it leaves
the counter alone; so writing a program is writing its sections one after the other, each with the
counter where `sections` says.
-/

namespace WordLang.Asm

variable {m : Type → Type} [Monad m] [LawfulMonad m]

/-- What became of lines after which writing would end with `halt`, by the answer to them. A refusal
comes first: whether there is anything wrong further on is not found out then. -/
def outcomeOf (halt : Option Halt) : Except String Unit → Except Halt Unit
  | .ok _ => halt.elim (.ok ()) .error
  | .error reason => .error (.error (.write reason))

namespace Sink

variable (sink : Sink m)

/-! ## What a sink is asked

A sink is asked one line after the other and may do what it likes with the question, so nothing
about it can be taken apart. What can be said is which lines it is asked about, and that it is asked
about none after one that it refuses. -/

/-- Offers lines until one is refused, and tells why it was. What the sink has done by then is done.
-/
def offer : List String → m (Except String Unit)
  | [] => return .ok ()
  | line :: more => do
    match ← sink.append line with
    | .ok _ => offer more
    | .error reason => return .error reason

/-- Offers some lines, and then ends early if there is a reason to. -/
def offerThen (halt : Option Halt) (lines : List String) : m (Except Halt Unit) := do
  return outcomeOf halt (← sink.offer lines)

/-- Offering lines in two parts: the second part is offered only if the first was taken. -/
theorem offer_append (first second : List String) :
    sink.offer (first ++ second) = (do
      match ← sink.offer first with
      | .ok _ => sink.offer second
      | .error reason => return .error reason) := by
  induction first with
  | nil => simp [offer]
  | cons line more ih =>
    rw [List.cons_append, offer, offer, bind_assoc]
    refine bind_congr fun answer => ?_
    rcases answer with reason | _
    · simp
    · exact ih

/-- A line does nothing but ask the sink once. -/
theorem run_put (line : Line) (next : Nat) :
    (sink.put line).run.run next = (do
      match ← sink.append line.text with
      | .ok _ => return (.ok (), next)
      | .error reason => return (.error (.error (.write reason)), next)) := by
  have hlift : (liftM (sink.append line.text) : Writer m (Except String Unit)).run.run next =
      (fun answer => (.ok answer, next)) <$> sink.append line.text := by
    change (ExceptT.lift (StateT.lift (sink.append line.text))).run.run next = _
    rw [ExceptT.run_lift, StateT.run_map, StateT.run_lift]
    simp
  rw [put, ExceptT.run_bind, StateT.run_bind, hlift, bind_map_left]
  refine bind_congr fun answer => ?_
  rcases answer with reason | _ <;> rfl

/-- A fragment offers its lines, and leaves the counter where it is. The numbers of its labels were
taken before. -/
theorem run_write (fragment : Fragment) (next : Nat) :
    (sink.write fragment).run.run next =
      (do return (← sink.offerThen fragment.halt (fragment.lines.map Line.text), next)) := by
  obtain ⟨lines, halt⟩ := fragment
  rw [write, offerThen]
  induction lines with
  | nil => cases halt <;> simp [offer, outcomeOf]
  | cons line more ih =>
    simp only [List.forM_cons, bind_assoc, pure_bind] at ih ⊢
    rw [ExceptT.run_bind, StateT.run_bind, run_put, List.map_cons, offer]
    simp only [bind_assoc]
    refine bind_congr fun answer => ?_
    rcases answer with reason | _
    · simp [outcomeOf]
    · simp only [pure_bind]
      rw [ih]

/-- What follows a fragment is done where the counter was, if all of the fragment was written. -/
theorem run_write_bind (fragment : Fragment) (code : Writer m Unit) (next : Nat) :
    (do sink.write fragment; code : Writer m Unit).run.run next = (do
      match ← sink.offerThen fragment.halt (fragment.lines.map Line.text) with
      | .ok _ => code.run.run next
      | .error halt => return (.error halt, next)) := by
  rw [ExceptT.run_bind, StateT.run_bind, run_write, bind_assoc]
  refine bind_congr fun outcome => ?_
  rcases outcome with halt | _ <;> simp

/-! ## Sections

The counter moves only between sections, at the labels of each routine. In between it is known where
it stands. -/

/-- Writes sections, with the counter behind the labels that each of them needs. -/
def writeAll : List Section → Writer m Unit
  | [] => return
  | first :: rest => do
    set first.nextLabel
    sink.write first.fragment
    writeAll rest

/-- The counter that a section starts from does not depend on what was before it. -/
theorem run_writeAll_cons (first : Section) (rest : List Section) (next : Nat) :
    (sink.writeAll (first :: rest)).run.run next =
      (do sink.write first.fragment; sink.writeAll rest : Writer m Unit).run.run
        first.nextLabel := by
  have hset : (set first.nextLabel : Writer m PUnit).run.run next =
      pure (.ok (), first.nextLabel) := by
    change (ExceptT.lift (StateT.set first.nextLabel)).run.run next = _
    rw [ExceptT.run_lift, StateT.run_map]
    exact map_pure _ _
  rw [writeAll, ExceptT.run_bind, StateT.run_bind, hset, pure_bind]

/-- Writing routines one after the other is writing their sections, each of them numbered from where
the one before it stopped. -/
theorem run_routines (constants : List Constant) (routines : List Routine) (next : Nat) :
    (forM routines (sink.routine constants) : Writer m Unit).run.run next =
      (sink.writeAll (routineSections constants next routines)).run.run next := by
  induction routines generalizing next with
  | nil => rfl
  | cons routine rest ih =>
    rw [List.forM_cons, routineSections, run_writeAll_cons, run_write_bind, ← ih]
    rw [ExceptT.run_bind, StateT.run_bind, run_routine, run_write, bind_assoc]
    refine bind_congr fun outcome => ?_
    rcases outcome with halt | _ <;> simp

/-- Writing a program is writing its sections. -/
theorem run_program (program : Program) (next : Nat) :
    (sink.program program).run.run next =
      (sink.writeAll (sections program next)).run.run next := by
  rw [sections, run_writeAll_cons, Sink.program, globals_eq, run_write_bind, run_write_bind]
  refine bind_congr fun outcome => ?_
  rcases outcome with halt | _
  · rfl
  · exact sink.run_routines program.constants program.routines next

/-! ## Any sink

What is said here holds for files and for anything else that can be appended to. It does not say
where the counter is in the end, which depends on the line that was refused. -/

/-- Sections offer all their lines in a row, up to the first section that ends early. -/
theorem outcome_writeAll (parts : List Section) (next : Nat) :
    Prod.fst <$> (sink.writeAll parts).run.run next =
      sink.offerThen (writeSections .unlimited next parts).halt
        (writeSections .unlimited next parts).lines := by
  induction parts generalizing next with
  | nil => simp [writeAll, writeSections, offerThen, offer, outcomeOf]
  | cons first rest ih =>
    have hall := congrArg Delivery.rest
      (Room.deliver_unlimited (first.fragment.lines.map Line.text))
    rw [run_writeAll_cons, run_write_bind, map_bind, offerThen, bind_assoc]
    rcases hhalt : first.fragment.halt with _ | halt
    · rw [writeSections_onward hall hhalt, offerThen, offer_append, bind_assoc]
      refine bind_congr fun answer => ?_
      rcases answer with reason | _
      · simp [outcomeOf]
      · simpa [offerThen, outcomeOf] using ih first.nextLabel
    · rw [writeSections_halted hall hhalt, offerThen]
      refine bind_congr fun answer => ?_
      rcases answer with reason | _ <;> simp [outcomeOf]

/-- Whatever the sink is, it is offered the lines that a sink without a limit would get, one after
the other. Writing ends early if it refuses one of them, for the reason that it gives, and otherwise
as `emit` does. -/
theorem outcome_program (program : Program) (next : Nat) :
    Prod.fst <$> (sink.program program).run.run next =
      sink.offerThen (emit program next .unlimited).halt (emit program next .unlimited).lines := by
  rw [run_program]
  exact sink.outcome_writeAll (sections program next) next

end Sink

/-! ## Sinks with room

For these the answers are known beforehand, and so is everything else. -/

/-- A sink with room takes lines as they are delivered to it. The induction is on the lines; what is
done and what room is left change from one to the next. -/
theorem Delivery.run_offer (lines done : List String) (room : Room) :
    (sink.offer lines).run { lines := done, rest := .ok room } =
      ((room.deliver lines).rest.map fun _ => (),
        { room.deliver lines with lines := done ++ (room.deliver lines).lines }) := by
  induction lines generalizing done room with
  | nil =>
    simp only [Sink.offer, Room.deliver, List.append_nil]
    rfl
  | cons line more ih =>
    rw [Sink.offer, Room.deliver, StateT.run_bind]
    rcases hoffer : room.offer line with ⟨reason, cut⟩ | left
    · have happend : (Delivery.sink.append line).run { lines := done, rest := .ok room } =
          (.error reason, { lines := done, cut, rest := .error reason }) := by
        change (_, _) = _
        simp only [append, hoffer]
        rfl
      rw [happend]
      simp only [List.append_nil]
      rfl
    · have happend : (Delivery.sink.append line).run { lines := done, rest := .ok room } =
          (.ok (), { lines := done ++ [line], rest := .ok left }) := by
        change (_, _) = _
        simp only [append, hoffer]
        rfl
      rw [happend]
      have hmore := ih (done ++ [line]) left
      rw [List.append_assoc] at hmore
      exact hmore

/-- Sections that are written one after the other to a sink with room. All of what the run ends with
is said: the lines that are there, the rest of the room, why it ended, and the counter. -/
theorem Delivery.run_writeAll (parts : List Section) (next : Nat) (done : List String)
    (room : Room) :
    let emission := writeSections room next parts
    let result := ((sink.writeAll parts).run.run next).run { lines := done, rest := .ok room }
    result.1 = (emission.halt.elim (.ok ()) .error, emission.nextLabel) ∧
      result.2.lines = done ++ emission.lines ∧ result.2.cut = emission.cut := by
  induction parts generalizing next done room with
  | nil => exact ⟨rfl, (List.append_nil done).symm, rfl⟩
  | cons first rest ih =>
    have hoffer := run_offer (first.fragment.lines.map Line.text) done room
    rw [sink.run_writeAll_cons, sink.run_write_bind, Sink.offerThen]
    simp only [StateT.run_bind, hoffer]
    rcases hrest : (room.deliver (first.fragment.lines.map Line.text)).rest with reason | left
    · rw [writeSections_refused hrest]
      exact ⟨rfl, rfl, rfl⟩
    rcases hhalt : first.fragment.halt with _ | halt
    · obtain ⟨houtcome, hlines, hcut⟩ :=
        ih first.nextLabel (done ++ first.fragment.lines.map Line.text) left
      rw [writeSections_onward hrest hhalt, Room.deliver_of_ok hrest]
      exact ⟨houtcome, hlines.trans (List.append_assoc _ _ _), hcut⟩
    · rw [writeSections_halted hrest hhalt, Room.deliver_of_ok hrest]
      exact ⟨rfl, rfl, rfl⟩

/-- A reason to end early is found again in the outcome. -/
theorem haltOf_elim (halt : Option Halt) : haltOf (halt.elim (.ok ()) .error) = halt := by
  cases halt <;> rfl

/-- Line by line, a sink with room gets exactly the emission that it gets section by section. -/
theorem writeProgram_eq_emit (program : Program) (nextLabel : Nat) (room : Room) :
    writeProgram program nextLabel room = emit program nextLabel room := by
  obtain ⟨houtcome, hlines, hcut⟩ :=
    Delivery.run_writeAll (sections program nextLabel) nextLabel [] room
  rw [← Delivery.sink.run_program] at houtcome hlines hcut
  simp only [writeProgram, houtcome, hlines, hcut, haltOf_elim]
  rfl

end WordLang.Asm
