import WordLang.Proofs.Asm.Labels
import WordLang.Proofs.Asm.Sufficiency

/-!
# Sinks that fail

A sink may refuse a line. By then it holds everything before that line, and it gets nothing after
it. So what a sink holds in the end is what it takes of the lines that are written to a sink without
a limit (`emit_delivers`), and writing ends early for one of two reasons: a line was refused, or the
assembly ends there whatever the sink is.

A sink with room for so many lines takes exactly these; one with room for so many bytes is filled to
the last of them, within a line if need be.

A program is written section by section, and the room that one section leaves is what the next one
finds. So there are two inductions here, over the lines of a delivery and over the sections of a
program, and each is done once, for any kind of room. What a kind of room comes to in numbers is a
matter of `take` and needs no program.
-/

namespace WordLang.Asm

/-! ## Deliveries

A list of lines can be delivered in two parts. The second part is not offered at all if the first
was refused, which is the difference between a sink that failed and one that is merely full. -/

section

variable {room left : Room} {first : List String} {reason : String}

/-- Lines that follow are offered to the room that is left. -/
theorem Room.deliver_append_of_ok (h : (room.deliver first).rest = .ok left)
    (second : List String) :
    room.deliver (first ++ second) =
      { left.deliver second with lines := first ++ (left.deliver second).lines } := by
  induction first generalizing room with
  | nil =>
    obtain rfl := Except.ok.inj h
    rfl
  | cons line more ih =>
    rw [Room.deliver] at h
    rw [List.cons_append, Room.deliver]
    split at h
    · cases h
    · simp only [ih h, List.cons_append]

/-- Lines that follow a refusal are not offered. -/
theorem Room.deliver_append_of_error (h : (room.deliver first).rest = .error reason)
    (second : List String) : room.deliver (first ++ second) = room.deliver first := by
  induction first generalizing room with
  | nil => cases h
  | cons line more ih =>
    rw [Room.deliver] at h
    rw [List.cons_append, Room.deliver, Room.deliver]
    split at h
    · rfl
    · simp only [ih h]

end

/-! ## Sections

There are three ways for a section to end: the sink refuses one of its lines, it ends early by
itself, or it is written whole and the next one follows. The first way takes precedence over the
second, since the lines come before the end. -/

section

variable {room left : Room} {nextLabel : Nat} {first : Section} {rest parts : List Section}
  {reason : String} {halt : Halt}

/-- A section that the sink does not take. Whatever the fragment ends with was not reached. -/
theorem writeSections_refused
    (h : (room.deliver (first.fragment.lines.map Line.text)).rest = .error reason) :
    writeSections room nextLabel (first :: rest) =
      { lines := (room.deliver (first.fragment.lines.map Line.text)).lines
        cut := (room.deliver (first.fragment.lines.map Line.text)).cut
        halt := some (.error (.write reason)), nextLabel := first.nextLabel } := by
  rw [writeSections]
  simp only [h]

/-- A section that the sink takes and that ends early. -/
theorem writeSections_halted
    (h : (room.deliver (first.fragment.lines.map Line.text)).rest = .ok left)
    (hhalt : first.fragment.halt = some halt) :
    writeSections room nextLabel (first :: rest) =
      { lines := first.fragment.lines.map Line.text, halt := some halt
        nextLabel := first.nextLabel } := by
  rw [writeSections]
  simp only [Room.deliver_of_ok h, hhalt]

/-- A section that the sink takes whole. -/
theorem writeSections_onward
    (h : (room.deliver (first.fragment.lines.map Line.text)).rest = .ok left)
    (hhalt : first.fragment.halt = none) :
    writeSections room nextLabel (first :: rest) =
      { writeSections left first.nextLabel rest with
        lines := first.fragment.lines.map Line.text ++
          (writeSections left first.nextLabel rest).lines } := by
  rw [writeSections]
  simp only [Room.deliver_of_ok h, hhalt]

/-- If a sink takes all lines that there would be, it makes no difference: writing ends where it
would end without a limit, and for the same reason. -/
theorem writeSections_of_ok
    (h : (room.deliver (writeSections .unlimited nextLabel parts).lines).rest = .ok left) :
    writeSections room nextLabel parts = writeSections .unlimited nextLabel parts := by
  induction parts generalizing room nextLabel with
  | nil => rfl
  | cons first rest ih =>
    have hall :=
      congrArg Delivery.rest (Room.deliver_unlimited (first.fragment.lines.map Line.text))
    rcases hhalt : first.fragment.halt with _ | halt
    -- the sections that follow start with the room that the first one leaves
    · rw [writeSections_onward hall hhalt] at h ⊢
      rcases hroom : (room.deliver (first.fragment.lines.map Line.text)).rest with reason | mid
      · rw [Room.deliver_append_of_error hroom, hroom] at h
        cases h
      · rw [Room.deliver_append_of_ok hroom] at h
        rw [writeSections_onward hroom hhalt, ih h]
    · rw [writeSections_halted hall hhalt] at h ⊢
      rw [writeSections_halted h hhalt]

/-- If a sink refuses one of the lines that there would be, then that is why writing ends. Which
label comes next is not said: it depends on the section that the line is in. -/
theorem writeSections_of_error
    (h : (room.deliver (writeSections .unlimited nextLabel parts).lines).rest = .error reason) :
    ∃ after, writeSections room nextLabel parts =
      { lines := (room.deliver (writeSections .unlimited nextLabel parts).lines).lines
        cut := (room.deliver (writeSections .unlimited nextLabel parts).lines).cut
        halt := some (.error (.write reason)), nextLabel := after } := by
  induction parts generalizing room nextLabel with
  | nil => cases h
  | cons first rest ih =>
    have hall :=
      congrArg Delivery.rest (Room.deliver_unlimited (first.fragment.lines.map Line.text))
    rcases hhalt : first.fragment.halt with _ | halt
    · rw [writeSections_onward hall hhalt] at h ⊢
      rcases hroom : (room.deliver (first.fragment.lines.map Line.text)).rest with reason' | mid
      -- the line that is refused is in the first section, or further on
      · rw [Room.deliver_append_of_error hroom] at h ⊢
        obtain rfl := Except.error.inj (hroom.symm.trans h)
        exact ⟨_, writeSections_refused hroom⟩
      · rw [Room.deliver_append_of_ok hroom] at h ⊢
        obtain ⟨after, hrest⟩ := ih h
        rw [writeSections_onward hroom hhalt, hrest]
        exact ⟨after, rfl⟩
    -- the refusal comes before the end of the section, so it is what counts
    · rw [writeSections_halted hall hhalt] at h ⊢
      exact ⟨_, writeSections_refused h⟩

end

/-! ## What a sink has room for

Lines are counted without regard to their length, and bytes with their line ends. -/

/-- The bytes of some lines with their line ends. -/
def textBytes (lines : List String) : List UInt8 :=
  lines.flatMap lineBytes

/-- The bytes of the first line come first. -/
theorem textBytes_cons (line : String) (more : List String) :
    textBytes (line :: more) = lineBytes line ++ textBytes more :=
  List.flatMap_cons

/-- A sink that counts lines takes the first ones. -/
theorem Room.deliver_lines (count : Nat) (lines : List String) :
    (Room.lines count).deliver lines =
      { lines := lines.take count
        rest := if count < lines.length then .error "sink is full"
          else .ok (.lines (count - lines.length)) } := by
  induction lines generalizing count with
  | nil =>
    rw [List.take_nil]
    rfl
  | cons line more ih =>
    cases count with
    | zero => rfl
    | succ count =>
      simp only [Room.deliver, Room.offer, ih, List.take_succ_cons, List.length_cons,
        Nat.add_lt_add_iff_right, Nat.add_sub_add_right]

/-- A sink that counts bytes is filled to the last one, whatever line that is in. What was cut off
of a line that did not fit is there as well. -/
theorem Room.bytes_deliver_bytes (count : Nat) (lines : List String) :
    textBytes ((Room.bytes count).deliver lines).lines ++ ((Room.bytes count).deliver lines).cut =
      (textBytes lines).take count := by
  induction lines generalizing count with
  | nil => exact List.take_nil.symm
  | cons line more ih =>
    rw [Room.deliver, Room.offer, textBytes_cons]
    by_cases hfits : (lineBytes line).length ≤ count
    · simp only [if_pos hfits, textBytes_cons, List.append_assoc, ih, List.take_append,
        List.take_of_length_le hfits]
    · simp only [if_neg hfits]
      rw [List.take_append_of_le_length (Nat.le_of_not_le hfits)]
      rfl

/-- It fails exactly if there are more bytes than it has room for. -/
theorem Room.rest_deliver_bytes (count : Nat) (lines : List String) :
    ((Room.bytes count).deliver lines).rest =
      if count < (textBytes lines).length then .error "failed to write whole buffer"
      else .ok (.bytes (count - (textBytes lines).length)) := by
  induction lines generalizing count with
  | nil => rfl
  | cons line more ih =>
    rw [Room.deliver, Room.offer, textBytes_cons, List.length_append]
    by_cases hfits : (lineBytes line).length ≤ count
    · have hmore : count - (lineBytes line).length < (textBytes more).length ↔
          count < (lineBytes line).length + (textBytes more).length := by omega
      simp only [if_pos hfits, ih, hmore, Nat.sub_sub]
    · have hmore : count < (lineBytes line).length + (textBytes more).length := by omega
      simp only [if_neg hfits, if_pos hmore]

/-! ## Programs

The sections of a program are fixed before anything is written, so what was said of sections
applies. -/

/-- All bytes that were written, those of a line that was cut off included. -/
def Emission.bytes (emission : Emission) : List UInt8 :=
  textBytes emission.lines ++ emission.cut

/-- A sink without a limit cuts no line. -/
theorem cut_writeSections_unlimited (nextLabel : Nat) (parts : List Section) :
    (writeSections .unlimited nextLabel parts).cut = [] := by
  induction parts generalizing nextLabel with
  | nil => rfl
  | cons first rest ih =>
    have hall :=
      congrArg Delivery.rest (Room.deliver_unlimited (first.fragment.lines.map Line.text))
    rcases hhalt : first.fragment.halt with _ | halt
    · rw [writeSections_onward hall hhalt]
      exact ih first.nextLabel
    · rw [writeSections_halted hall hhalt]

/-- Why writing ends after a delivery, if it would end with `halt` for all lines. A refusal is the
reason if there was one. -/
def Delivery.haltOr (delivery : Delivery) (halt : Option Halt) : Option Halt :=
  match delivery.rest with
  | .error reason => some (.error (.write reason))
  | .ok _ => halt

/-- If it is known when a delivery is refused, so is why writing ends. -/
theorem Delivery.haltOr_eq {delivery : Delivery} {p : Prop} [Decidable p] {reason : String}
    {left : Room} (h : delivery.rest = if p then .error reason else .ok left) (halt : Option Halt) :
    delivery.haltOr halt = if p then some (.error (.write reason)) else halt := by
  rw [Delivery.haltOr, h]
  by_cases hp : p
  · rw [if_pos hp, if_pos hp]
  · rw [if_neg hp, if_neg hp]

/-- A sink gets what it takes of the lines that there would be without a limit. -/
theorem emit_delivers (program : Program) (nextLabel : Nat) (room : Room) :
    let whole := emit program nextLabel .unlimited
    let delivery := room.deliver whole.lines
    let emission := emit program nextLabel room
    emission.lines = delivery.lines ∧ emission.cut = delivery.cut ∧
      emission.halt = delivery.haltOr whole.halt := by
  intro whole delivery emission
  rcases hrest : delivery.rest with reason | left
  · obtain ⟨after, hemission⟩ := writeSections_of_error hrest
    rw [show emission = _ from hemission, Delivery.haltOr, hrest]
    exact ⟨rfl, rfl, rfl⟩
  · have hemission : emission = whole := writeSections_of_ok hrest
    have hdelivery : delivery = _ := Room.deliver_of_ok hrest
    rw [hemission, hdelivery]
    exact ⟨rfl, cut_writeSections_unlimited _ _, rfl⟩

/-- A sink that fails holds an exact prefix. Let `whole` be what a sink without a limit gets; the
sink itself is then never the reason for an early end. A sink with room for `count` lines gets the
first `count` lines of it, and one with room for `count` bytes the first `count` bytes. Both fail if
that is not all of it; otherwise writing ends as it does without a limit. -/
theorem emit_fills_room (program : Program) (nextLabel count : Nat) :
    let whole := emit program nextLabel .unlimited
    let byLines := emit program nextLabel (.lines count)
    let byBytes := emit program nextLabel (.bytes count)
    (∀ reason, whole.halt ≠ some (.error (.write reason))) ∧
    (byLines.lines = whole.lines.take count ∧ byLines.cut = [] ∧
      byLines.halt =
        if count < whole.lines.length then some (.error (.write "sink is full")) else whole.halt) ∧
    byBytes.bytes = (textBytes whole.lines).take count ∧
      byBytes.halt =
        if count < (textBytes whole.lines).length then
          some (.error (.write "failed to write whole buffer"))
        else whole.halt := by
  intro whole byLines byBytes
  refine ⟨fun reason hhalt => ?_, ?_, ?_⟩
  · cases isOwn_of_emit_unlimited hhalt
  · obtain ⟨hlines, hcut, hhalt⟩ := emit_delivers program nextLabel (.lines count)
    rw [Room.deliver_lines] at hlines hcut hhalt
    exact ⟨hlines, hcut, hhalt.trans (Delivery.haltOr_eq rfl _)⟩
  · obtain ⟨hlines, hcut, hhalt⟩ := emit_delivers program nextLabel (.bytes count)
    refine ⟨?_, hhalt.trans (Delivery.haltOr_eq (Room.rest_deliver_bytes _ _) _)⟩
    rw [Emission.bytes, hlines, hcut, Room.bytes_deliver_bytes]

/-- A routine that reads a constant that the program does not have, after three lines. -/
def unpooled : Program where
  routines :=
    [{ name := "f", ty := .func [] .void, temps := 1
       insts := #[{ kind := .copy ⟨0⟩ (.const 3), next := some 1 }, { kind := .ret none }] }]

/-- The sink is the reason for the end as long as there is a line that it refuses, and then no
longer. -/
theorem emit_fills_room_unpooled :
    (emit unpooled 0 (.lines 2)).lines = ["    .globl f", "f:"] ∧
      (emit unpooled 0 (.lines 2)).halt = some (.error (.write "sink is full")) ∧
      (emit unpooled 0 (.lines 3)).halt = some (.error (.unknownConstant "f" 3)) ∧
      (emit unpooled 0 (.bytes 14)).bytes = "    .globl f\nf".toUTF8.data.toList ∧
      (emit unpooled 0 (.bytes 14)).halt =
        some (.error (.write "failed to write whole buffer")) := by
  obtain ⟨-, ⟨hlines, -, hfull⟩, -⟩ := emit_fills_room unpooled 0 2
  obtain ⟨-, ⟨-, -, hown⟩, -⟩ := emit_fills_room unpooled 0 3
  obtain ⟨-, -, hbytes, hcut⟩ := emit_fills_room unpooled 0 14
  exact ⟨hlines.trans (by decide +kernel), hfull.trans (by decide +kernel),
    hown.trans (by decide +kernel), hbytes.trans (by decide +kernel),
    hcut.trans (by decide +kernel)⟩

end WordLang.Asm
