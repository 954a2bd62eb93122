/-!
# Sinks

Where lines go. A sink takes every line, or so many lines, or so many bytes. A line that does not
fit is refused with a reason; a sink that counts bytes still takes the part of it that fits.
-/

namespace WordLang.Asm

/-- How much a sink still takes. -/
inductive Room where
  | unlimited
  | lines (count : Nat)
  | bytes (count : Nat)
deriving DecidableEq

/-- The bytes of a line with its line end. -/
def lineBytes (line : String) : List UInt8 :=
  (line ++ "\n").toUTF8.data.toList

/-- What became of some lines: those taken, the part taken of a line that was refused, and either
the room left or the reason of the refusal. -/
structure Delivery where
  lines : List String
  cut : List UInt8 := []
  rest : Except String Room

/-- Offers one line: the room left, or the reason and the part that was taken. -/
def Room.offer (line : String) : Room → Except (String × List UInt8) Room
  | .unlimited => .ok .unlimited
  | .lines 0 => .error ("sink is full", [])
  | .lines (count + 1) => .ok (.lines count)
  | .bytes count =>
    let bytes := lineBytes line
    if bytes.length ≤ count then .ok (.bytes (count - bytes.length))
    else .error ("failed to write whole buffer", bytes.take count)

/-- Offers lines until one is refused. -/
def Room.deliver (room : Room) : List String → Delivery
  | [] => { lines := [], rest := .ok room }
  | line :: more =>
    match room.offer line with
    | .error (reason, cut) => { lines := [], cut, rest := .error reason }
    | .ok left =>
      let delivery := left.deliver more
      { delivery with lines := line :: delivery.lines }

/-- A sink without a limit takes everything. -/
@[simp]
theorem Room.deliver_unlimited (lines : List String) :
    Room.unlimited.deliver lines = { lines, rest := .ok .unlimited } := by
  induction lines with
  | nil => rfl
  | cons line more ih => simp [Room.deliver, Room.offer, ih]

end WordLang.Asm
