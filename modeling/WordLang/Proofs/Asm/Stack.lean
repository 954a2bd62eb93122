import Mathlib.Data.BitVec
import WordLang.Proofs.Asm.Machine

/-!
# Words of a stack

A stack is the words below some address. A byte has a *depth* in it: the number of whole words
between the word it is in and the topmost one. All about words that do not overlap comes down to
their depths: writing the word at one depth is nothing to a byte at another.

Addresses wrap around, so the words below an address come around to it in the end. Depths are
different only as long as there is room for so many words (`maxWords`), and every statement about
two words of one stack asks for that.
-/

namespace WordLang

/-! ## Words in memory

A word is eight bytes in a row. Whether a byte belongs to the word at an address is seen from its
distance to that address. -/

namespace Memory

variable {memory memory' : Memory} {address value place : Word}

/-- A word depends on its eight bytes. -/
theorem read_congr (h : ∀ place : Word, (place - address).toNat < 8 →
    memory place = memory' place) :
    memory.read address = memory'.read address := by
  have hbyte : ∀ offset : Word, offset.toNat < 8 →
      memory (address + offset) = memory' (address + offset) := by
    intro offset hlt
    apply h
    rwa [add_sub_cancel_left]
  have hfirst : memory address = memory' address := by
    apply h
    rw [sub_self]
    decide
  simp only [read]
  rw [hbyte 1 (by decide), hbyte 2 (by decide), hbyte 3 (by decide), hbyte 4 (by decide),
    hbyte 5 (by decide), hbyte 6 (by decide), hbyte 7 (by decide), hfirst]

/-- Writing a word leaves the bytes outside of it alone. -/
theorem write_of_le (h : 8 ≤ (place - address).toNat) :
    memory.write address value place = memory place :=
  if_neg (Nat.not_lt.mpr h)

/-- Inside of it, each byte is the part of the word at its place. -/
theorem write_add (memory : Memory) (address value offset : Word) (h : offset.toNat < 8) :
    memory.write address value (address + offset) = value.extractLsb' (8 * offset.toNat) 8 := by
  simp only [write]
  rw [add_sub_cancel_left, if_pos h]

/-- What is written can be read. -/
theorem read_write (memory : Memory) (address value : Word) :
    (memory.write address value).read address = value := by
  have hfirst := write_add memory address value 0 (by decide)
  rw [add_zero] at hfirst
  -- two parts of the value that stand next to each other are one part
  have hjoin : ∀ start len : Nat, value.extractLsb' (start + 8) len ++ value.extractLsb' start 8 =
      value.extractLsb' start (len + 8) :=
    fun start len => BitVec.extractLsb'_append_extractLsb'_eq_extractLsb' rfl
  simp only [read]
  rw [hfirst, write_add _ _ _ 1 (by decide), write_add _ _ _ 2 (by decide),
    write_add _ _ _ 3 (by decide), write_add _ _ _ 4 (by decide), write_add _ _ _ 5 (by decide),
    write_add _ _ _ 6 (by decide), write_add _ _ _ 7 (by decide)]
  calc
    _ = value.extractLsb' 0 64 := by
      rw [← hjoin 0 56, ← hjoin 8 48, ← hjoin 16 40, ← hjoin 24 32, ← hjoin 32 24, ← hjoin 40 16,
        ← hjoin 48 8]
      rfl
    _ = value := BitVec.extractLsb'_eq_self

end Memory

/-! ## Depth

The bytes of a stack by the words they are in. -/

namespace Asm

variable {top place value : Word} {memory memory' : Memory} {k : Nat}

/-- How many whole words there are from a byte up to the topmost word. -/
def depth (top place : Word) : Nat :=
  (top + 7 - place).toNat / wordSize

/-- There is room for so many words without coming around to the first. -/
def maxWords : Nat :=
  2 ^ 61

/-- The bytes of a given depth are those of one word. -/
theorem depth_eq_iff (h : k < maxWords) :
    depth top place = k ↔ (place - below top k).toNat < 8 := by
  unfold maxWords at h
  unfold depth below wordSize
  bv_omega

/-- Writing a word is nothing to the bytes at another depth. -/
theorem write_of_depth_ne (hk : k < maxWords) (h : depth top place ≠ k) :
    memory.write (below top k) value place = memory place := by
  apply Memory.write_of_le
  rw [← Nat.not_lt, ← depth_eq_iff hk]
  exact h

/-- The word at a depth depends only on its own bytes. -/
theorem read_below_congr (hk : k < maxWords)
    (h : ∀ place, depth top place = k → memory place = memory' place) :
    memory.read (below top k) = memory'.read (below top k) := by
  apply Memory.read_congr
  intro place hplace
  exact h place ((depth_eq_iff hk).mpr hplace)

/-- Writing a word of the stack leaves the other words alone. -/
theorem read_below_write {j : Nat} (hk : k < maxWords) (hj : j < maxWords) (h : k ≠ j) :
    (memory.write (below top j) value).read (below top k) = memory.read (below top k) := by
  apply read_below_congr hk
  intro place hplace
  apply write_of_depth_ne hj
  rw [hplace]
  exact h

/-! ## Up and down

Moving along a stack is adding and taking off words. -/

/-- Going down twice. -/
theorem below_below (address : Word) (first second : Nat) :
    below (below address first) second = below address (first + second) := by
  simp only [below]
  rw [sub_sub, ← BitVec.ofNat_add, Nat.add_mul]

/-- Going down and part of the way up again. -/
theorem above_below (address : Word) {words down : Nat} (h : words ≤ down) :
    above (below address down) words = below address (down - words) := by
  obtain ⟨rest, rfl⟩ := Nat.exists_eq_add_of_le h
  rw [Nat.add_sub_cancel_left, Nat.add_comm, ← below_below]
  exact sub_add_cancel _ _

/-- Going nowhere. -/
@[simp]
theorem below_zero (address : Word) : below address 0 = address := by
  simp [below]

/-- Going up is going down all the way around. -/
theorem above_eq_below (address : Word) {words : Nat} (h : words ≤ maxWords) :
    above address words = below address (maxWords - words) := by
  unfold maxWords at *
  unfold above below wordSize
  bv_omega

end Asm

end WordLang
