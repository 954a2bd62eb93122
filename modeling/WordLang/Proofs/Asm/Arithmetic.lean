import Mathlib.Data.BitVec
import WordLang.Proofs.Asm.Machine

/-!
# Comparing and dividing

Two operations take more than one instruction. A comparison subtracts and reads the answer off the
flags: the sign of the difference says which word is smaller, unless the difference overflows, and
then it says the opposite. A division extends the dividend to two words first, and is made for that;
it traps exactly where dividing words does.

Both are facts on words of 64 bits and know nothing of graphs. Words are compared as signed numbers
throughout. What is used of them afterwards is `Flags.meet_ofDifference` and `longDivide_signFill`.
-/

namespace WordLang.Asm

/-! ## Flags

The flags of a difference are set together, by one instruction, so they always belong to the same
two words. -/

namespace Flags

/-- A difference is zero exactly between equal words. -/
theorem zero_ofDifference (left right : Word) :
    (ofDifference left right).zero = (left == right) := by
  simp only [ofDifference]
  rw [Bool.eq_iff_iff, beq_iff_eq, beq_iff_eq]
  exact sub_eq_zero

/-- The sign of a difference is wrong exactly where it overflows. Without overflow the difference is
that of the numbers; with it, it is off by the whole range, which turns the sign around. -/
theorem sign_bne_overflow (left right : Word) :
    ((ofDifference left right).sign != (ofDifference left right).overflow) = left.slt right := by
  have hleft : left.toInt < 2 ^ 63 := BitVec.toInt_lt
  have hleft' : -2 ^ 63 ≤ left.toInt := BitVec.le_toInt left
  have hright : right.toInt < 2 ^ 63 := BitVec.toInt_lt
  have hright' : -2 ^ 63 ≤ right.toInt := BitVec.le_toInt right
  simp only [ofDifference, BitVec.ssubOverflow, BitVec.msb_eq_toInt, BitVec.slt_eq_decide,
    BitVec.toInt_sub, Int.bmod_def]
  generalize left.toInt = l at *
  generalize right.toInt = r at *
  rw [Bool.eq_iff_iff, bne_iff_ne, ne_eq, Bool.eq_iff_iff]
  simp only [decide_eq_true_eq, Bool.or_eq_true]
  split <;> omega

/-- The flags of a difference know about every comparison, so one instruction serves all six of
them. -/
theorem meet_ofDifference (op : Comparison) (left right : Word) :
    (ofDifference left right).meet op = op.holds left right := by
  have hzero := zero_ofDifference left right
  have hless := sign_bne_overflow left right
  have hsame : ((ofDifference left right).sign == (ofDifference left right).overflow) =
      right.sle left := by
    rw [BitVec.sle_eq_not_slt, ← hless, bne, Bool.not_not]
  cases op with
  | ge => exact hsame
  | gt =>
    rw [meet, hzero, hsame, Comparison.holds, BitVec.slt_eq_sle_and_ne, Bool.and_comm, bne_comm]
    rfl
  | le =>
    rw [meet, hzero, hless, Comparison.holds, BitVec.sle_eq_slt_or_eq, Bool.or_comm]
  | lt => exact hless
  | eq => exact hzero
  | ne =>
    rw [meet, hzero]
    rfl

end Flags

/-! ## Division

The dividend is in two registers, the upper one filled with copies of the sign. Together they are
the same number. -/

/-- Filling up with the sign does not change the number. -/
theorem toInt_signFill_append (word : Word) :
    (signFill word ++ word : BitVec 128).toInt = word.toInt := by
  have hword := BitVec.toInt_eq_msb_cond word
  rw [BitVec.toInt_append, if_neg (by decide), hword, signFill]
  split
  · rw [show (-1 : Word).toInt = -1 by decide]
    omega
  · rw [show (0 : Word).toInt = 0 by decide]
    omega

/-- A word that was extended is divided as a word. The quotient of two words fits in a word but for
one case, the smallest number divided by minus one, and there the machine traps as it does for a
zero. -/
theorem longDivide_signFill (left right : Word) :
    longDivide (signFill left) left right =
      if divisionTraps left right then none else some (left.sdiv right, left.srem right) := by
  rw [longDivide, toInt_signFill_append]
  rcases htraps : divisionTraps left right with _ | _
  · simp only [divisionTraps, Bool.or_eq_false_iff, Bool.and_eq_false_iff, beq_eq_false_iff_ne]
      at htraps
    have hle : -2 ^ 63 ≤ (left.sdiv right).toInt := BitVec.le_toInt _
    have hlt : (left.sdiv right).toInt < 2 ^ 63 := BitVec.toInt_lt
    rw [BitVec.toInt_sdiv_of_ne_or_ne left right htraps.2] at hle hlt
    rw [if_neg, if_neg Bool.false_ne_true]
    · rw [← BitVec.toInt_sdiv_of_ne_or_ne left right htraps.2, ← BitVec.toInt_srem,
        BitVec.ofInt_toInt, BitVec.ofInt_toInt]
    · rintro (hzero | hsmall | hlarge)
      · exact htraps.1 hzero
      · omega
      · omega
  · simp only [divisionTraps, Bool.or_eq_true, Bool.and_eq_true, beq_iff_eq] at htraps
    rw [if_pos rfl, if_pos]
    rcases htraps with rfl | ⟨rfl, rfl⟩
    · exact .inl rfl
    · exact .inr (.inr (by decide))

end WordLang.Asm
