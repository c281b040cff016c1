import Mathlib.Data.BitVec
import Mathlib.Tactic.Ring
import Mathlib.Tactic.Linarith

/-!
# Displacements in narrow fields

`signExtend val size` keeps the bits of a word up to bit `size` and copies that bit to those
above.  A displacement survives this exactly if it lies between `-2 ^ size` and `2 ^ size`.
Rounding up to a multiple of four is done on words by masking.
-/

namespace Mold.Lib

/-- The low `size + 1` bits as a two's complement number. -/
def signExtend (val : BitVec 64) (size : ℕ) : BitVec 64 :=
  (val <<< (63 - size)).sshiftRight (63 - size)

theorem toInt_shiftLeft_eq_bmod (val : BitVec 64) (k : ℕ) :
    (val <<< k).toInt = (val.toInt * 2 ^ k).bmod (2 ^ 64) := by
  rw [BitVec.toInt_shiftLeft, Nat.shiftLeft_eq, BitVec.toInt_eq_toNat_bmod, Int.bmod_mul_bmod]
  push_cast
  rfl

/-- What sign extension keeps is a signed number of `size + 1` bits. -/
theorem signExtend_eq_iff {val : BitVec 64} {size : ℕ} (hsize : size ≤ 63) :
    signExtend val size = val ↔ -(2 : ℤ) ^ size ≤ val.toInt ∧ val.toInt < (2 : ℤ) ^ size := by
  have hpos : (0 : ℤ) < 2 ^ (63 - size) := by positivity
  have hpow : (2 : ℤ) ^ size * 2 ^ (63 - size) = 2 ^ 63 := by
    rw [← pow_add, Nat.add_sub_cancel' hsize]
  have hval : (signExtend val size).toInt = (val <<< (63 - size)).toInt / 2 ^ (63 - size) := by
    rw [signExtend, BitVec.toInt_sshiftRight, Int.shiftRight_eq_div_pow]
    push_cast
    rfl
  constructor
  · intro h
    rw [h] at hval
    have hlo := BitVec.le_toInt (val <<< (63 - size))
    have hhi := BitVec.toInt_lt (x := val <<< (63 - size))
    rw [hval]
    constructor
    · refine (Int.le_ediv_iff_mul_le hpos).mpr ?_
      rw [neg_mul, hpow]
      exact hlo
    · refine Int.ediv_lt_of_lt_mul hpos ?_
      rw [hpow]
      exact hhi
  · rintro ⟨hlo, hhi⟩
    refine BitVec.toInt_inj.mp ?_
    have hlo' : -(2 : ℤ) ^ 63 ≤ val.toInt * 2 ^ (63 - size) := by
      rw [← hpow, ← neg_mul]
      exact mul_le_mul_of_nonneg_right hlo hpos.le
    have hhi' : val.toInt * 2 ^ (63 - size) < (2 : ℤ) ^ 63 := by
      rw [← hpow]
      exact mul_lt_mul_of_pos_right hhi hpos
    rw [hval, toInt_shiftLeft_eq_bmod,
      Int.bmod_eq_of_le (by push_cast; omega) (by push_cast; omega)]
    exact Int.mul_ediv_cancel _ hpos.ne'

/-! ## Fields of four bytes -/

/-- The low four bytes as a two's complement number. -/
def signExtend32 (x : UInt64) : UInt64 := x.toUInt32.toInt32.toInt64.toUInt64

/-- The distance is a signed number of 32 bits. -/
def FitsDisp (d : UInt64) : Prop := -2 ^ 31 ≤ d.toInt64.toInt ∧ d.toInt64.toInt < 2 ^ 31

theorem toInt32_toUInt32 (x : UInt64) : x.toUInt32.toInt32 = x.toInt64.toInt32 := by
  apply Int32.toBitVec_inj.mp
  rw [UInt32.toBitVec_toInt32, UInt64.toBitVec_toUInt32, Int64.toBitVec_toInt32,
    UInt64.toBitVec_toInt64, BitVec.signExtend_eq_setWidth_of_le _ (by decide)]

theorem signExtend32_of_fits {d : UInt64} (h : FitsDisp d) : signExtend32 d = d := by
  obtain ⟨hlow, hhigh⟩ := h
  have hround : d.toInt64.toInt32.toInt64 = d.toInt64 := by
    apply Int64.toInt_inj.mp
    rw [Int32.toInt_toInt64, Int64.toInt_toInt32, Int.bmod_eq_of_le] <;> omega
  rw [signExtend32, toInt32_toUInt32, hround]
  rfl

theorem toUInt32_signExtend32 (x : UInt64) : (signExtend32 x).toUInt32 = x.toUInt32 := by
  have hround : (signExtend32 x).toUInt32.toInt32 = x.toUInt32.toInt32 := by
    rw [toInt32_toUInt32, signExtend32]
    simp
  exact congrArg Int32.toUInt32 hround

theorem signExtend32_eq_iff {x d : UInt64} (h : FitsDisp d) :
    signExtend32 x = d ↔ x.toUInt32 = d.toUInt32 := by
  constructor
  · intro heq
    rw [← heq, toUInt32_signExtend32]
  · intro heq
    rw [← signExtend32_of_fits h, signExtend32, heq]
    rfl

/-! ## Rounding up to four -/

def alignToFour (val : BitVec 64) : BitVec 64 :=
  (val + 4 - 1) &&& ~~~3#64

theorem getLsbD_not_three : ∀ j : Fin 64, (~~~3#64).getLsbD j = decide (2 ≤ j.val) := by
  decide

theorem and_not_three (x : BitVec 64) : x &&& ~~~3#64 = (x >>> 2) <<< 2 := by
  refine BitVec.eq_of_getLsbD_eq fun i hi => ?_
  rw [BitVec.getLsbD_and, getLsbD_not_three ⟨i, hi⟩, BitVec.getLsbD_shiftLeft,
    BitVec.getLsbD_ushiftRight]
  by_cases h2 : 2 ≤ i
  · have h1 : ¬ i < 2 := by omega
    rw [Nat.add_sub_cancel' h2]
    simp only [h2, hi, h1, decide_true, decide_false, Bool.not_false, Bool.and_true, Bool.true_and]
  · have h1 : i < 2 := by omega
    simp only [h2, h1, decide_true, decide_false, Bool.not_true, Bool.and_false, Bool.false_and]

theorem toNat_and_not_three (x : BitVec 64) : (x &&& ~~~3#64).toNat = x.toNat / 4 * 4 := by
  have hlt := x.isLt
  rw [and_not_three, BitVec.toNat_shiftLeft, BitVec.toNat_ushiftRight,
    Nat.shiftRight_eq_div_pow, Nat.shiftLeft_eq]
  omega

theorem toInt_alignToFour {val : BitVec 64} (hlo : -(2 : ℤ) ^ 62 ≤ val.toInt)
    (hhi : val.toInt < 2 ^ 62) :
    (alignToFour val).toInt = (val.toInt + 3) / 4 * 4 := by
  have hnat : (val + 4 - 1).toNat = (val.toNat + 3) % 2 ^ 64 := by
    have hfour : (4 : BitVec 64).toNat = 4 := rfl
    have hone : (1 : BitVec 64).toNat = 1 := rfl
    rw [BitVec.toNat_sub, BitVec.toNat_add, hfour, hone]
    omega
  have hand : (alignToFour val).toNat = (val.toNat + 3) % 2 ^ 64 / 4 * 4 := by
    rw [alignToFour, toNat_and_not_three, hnat]
  rw [BitVec.toInt_eq_toNat_cond] at hlo hhi ⊢
  rw [BitVec.toInt_eq_toNat_cond]
  have hlt := val.isLt
  split_ifs at * <;> omega

end Mold.Lib
