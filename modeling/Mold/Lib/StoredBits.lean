import Mold.Lib.BitField
import Mold.Lib.Displacement
import Mold.Lib.WordMemory

/-!
# Numbers in some bits of a memory

The bits of a memory are numbered from its first byte on, the lowest bit of a byte first.  A
store of a patched number changes the bits of the layout only, and `signExtend` reads back a
signed number from the bits it was put in.
-/

namespace Mold.Lib

open BitScatter

/-! ## Bits of a memory -/

def memBit (mem : Memory) (k : ℕ) : Bool := (mem (k / 8)).val.testBit (k % 8)

theorem testBit_readLe (bytes : List Byte) (i : ℕ) :
    (readLe bytes).testBit i = (bytes.getD (i / 8) 0).val.testBit (i % 8) := by
  induction bytes generalizing i with
  | nil => rw [readLe, List.getD_nil, Fin.val_zero, Nat.zero_testBit, Nat.zero_testBit]
  | cons b bytes ih =>
    have hread : readLe (b :: bytes) = 2 ^ 8 * readLe bytes + b.val := Nat.add_comm _ _
    rw [hread, Nat.testBit_two_pow_mul_add _ b.isLt]
    by_cases hi : i < 8
    · rw [if_pos hi, Nat.div_eq_of_lt hi, Nat.mod_eq_of_lt hi, List.getD_cons_zero]
    · obtain ⟨j, rfl⟩ := Nat.exists_eq_add_of_le (Nat.le_of_not_lt hi)
      rw [if_neg hi, Nat.add_sub_cancel_left, ih, Nat.add_mod_left, Nat.add_comm 8 j,
        Nat.add_div_right j (by decide), List.getD_cons_succ]

section Stored

variable {n : ℕ} {mem : Memory} {loc : ℕ}

theorem testBit_loadField (i : ℕ) :
    (loadField .little n mem loc).testBit i =
      (decide (i < 8 * n) && memBit mem (8 * loc + i)) := by
  have hbyte : (8 * loc + i) / 8 = loc + i / 8 := by omega
  have hbit : (8 * loc + i) % 8 = i % 8 := by omega
  rw [loadField, testBit_readLe, memBit, hbyte, hbit]
  by_cases hi : i < 8 * n
  · rw [List.getD_eq_getElem _ _ (by rw [List.length_map, List.length_range]; omega),
      List.getElem_map, List.getElem_range, decide_eq_true hi, Bool.true_and]
    rfl
  · rw [List.getD_eq_default _ _ (by rw [List.length_map, List.length_range]; omega),
      decide_eq_false hi, Bool.false_and]
    exact Nat.zero_testBit _

theorem memBit_storeField (val k : ℕ) :
    memBit (storeField .little n mem loc val) k =
      if 8 * loc ≤ k ∧ k < 8 * (loc + n) then val.testBit (k - 8 * loc) else memBit mem k := by
  by_cases hk : 8 * loc ≤ k ∧ k < 8 * (loc + n)
  · obtain ⟨i, rfl⟩ := Nat.exists_eq_add_of_le hk.1
    have hbyte : (8 * loc + i) / 8 = loc + i / 8 := by omega
    have hbit : (8 * loc + i) % 8 = i % 8 := by omega
    have hpow : 256 ^ (i / 8) = 2 ^ (8 * (i / 8)) := (pow_mul 2 8 (i / 8)).symm
    rw [if_pos hk, memBit, hbyte, hbit, storeField, if_pos (by omega), Nat.add_sub_cancel_left,
      Nat.add_sub_cancel_left]
    have hval : (Fin.ofNat 256 (val / 256 ^ (i / 8))).val = val / 256 ^ (i / 8) % 2 ^ 8 := rfl
    rw [Endian.place, hval, hpow, Nat.testBit_mod_two_pow, Nat.testBit_div_two_pow,
      decide_eq_true (Nat.mod_lt i (by decide)), Bool.true_and, Nat.add_comm, Nat.div_add_mod]
  · rw [if_neg hk, memBit, memBit, storeField_of_not_mem (by omega)]

theorem loadField_storeField_of_apart {m loc' : ℕ} (val : ℕ)
    (h : loc + n ≤ loc' ∨ loc' + m ≤ loc) :
    loadField .little m (storeField .little n mem loc val) loc' =
      loadField .little m mem loc' := by
  apply Nat.eq_of_testBit_eq
  intro i
  rw [testBit_loadField, testBit_loadField, memBit_storeField]
  by_cases hi : i < 8 * m
  · rw [if_neg (by omega)]
  · rw [decide_eq_false hi, Bool.false_and, Bool.false_and]

/-! ## Patched numbers -/

/-- The memory in which the number of `n` bytes at a location is patched. -/
def patchField (n keep : ℕ) (ps : List Piece) (mem : Memory) (loc val : ℕ) : Memory :=
  storeField .little n mem loc (patch keep ps (loadField .little n mem loc) val)

variable {keep : ℕ} {ps : List Piece}

theorem memBit_patchField (hkeep : keep ||| mask ps = 2 ^ (8 * n) - 1) (val : ℕ) {k : ℕ}
    (hk : ¬(8 * loc ≤ k ∧ (mask ps).testBit (k - 8 * loc) = true)) :
    memBit (patchField n keep ps mem loc val) k = memBit mem k := by
  rw [patchField, memBit_storeField]
  split
  case isTrue h =>
    have hmask := Bool.eq_false_iff.mpr fun hbit => hk ⟨h.1, hbit⟩
    have hlt : k - 8 * loc < 8 * n := by omega
    rw [testBit_patch_of_keep hkeep hlt hmask, testBit_loadField, decide_eq_true hlt,
      Bool.true_and, Nat.add_sub_cancel' h.1]
  case isFalse => rfl

theorem loadField_patchField (hkeep : keep ||| mask ps = 2 ^ (8 * n) - 1) (val : ℕ) :
    loadField .little n (patchField n keep ps mem loc val) loc =
      patch keep ps (loadField .little n mem loc) val := by
  rw [patchField, loadField_storeField]
  apply Nat.mod_eq_of_lt
  have hpow : 256 ^ n = 2 ^ (8 * n) := (pow_mul 2 8 n).symm
  rw [hpow]
  apply Nat.lt_pow_two_of_testBit
  intro i hi
  have hbits := congrArg (Nat.testBit · i) hkeep
  simp only [Nat.testBit_or, Nat.testBit_two_pow_sub_one, decide_eq_false (Nat.not_lt.mpr hi),
    Bool.or_eq_false_iff] at hbits
  have hscatter : (scatter ps val).testBit i = false := by
    have hmask := hbits.2
    rw [testBit_mask, List.any_eq_false] at hmask
    rw [testBit_scatter, List.any_eq_false]
    intro p hp hbit
    exact hmask p hp (Bool.and_eq_true_iff.mp hbit).1
  rw [patch, Nat.testBit_or, Nat.testBit_and, hbits.1, hscatter, Bool.and_false, Bool.or_false]

end Stored

section Read

variable {keep : ℕ} {ps : List Piece}

/-- A piece of a patched number is the part of the number that was put there. -/
theorem run_patch (hapart : Apart ps) (hkeep : keep &&& mask ps = 0) {p : Piece} (hp : p ∈ ps)
    (word val : ℕ) : run (patch keep ps word val) p.dst p.width = run val p.src p.width := by
  apply Nat.eq_of_testBit_eq
  intro i
  rw [testBit_run, testBit_run]
  by_cases hi : i < p.width
  · have hrun : InRun p.dst p.width (p.dst + i) := ⟨Nat.le_add_right _ _, by omega⟩
    have hmem : (mask ps).testBit (p.dst + i) = true := by
      rw [testBit_mask, List.any_eq_true]
      exact ⟨p, hp, decide_eq_true hrun⟩
    have hbit := congrArg (Nat.testBit · (p.dst + i)) hkeep
    simp only [Nat.testBit_and, hmem, Bool.and_true, Nat.zero_testBit] at hbit
    rw [patch, Nat.testBit_or, Nat.testBit_and, hbit, Bool.and_false, Bool.false_or,
      testBit_scatter_of_mem hapart hp hrun, Nat.add_sub_cancel_left]
  · rw [decide_eq_false hi, Bool.false_and, Bool.false_and]

/-- Pieces that stay in their places make up the bits that they cover. -/
theorem gather_of_fixed (hfixed : ∀ p ∈ ps, p.dst = p.src) {low high : ℕ}
    (hcover : ∀ i, (∃ p ∈ ps, InRun p.src p.width i) ↔ low ≤ i ∧ i < high) (val : ℕ) :
    gather ps val = val % 2 ^ high / 2 ^ low * 2 ^ low := by
  apply Nat.eq_of_testBit_eq
  intro i
  rw [testBit_gather, ← Nat.shiftLeft_eq, Nat.testBit_shiftLeft, Nat.testBit_div_two_pow,
    Nat.testBit_mod_two_pow, Bool.eq_iff_iff, List.any_eq_true]
  simp only [Bool.and_eq_true, decide_eq_true_eq]
  constructor
  · rintro ⟨p, hp, hi, hbit⟩
    obtain ⟨hlow, hhigh⟩ := (hcover i).mp ⟨p, hp, hi⟩
    rw [hfixed p hp, Nat.add_sub_cancel' hi.1] at hbit
    rw [Nat.sub_add_cancel hlow]
    exact ⟨hlow, hhigh, hbit⟩
  · rintro ⟨hlow, hhigh, hbit⟩
    rw [Nat.sub_add_cancel hlow] at hhigh hbit
    obtain ⟨p, hp, hi⟩ := (hcover i).mpr ⟨hlow, hhigh⟩
    refine ⟨p, hp, hi, ?_⟩
    rwa [hfixed p hp, Nat.add_sub_cancel' hi.1]

end Read

/-! ## Signed numbers -/

variable {size : ℕ}

theorem signExtend_congr {x y : BitVec 64} (hsize : size ≤ 63)
    (h : x.toNat % 2 ^ (size + 1) = y.toNat % 2 ^ (size + 1)) :
    signExtend x size = signExtend y size := by
  have hshift : x <<< (63 - size) = y <<< (63 - size) := by
    apply BitVec.eq_of_getLsbD_eq
    intro i hi
    rw [BitVec.getLsbD_shiftLeft, BitVec.getLsbD_shiftLeft]
    by_cases hlow : i < 63 - size
    · rw [decide_eq_true hlow, Bool.not_true, Bool.and_false, Bool.false_and, Bool.false_and]
    · have hbit := congrArg (Nat.testBit · (i - (63 - size))) h
      simp only [Nat.testBit_mod_two_pow, decide_eq_true (by omega : i - (63 - size) < size + 1),
        Bool.true_and] at hbit
      rw [BitVec.getLsbD, BitVec.getLsbD, hbit]
  rw [signExtend, signExtend, hshift]

theorem toInt_ofInt_of_fits {b : ℤ} (hsize : size ≤ 63)
    (hlow : -(2 : ℤ) ^ size ≤ b) (hhigh : b < (2 : ℤ) ^ size) :
    (BitVec.ofInt 64 b).toInt = b := by
  have hpow : (2 : ℤ) ^ size ≤ 2 ^ 63 := pow_le_pow_right₀ (by decide) hsize
  rw [BitVec.toInt_ofInt, Int.bmod_eq_of_le (by push_cast; omega) (by push_cast; omega)]

theorem toNat_ofInt_mod {m : ℕ} (hm : m ≤ 64) (b : ℤ) :
    (BitVec.ofInt 64 b).toNat % 2 ^ m = (b % 2 ^ m).toNat := by
  rw [BitVec.toNat_ofInt]
  exact BitField.toNat_emod_mod hm b

/-- A signed number is read back from its low bits. -/
theorem signExtend_ofNat {v : ℕ} {b : ℤ} (hsize : size ≤ 63)
    (hlow : -(2 : ℤ) ^ size ≤ b) (hhigh : b < (2 : ℤ) ^ size)
    (h : v % 2 ^ (size + 1) = (b % 2 ^ (size + 1)).toNat) :
    signExtend (BitVec.ofNat 64 v) size = BitVec.ofInt 64 b := by
  have hdvd : 2 ^ (size + 1) ∣ 2 ^ 64 := Nat.pow_dvd_pow 2 (by omega)
  have hmod : (BitVec.ofNat 64 v).toNat % 2 ^ (size + 1) =
      (BitVec.ofInt 64 b).toNat % 2 ^ (size + 1) := by
    rw [BitVec.toNat_ofNat, Nat.mod_mod_of_dvd v hdvd, h, toNat_ofInt_mod (by omega)]
  rw [signExtend_congr hsize hmod, signExtend_eq_iff hsize, toInt_ofInt_of_fits hsize hlow hhigh]
  exact ⟨hlow, hhigh⟩

/-- A signed number is read back from pieces that cover its bits. -/
theorem signExtend_gather {ps : List Piece} (hfixed : ∀ p ∈ ps, p.dst = p.src) {low size : ℕ}
    (hcover : ∀ i, (∃ p ∈ ps, InRun p.src p.width i) ↔ low ≤ i ∧ i < size + 1)
    (hsize : size ≤ 63) (hle : low ≤ size) {a : ℤ} (hdvd : (2 : ℤ) ^ low ∣ a)
    (hlow : -(2 : ℤ) ^ size ≤ a) (hhigh : a < (2 : ℤ) ^ size) {val : ℕ}
    (h : val % 2 ^ (size + 1) = (a % 2 ^ (size + 1)).toNat) :
    signExtend (BitVec.ofNat 64 (gather ps val)) size = BitVec.ofInt 64 a := by
  have hpow : (2 : ℤ) ^ low ∣ 2 ^ (size + 1) := pow_dvd_pow 2 (by omega)
  have hrest : 2 ^ low ∣ val % 2 ^ (size + 1) := by
    rw [h]
    zify
    rw [Int.toNat_of_nonneg (Int.emod_nonneg _ (by positivity)), Int.emod_def]
    exact Int.dvd_sub hdvd (hpow.mul_right _)
  rw [gather_of_fixed hfixed hcover, Nat.div_mul_cancel hrest]
  exact signExtend_ofNat hsize hlow hhigh (by rw [Nat.mod_mod, h])

theorem ofInt_shiftLeft (b : ℤ) (k : ℕ) :
    BitVec.ofInt 64 b <<< k = BitVec.ofInt 64 (b * 2 ^ k) := by
  apply BitVec.toInt_inj.mp
  rw [toInt_shiftLeft_eq_bmod, BitVec.toInt_ofInt, BitVec.toInt_ofInt]
  exact Int.bmod_mul_bmod

theorem run_eq (val low width : ℕ) : run val low width = val / 2 ^ low % 2 ^ width := by
  rw [run, Nat.and_two_pow_sub_one_eq_mod, Nat.shiftRight_eq_div_pow]

/-- The part of a multiple of `2 ^ low` from the bit `low` on. -/
theorem run_ofInt {low width : ℕ} (h : low + width ≤ 64) (b : ℤ) :
    run (BitVec.ofInt 64 (b * 2 ^ low)).toNat low width = (b % 2 ^ width).toNat := by
  have hmod : (BitVec.ofInt 64 (b * 2 ^ low)).toNat % 2 ^ (low + width) =
      (b % 2 ^ width).toNat * 2 ^ low := by
    have hpow : (2 : ℤ) ^ low = ((2 ^ low : ℕ) : ℤ) := by push_cast; rfl
    rw [toNat_ofInt_mod h, pow_add, mul_comm b, Int.mul_emod_mul_of_pos _ _ (by positivity),
      mul_comm, Int.toNat_mul (Int.emod_nonneg _ (by positivity)) (by positivity), hpow,
      Int.toNat_natCast]
  rw [run_eq, ← Nat.mod_mul_right_div_self, ← pow_add, hmod,
    Nat.mul_div_cancel _ (Nat.two_pow_pos low)]

/-! ## Fields of a place -/

/-- A signed number of `width` bits that counts multiples of `2 ^ scale`.  Its bits are in some
runs of bits of a place. -/
structure SignedField where
  runs : List (ℕ × ℕ)
  scale : ℕ
  width : ℕ

namespace SignedField

def Has (f : SignedField) (loc k : ℕ) : Prop := ∃ r ∈ f.runs, InRun (8 * loc + r.1) r.2 k

def Represents (f : SignedField) (a : ℤ) : Prop :=
  ∃ b : ℤ, a = b * 2 ^ f.scale ∧ -2 ^ (f.width - 1) ≤ b ∧ b < 2 ^ (f.width - 1)

/-- A number in the field is read back, and all other bits are as before. -/
structure Stores (f : SignedField) (mem mem' : Memory) (loc : ℕ) (read : Memory → BitVec 64)
    (a : ℤ) : Prop where
  read_eq : read mem' = BitVec.ofInt 64 a
  others : ∀ k, ¬f.Has loc k → memBit mem' k = memBit mem k

variable {f : SignedField} {mem : Memory} {loc n keep : ℕ}

theorem Represents.bounds {a : ℤ} (h : f.Represents a) : 2 ^ f.scale ∣ a ∧
    -2 ^ (f.width - 1 + f.scale) ≤ a ∧ a < 2 ^ (f.width - 1 + f.scale) := by
  obtain ⟨b, rfl, hlow, hhigh⟩ := h
  have hpos : (0 : ℤ) < 2 ^ f.scale := by positivity
  rw [pow_add, ← neg_mul]
  exact ⟨Int.dvd_mul_left _ _, Int.mul_le_mul_of_nonneg_right hlow hpos.le,
    Int.mul_lt_mul_of_pos_right hhigh hpos⟩

theorem memBit_patchField (off : ℕ) {ps : List Piece} (hkeep : keep ||| mask ps = 2 ^ (8 * n) - 1)
    (hruns : ∀ p ∈ ps, (8 * off + p.dst, p.width) ∈ f.runs) {k : ℕ} (hk : ¬f.Has loc k) (val : ℕ) :
    memBit (patchField n keep ps mem (loc + off) val) k = memBit mem k := by
  refine Lib.memBit_patchField hkeep val fun ⟨hle, hbit⟩ => hk ?_
  rw [testBit_mask, List.any_eq_true] at hbit
  obtain ⟨p, hp, hbit⟩ := hbit
  obtain ⟨hlow, hhigh⟩ := of_decide_eq_true hbit
  refine ⟨_, hruns p hp, ?_, ?_⟩ <;> dsimp only <;> omega

theorem memBit_storeField (hruns : (0, 8 * n) ∈ f.runs) {k : ℕ} (hk : ¬f.Has loc k) (val : ℕ) :
    memBit (storeField .little n mem loc val) k = memBit mem k := by
  rw [Lib.memBit_storeField, if_neg]
  intro hin
  refine hk ⟨_, hruns, ?_, ?_⟩ <;> dsimp only <;> omega

/-- A number in the low bits of a place, which `signExtend` reads. -/
theorem stores_low {scale width : ℕ} (hkeep : keep ||| mask [⟨scale, 0, width⟩] = 2 ^ (8 * n) - 1)
    (hapart : keep &&& mask [⟨scale, 0, width⟩] = 0) (hwidth : 0 < width) (h : scale + width ≤ 64)
    {a : ℤ} (ha : Represents ⟨[(0, width)], scale, width⟩ a) :
    Stores ⟨[(0, width)], scale, width⟩ mem
      (patchField n keep [⟨scale, 0, width⟩] mem loc (BitVec.ofInt 64 a).toNat) loc
      (fun mem' =>
        signExtend (BitVec.ofNat 64 (loadField .little n mem' loc)) (width - 1) <<< scale) a := by
  obtain ⟨b, rfl, hlow, hhigh⟩ := ha
  have hsize : width - 1 + 1 = width := Nat.sub_add_cancel hwidth
  have hrun := run_patch (List.pairwise_singleton _ _) hapart (List.mem_singleton_self _)
    (loadField .little n mem loc) (BitVec.ofInt 64 (b * 2 ^ scale)).toNat
  dsimp only at hrun
  rw [run_ofInt h, run_eq, pow_zero, Nat.div_one] at hrun
  refine ⟨?_, fun k hk => ?_⟩
  · have hlast : width - 1 ≤ 63 := by omega
    dsimp only
    rw [loadField_patchField hkeep, signExtend_ofNat hlast hlow hhigh (by rw [hsize, hrun]),
      ofInt_shiftLeft]
  · refine memBit_patchField 0 hkeep (fun p hp => ?_) hk _
    rw [List.mem_singleton.mp hp]
    exact List.mem_singleton_self _

end SignedField

end Mold.Lib
