import Mathlib.Algebra.BigOperators.Group.List.Basic
import Mathlib.Data.List.Pairwise
import Mathlib.Data.Nat.Bitwise

/-!
# Bit fields

A word is a list of fields, each with a width and a value, from the least
significant one on.  Values are truncated to their widths when the word is
packed, and `unpack` gives the truncated values back.

An instruction word may hold a number in several pieces.  A layout says where each run of
bits of the number stands in the word.  `scatter` puts the bits there, and `gather` reads
them back.  If the pieces do not overlap in the word, exactly the bits that the layout names
survive.
-/

namespace Mold.Lib.BitField

def pack : List (ℕ × ℕ) → ℕ
  | [] => 0
  | (width, value) :: fields => value % 2 ^ width + 2 ^ width * pack fields

def unpack : List ℕ → ℕ → List ℕ
  | [], _ => []
  | width :: widths, word => word % 2 ^ width :: unpack widths (word / 2 ^ width)

theorem unpack_pack (fields : List (ℕ × ℕ)) :
    unpack (fields.map Prod.fst) (pack fields) =
      fields.map fun field => field.2 % 2 ^ field.1 := by
  induction fields with
  | nil => rfl
  | cons field fields ih =>
    obtain ⟨width, value⟩ := field
    have hlt : value % 2 ^ width < 2 ^ width :=
      Nat.mod_lt _ (Nat.two_pow_pos width)
    have hlow : (value % 2 ^ width + 2 ^ width * pack fields) % 2 ^ width = value % 2 ^ width := by
      rw [Nat.add_mul_mod_self_left, Nat.mod_mod]
    have hhigh : (value % 2 ^ width + 2 ^ width * pack fields) / 2 ^ width = pack fields := by
      rw [Nat.add_mul_div_left _ _ (Nat.two_pow_pos width), Nat.div_eq_of_lt hlt, Nat.zero_add]
    simp only [List.map_cons, unpack, pack]
    rw [hlow, hhigh, ih]

theorem pack_lt (fields : List (ℕ × ℕ)) : pack fields < 2 ^ (fields.map Prod.fst).sum := by
  induction fields with
  | nil => decide
  | cons field fields ih =>
    obtain ⟨width, value⟩ := field
    have hlt : value % 2 ^ width < 2 ^ width :=
      Nat.mod_lt _ (Nat.two_pow_pos width)
    rw [pack, List.map_cons, List.sum_cons, Nat.pow_add]
    calc
      value % 2 ^ width + 2 ^ width * pack fields < 2 ^ width + 2 ^ width * pack fields := by omega
      _ = 2 ^ width * (pack fields + 1) := by rw [Nat.mul_add, Nat.mul_one, Nat.add_comm]
      _ ≤ 2 ^ width * 2 ^ (fields.map Prod.fst).sum :=
        Nat.mul_le_mul_left _ ih

/-- A value that is read as a two's complement number of the given width. -/
def toSigned (width value : ℕ) : ℤ :=
  if value < 2 ^ (width - 1) then (value : ℤ) else (value : ℤ) - 2 ^ width

/-- A number that is cut to some bits and then to fewer. -/
theorem toNat_emod_mod {m n : ℕ} (h : n ≤ m) (val : ℤ) :
    (val % 2 ^ m).toNat % 2 ^ n = (val % 2 ^ n).toNat := by
  have hdvd : (2 : ℤ) ^ n ∣ 2 ^ m := pow_dvd_pow 2 h
  have hne : (2 : ℤ) ^ m ≠ 0 := Int.ne_of_gt (Int.pow_pos (by decide))
  have hcast : (((val % 2 ^ m).toNat : ℕ) : ℤ) = val % 2 ^ m :=
    Int.toNat_of_nonneg (Int.emod_nonneg val hne)
  have hpow : (2 : ℤ) ^ n = ((2 ^ n : ℕ) : ℤ) := by push_cast; rfl
  rw [← Int.emod_emod_of_dvd val hdvd, ← hcast, hpow, ← Int.natCast_emod, Int.toNat_natCast]
  rfl

theorem or_low {w k x : ℕ} (hw : w % 2 ^ k = 0) (hx : x < 2 ^ k) : w ||| x = w + x := by
  obtain ⟨a, rfl⟩ := Nat.dvd_of_mod_eq_zero hw
  exact (Nat.two_pow_add_eq_or_of_lt hx a).symm

theorem xor_low {w k x : ℕ} (hw : w % 2 ^ k = 0) (hx : x < 2 ^ k) : w ^^^ x = w + x := by
  rw [← or_low hw hx]
  obtain ⟨a, rfl⟩ := Nat.dvd_of_mod_eq_zero hw
  apply Nat.eq_of_testBit_eq
  intro i
  rw [Nat.testBit_xor, Nat.testBit_or, Nat.mul_comm, Nat.testBit_mul_two_pow]
  by_cases hi : k ≤ i
  · have hlt : x < 2 ^ i := hx.trans_le (Nat.pow_le_pow_right (by decide) hi)
    rw [Nat.testBit_lt_two_pow hlt, Bool.xor_false, Bool.or_false]
  · rw [decide_eq_false hi, Bool.false_and, Bool.false_xor, Bool.false_or]

end Mold.Lib.BitField

/-! ## Scattered bits -/

namespace Mold.Lib.BitScatter

/-- `width` bits of a number from the bit `src` on, which are at the bit `dst` of a word. -/
structure Piece where
  src : ℕ
  dst : ℕ
  width : ℕ

/-- A bit belongs to the run of `width` bits from `low` on. -/
def InRun (low width i : ℕ) : Prop := low ≤ i ∧ i < low + width

instance instDecidableInRun (low width i : ℕ) : Decidable (InRun low width i) :=
  inferInstanceAs (Decidable (_ ∧ _))

/-- `width` bits from `low` on. -/
def run (val low width : ℕ) : ℕ := (val >>> low) &&& (2 ^ width - 1)

theorem testBit_run (val low width i : ℕ) :
    (run val low width).testBit i = (decide (i < width) && val.testBit (low + i)) := by
  rw [run, Nat.testBit_and, Nat.testBit_shiftRight, Nat.testBit_two_pow_sub_one, Bool.and_comm]

theorem testBit_run_shiftLeft (val low width dst j : ℕ) :
    (run val low width <<< dst).testBit j =
      (decide (InRun dst width j) && val.testBit (low + (j - dst))) := by
  rw [Nat.testBit_shiftLeft, testBit_run, ← Bool.and_assoc]
  congr 1
  rw [← Bool.decide_and]
  apply decide_eq_decide.mpr
  rw [InRun]
  omega

def scatter : List Piece → ℕ → ℕ
  | [], _ => 0
  | p :: ps, val => run val p.src p.width <<< p.dst ||| scatter ps val

def gather : List Piece → ℕ → ℕ
  | [], _ => 0
  | p :: ps, word => run word p.dst p.width <<< p.src ||| gather ps word

def mask : List Piece → ℕ
  | [] => 0
  | p :: ps => (2 ^ p.width - 1) <<< p.dst ||| mask ps

def Apart (ps : List Piece) : Prop :=
  ps.Pairwise fun p q => p.dst + p.width ≤ q.dst ∨ q.dst + q.width ≤ p.dst

instance instDecidableApart (ps : List Piece) : Decidable (Apart ps) :=
  inferInstanceAs (Decidable (List.Pairwise _ _))

theorem testBit_scatter (ps : List Piece) (val j : ℕ) :
    (scatter ps val).testBit j =
      ps.any fun p => decide (InRun p.dst p.width j) && val.testBit (p.src + (j - p.dst)) := by
  induction ps with
  | nil => exact Nat.zero_testBit j
  | cons p ps ih => rw [scatter, Nat.testBit_or, testBit_run_shiftLeft, ih, List.any_cons]

theorem testBit_gather (ps : List Piece) (word i : ℕ) :
    (gather ps word).testBit i =
      ps.any fun p => decide (InRun p.src p.width i) && word.testBit (p.dst + (i - p.src)) := by
  induction ps with
  | nil => exact Nat.zero_testBit i
  | cons p ps ih => rw [gather, Nat.testBit_or, testBit_run_shiftLeft, ih, List.any_cons]

theorem testBit_mask (ps : List Piece) (j : ℕ) :
    (mask ps).testBit j = ps.any fun p => decide (InRun p.dst p.width j) := by
  induction ps with
  | nil => exact Nat.zero_testBit j
  | cons p ps ih =>
    rw [mask, Nat.testBit_or, ih, List.any_cons, Nat.testBit_shiftLeft,
      Nat.testBit_two_pow_sub_one, ← Bool.decide_and]
    congr 1
    apply decide_eq_decide.mpr
    rw [InRun]
    omega

variable {ps : List Piece}

theorem testBit_scatter_of_mem (hapart : Apart ps) {p : Piece} (hp : p ∈ ps)
    {j : ℕ} (hj : InRun p.dst p.width j) (val : ℕ) :
    (scatter ps val).testBit j = val.testBit (p.src + (j - p.dst)) := by
  rw [testBit_scatter]
  induction ps with
  | nil => exact absurd hp List.not_mem_nil
  | cons q ps ih =>
    obtain ⟨hq, hps⟩ := List.pairwise_cons.mp hapart
    rw [List.any_cons]
    rcases List.mem_cons.mp hp with rfl | hp
    · have hrest : (ps.any fun q =>
          decide (InRun q.dst q.width j) && val.testBit (q.src + (j - q.dst))) = false := by
        rw [List.any_eq_false]
        intro r hr
        have hne : ¬InRun r.dst r.width j := by
          have hdisj := hq r hr
          unfold InRun at hj ⊢
          omega
        rw [decide_eq_false hne, Bool.false_and]
        exact Bool.false_ne_true
      rw [hrest, decide_eq_true hj, Bool.true_and, Bool.or_false]
    · have hne : ¬InRun q.dst q.width j := by
        have hdisj := hq p hp
        unfold InRun at hj ⊢
        omega
      rw [decide_eq_false hne, Bool.false_and, Bool.false_or]
      exact ih hps hp

/-- The word with the bits of a layout cleared and then set to those of a number. -/
def patch (keep : ℕ) (ps : List Piece) (word val : ℕ) : ℕ := (word &&& keep) ||| scatter ps val

variable {keep : ℕ}

/-- A bit outside the layout stays as it is. -/
theorem testBit_patch_of_keep {n : ℕ} (hkeep : keep ||| mask ps = 2 ^ n - 1) {j : ℕ} (hj : j < n)
    (hmask : (mask ps).testBit j = false) (word val : ℕ) :
    (patch keep ps word val).testBit j = word.testBit j := by
  have hbit := congrArg (Nat.testBit · j) hkeep
  simp only [Nat.testBit_or, hmask, Bool.or_false, Nat.testBit_two_pow_sub_one, hj,
    decide_true] at hbit
  have hscatter : (scatter ps val).testBit j = false := by
    rw [testBit_mask, List.any_eq_false] at hmask
    rw [testBit_scatter, List.any_eq_false]
    intro p hp hmem
    exact hmask p hp (Bool.and_eq_true_iff.mp hmem).1
  rw [patch, Nat.testBit_or, Nat.testBit_and, hbit, hscatter, Bool.and_true, Bool.or_false]

/-- Of the number the bits are read back that the layout names. -/
theorem testBit_gather_patch (hapart : Apart ps) (hkeep : keep &&& mask ps = 0) (word val i : ℕ) :
    (gather ps (patch keep ps word val)).testBit i =
      ((ps.any fun p => decide (InRun p.src p.width i)) && val.testBit i) := by
  have hpiece : ∀ p ∈ ps, InRun p.src p.width i →
      (patch keep ps word val).testBit (p.dst + (i - p.src)) = val.testBit i := by
    intro p hp hi
    have hrun : InRun p.dst p.width (p.dst + (i - p.src)) := by
      unfold InRun at hi ⊢
      omega
    have hmem : (mask ps).testBit (p.dst + (i - p.src)) = true := by
      rw [testBit_mask, List.any_eq_true]
      exact ⟨p, hp, decide_eq_true hrun⟩
    have hbit := congrArg (Nat.testBit · (p.dst + (i - p.src))) hkeep
    simp only [Nat.testBit_and, hmem, Bool.and_true, Nat.zero_testBit] at hbit
    rw [patch, Nat.testBit_or, Nat.testBit_and, hbit, Bool.and_false, Bool.false_or,
      testBit_scatter_of_mem hapart hp hrun]
    congr 1
    unfold InRun at hi
    omega
  rw [testBit_gather, Bool.eq_iff_iff, List.any_eq_true, Bool.and_eq_true_iff, List.any_eq_true]
  constructor
  · rintro ⟨p, hp, hbit⟩
    obtain ⟨hi, hbit⟩ := Bool.and_eq_true_iff.mp hbit
    exact ⟨⟨p, hp, hi⟩, by rwa [hpiece p hp (of_decide_eq_true hi)] at hbit⟩
  · rintro ⟨⟨p, hp, hi⟩, hbit⟩
    exact ⟨p, hp, Bool.and_eq_true_iff.mpr
      ⟨hi, by rwa [hpiece p hp (of_decide_eq_true hi)]⟩⟩

/-- If the layout names the bits from `low` to `high`, these are read back. -/
theorem gather_patch (hapart : Apart ps) (hkeep : keep &&& mask ps = 0) {low high : ℕ}
    (hcover : ∀ i, (∃ p ∈ ps, InRun p.src p.width i) ↔ low ≤ i ∧ i < high) (word val : ℕ) :
    gather ps (patch keep ps word val) = val % 2 ^ high / 2 ^ low * 2 ^ low := by
  apply Nat.eq_of_testBit_eq
  intro i
  rw [testBit_gather_patch hapart hkeep, ← Nat.shiftLeft_eq, Nat.testBit_shiftLeft,
    Nat.testBit_div_two_pow, Nat.testBit_mod_two_pow]
  have hany : (ps.any fun p => decide (InRun p.src p.width i)) = decide (low ≤ i ∧ i < high) := by
    rw [Bool.eq_iff_iff, List.any_eq_true, decide_eq_true_iff, ← hcover i]
    simp only [decide_eq_true_eq]
  rw [hany]
  by_cases hlow : low ≤ i
  · rw [Nat.sub_add_cancel hlow]
    simp [hlow]
  · simp [hlow]

theorem field_congr {word word' low width : ℕ}
    (h : ∀ j, InRun low width j → word'.testBit j = word.testBit j) :
    word' / 2 ^ low % 2 ^ width = word / 2 ^ low % 2 ^ width := by
  apply Nat.eq_of_testBit_eq
  intro i
  rw [Nat.testBit_mod_two_pow, Nat.testBit_mod_two_pow, Nat.testBit_div_two_pow,
    Nat.testBit_div_two_pow]
  by_cases hi : i < width
  · rw [h _ ⟨Nat.le_add_left _ _, by omega⟩]
  · simp [hi]

/-- A field outside the layout stays as it is. -/
theorem field_patch {n low width : ℕ} (hkeep : keep ||| mask ps = 2 ^ n - 1) (hn : low + width ≤ n)
    (hmask : mask ps &&& (2 ^ width - 1) <<< low = 0) (word val : ℕ) :
    patch keep ps word val / 2 ^ low % 2 ^ width = word / 2 ^ low % 2 ^ width := by
  apply field_congr
  rintro j ⟨hlow, hhigh⟩
  apply testBit_patch_of_keep hkeep (by omega)
  have hbit := congrArg (Nat.testBit · j) hmask
  simp only [Nat.testBit_and, Nat.testBit_shiftLeft, Nat.testBit_two_pow_sub_one,
    Nat.zero_testBit] at hbit
  have hlt : j - low < width := by omega
  simpa [hlow, hlt] using hbit

end Mold.Lib.BitScatter
