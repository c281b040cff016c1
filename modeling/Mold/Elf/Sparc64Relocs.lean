import Mold.Elf.S390xFields
import Mold.Lib.A64
import Mold.Lib.Sparc

/-!
# Relocations of SPARC instructions

The cases of `apply_reloc_alloc` of `arch-sparc64.cc` that put a value into one instruction, and
those that put the parts of a value into several.

Values are or-ed into the fields, so the old bits have to be among those of the value.  Three
signed operands are checked as if they were not signed, branches are not checked to be multiples
of four, and the branch of 16 bits is written into the wrong half of the word.  The pairs are
right in the whole range that their shape allows.
-/

namespace Mold.Elf.Sparc64

open Mold.Lib Mold.Lib.BitField Mold.Lib.BitScatter Mold.Lib.Sparc
open Mold.Elf.Riscv (bit bits)
open Mold.Elf.Arm32 (bits_eq_run bits_eq_div bit_eq)
open Mold.Elf.S390x (Check bits_eq_encode represents_unsigned)

/-- The numbers from which the value of a relocation is computed. -/
structure Values where
  S : BitVec 64
  A : BitVec 64
  P : BitVec 64
  G : BitVec 64
  GOT : BitVec 64
  tlsgdAddr : BitVec 64
  tlsldAddr : BitVec 64
  gottpAddr : BitVec 64
  dtpAddr : BitVec 64
  tpAddr : BitVec 64

/-! ## Single fields -/

/-- The types that put a value into one field.  Types that share a case are one. -/
inductive RelType where
  | r5
  | r6
  | r7
  | r8
  | r10
  | r11
  | r13
  | r16
  | r22
  | r32
  | disp8
  | disp16
  | disp32
  | wdisp16
  | wdisp19
  | wdisp22
  | wdisp30
  | got13
  deriving DecidableEq

def RelType.val (x : Values) : RelType → BitVec 64
  | .r5 | .r6 | .r7 | .r8 | .r10 | .r11 | .r13 | .r16 | .r22 | .r32 => x.S + x.A
  | .disp8 | .disp16 | .disp32 | .wdisp16 | .wdisp19 | .wdisp22 | .wdisp30 => x.S + x.A - x.P
  | .got13 => x.G

def RelType.accepts (val : ℤ) : RelType → Bool
  | .r5 => decide (Check val 0 (2 ^ 5))
  | .r6 => decide (Check val 0 (2 ^ 6))
  | .r7 => decide (Check val 0 (2 ^ 7))
  | .r8 => decide (Check val 0 (2 ^ 8))
  | .r10 => decide (Check val 0 (2 ^ 10))
  | .r11 => decide (Check val 0 (2 ^ 11))
  | .r13 => decide (Check val 0 (2 ^ 13))
  | .r16 => decide (Check val 0 (2 ^ 16))
  | .r22 => decide (Check val 0 (2 ^ 22))
  | .r32 => decide (Check val 0 (2 ^ 32))
  | .disp8 => decide (Check val (-2 ^ 7) (2 ^ 7))
  | .disp16 => decide (Check val (-2 ^ 15) (2 ^ 15))
  | .disp32 => decide (Check val (-2 ^ 31) (2 ^ 31))
  | .wdisp16 => decide (Check val (-2 ^ 16) (2 ^ 16))
  | .wdisp19 => decide (Check val (-2 ^ 20) (2 ^ 20))
  | .wdisp22 => decide (Check val (-2 ^ 23) (2 ^ 23))
  | .wdisp30 => decide (Check val (-2 ^ 31) (2 ^ 31))
  | .got13 => decide (Check val 0 (2 ^ 12))

def orUb32 (mem : Memory) (loc x : ℕ) : Memory :=
  storeField .big 4 mem loc (loadField .big 4 mem loc ||| x)

def orUb16 (mem : Memory) (loc x : ℕ) : Memory :=
  storeField .big 2 mem loc (loadField .big 2 mem loc ||| x)

def RelType.patch (mem : Memory) (loc val : ℕ) : RelType → Memory
  | .r5 => orUb32 mem loc (bits val 4 0)
  | .r6 => orUb32 mem loc (bits val 5 0)
  | .r7 => orUb32 mem loc (bits val 6 0)
  | .r8 | .disp8 => storeField .big 1 mem loc val
  | .r10 => orUb32 mem loc (bits val 9 0)
  | .r11 => orUb32 mem loc (bits val 10 0)
  | .r13 | .got13 => orUb32 mem loc (bits val 12 0)
  | .r16 | .disp16 => storeField .big 2 mem loc val
  | .r22 => orUb32 mem loc (bits val 21 0)
  | .r32 | .disp32 => storeField .big 4 mem loc val
  | .wdisp16 => orUb16 mem loc (bit val 16 <<< 21 ||| bits val 15 2)
  | .wdisp19 => orUb32 mem loc (bits val 20 2)
  | .wdisp22 => orUb32 mem loc (bits val 23 2)
  | .wdisp30 => orUb32 mem loc (bits val 31 2)

/-- The loop of `apply_reloc_alloc` at one relocation: whether no error is reported, and the
memory after it. -/
def applyReloc (mem : Memory) (loc : ℕ) (x : Values) (r : RelType) : Bool × Memory :=
  let val := r.val x
  (r.accepts val.toInt, r.patch mem loc val.toNat)

def lowBits (width : ℕ) (signed : Bool) (scale : ℕ) (hpos : 0 < width) (hwidth : width ≤ 32) :
    ImmField :=
  .low 4 width signed scale hpos hwidth

/-- A branch on a register: 14 low bits, and two high ones in another place. -/
def d16 : ImmField where
  bytes := 4
  pieces := [⟨0, 0, 14⟩, ⟨14, 20, 2⟩]
  width := 16
  signed := true
  scale := 2
  apart := by decide
  inside := by decide
  within := by decide
  covered := by decide
  pos := by decide

theorem word_pos : 0 < 4 := Nat.zero_lt_succ 3

def RelType.field : RelType → ImmField
  | .r5 => lowBits 5 false 0 (by decide) (by decide)
  | .r6 => lowBits 6 false 0 (by decide) (by decide)
  | .r7 => lowBits 7 false 0 (by decide) (by decide)
  | .r8 => .whole 1 false 0 Nat.one_pos
  | .r10 => lowBits 10 true 0 (by decide) (by decide)
  | .r11 => lowBits 11 true 0 (by decide) (by decide)
  | .r13 | .got13 => lowBits 13 true 0 (by decide) (by decide)
  | .r16 => .whole 2 false 0 Nat.two_pos
  | .r22 => lowBits 22 false 0 (by decide) (by decide)
  | .r32 => .whole 4 false 0 word_pos
  | .disp8 => .whole 1 true 0 Nat.one_pos
  | .disp16 => .whole 2 true 0 Nat.two_pos
  | .disp32 => .whole 4 true 0 word_pos
  | .wdisp16 => d16
  | .wdisp19 => lowBits 19 true 2 (by decide) (by decide)
  | .wdisp22 => lowBits 22 true 2 (by decide) (by decide)
  | .wdisp30 => lowBits 30 true 2 (by decide) (by decide)

/-- A branch of 16 bits is right after its low bits went into the high half `w₁` of the word:
the low half `w₀` has them already, and the high half has the two high bits and no place for
others. -/
def WrongHalfFits (w₁ w₀ h : ℕ) (negative : Bool) : Prop :=
  w₀ % 2 ^ 14 = h ∧ w₁ / 2 ^ 4 % 4 ||| h / 2 ^ 4 % 4 = (if negative then 3 else 0) ∧
    ∀ i < 14, i ≠ 4 → i ≠ 5 → h.testBit i = true → w₁.testBit i = true

/-- The case of a relocation is right for a value. -/
def RelType.Fits (mem : Memory) (loc : ℕ) (val : BitVec 64) : RelType → Prop
  | .r8 | .r16 | .r32 | .disp8 | .disp16 | .disp32 => True
  | .r5 => BitsIn (loadField .big 4 mem loc % 2 ^ 5) (bits val.toNat 4 0)
  | .r6 => BitsIn (loadField .big 4 mem loc % 2 ^ 6) (bits val.toNat 5 0)
  | .r7 => BitsIn (loadField .big 4 mem loc % 2 ^ 7) (bits val.toNat 6 0)
  | .r22 => BitsIn (loadField .big 4 mem loc % 2 ^ 22) (bits val.toNat 21 0)
  | .got13 => BitsIn (loadField .big 4 mem loc % 2 ^ 13) (bits val.toNat 12 0)
  | .r10 => val.toInt < 2 ^ 9 ∧ BitsIn (loadField .big 4 mem loc % 2 ^ 10) (bits val.toNat 9 0)
  | .r11 =>
    val.toInt < 2 ^ 10 ∧ BitsIn (loadField .big 4 mem loc % 2 ^ 11) (bits val.toNat 10 0)
  | .r13 =>
    val.toInt < 2 ^ 12 ∧ BitsIn (loadField .big 4 mem loc % 2 ^ 13) (bits val.toNat 12 0)
  | .wdisp19 =>
    val.toInt % 4 = 0 ∧ BitsIn (loadField .big 4 mem loc % 2 ^ 19) (bits val.toNat 20 2)
  | .wdisp22 =>
    val.toInt % 4 = 0 ∧ BitsIn (loadField .big 4 mem loc % 2 ^ 22) (bits val.toNat 23 2)
  | .wdisp30 =>
    val.toInt % 4 = 0 ∧ BitsIn (loadField .big 4 mem loc % 2 ^ 30) (bits val.toNat 31 2)
  | .wdisp16 =>
    val.toInt % 4 = 0 ∧ WrongHalfFits (loadField .big 2 mem loc)
      (loadField .big 2 mem (loc + 2)) (bits val.toNat 15 2) (decide (val.toInt < 0))

section Fields

variable {mem : Memory} {loc : ℕ} {val : BitVec 64}
variable {width : ℕ} {hpos : 0 < width} {hwidth : width ≤ 32} {hi : ℕ}

theorem holds_lowBits_iff {signed : Bool} {scale : ℕ}
    (hhi : width = hi - scale + 1) (h64 : scale + width ≤ 64) :
    (lowBits width signed scale hpos hwidth).Holds .big mem
        (orUb32 mem loc (bits val.toNat hi scale)) loc val.toInt ↔
      (lowBits width signed scale hpos hwidth).Represents val.toInt ∧
        BitsIn (loadField .big 4 mem loc % 2 ^ width) (bits val.toNat hi scale) :=
  ImmField.holds_or_low_iff (bits_eq_encode (lowBits width signed scale hpos hwidth) rfl hhi h64)

theorem holds_unsigned_iff (hhi : width = hi + 1) (hcheck : Check val.toInt 0 (2 ^ width)) :
    (lowBits width false 0 hpos hwidth).Holds .big mem (orUb32 mem loc (bits val.toNat hi 0)) loc
        val.toInt ↔
      BitsIn (loadField .big 4 mem loc % 2 ^ width) (bits val.toNat hi 0) := by
  rw [holds_lowBits_iff hhi (by omega)]
  apply and_iff_right
  rw [lowBits, ImmField.represents_unsigned_iff, pow_zero, Int.ediv_one]
  exact ⟨one_dvd _, hcheck⟩

theorem holds_signed_iff (hhi : width = hi + 1) (hcheck : 0 ≤ val.toInt) :
    (lowBits width true 0 hpos hwidth).Holds .big mem (orUb32 mem loc (bits val.toNat hi 0)) loc
        val.toInt ↔
      val.toInt < 2 ^ hi ∧
        BitsIn (loadField .big 4 mem loc % 2 ^ width) (bits val.toNat hi 0) := by
  have hneg : -(2 : ℤ) ^ hi ≤ val.toInt := by
    have hpow : (0 : ℤ) < 2 ^ hi := by positivity
    omega
  rw [holds_lowBits_iff hhi (by omega)]
  apply and_congr_left'
  rw [lowBits, ImmField.represents_signed_iff, pow_zero, Int.ediv_one, hhi, Nat.add_sub_cancel]
  exact ⟨fun h => h.2.2, fun h => ⟨one_dvd _, hneg, h⟩⟩

theorem holds_branch_iff
    (hhi : width = hi - 2 + 1) (hcheck : Check val.toInt (-2 ^ (width + 1)) (2 ^ (width + 1))) :
    (lowBits width true 2 hpos hwidth).Holds .big mem (orUb32 mem loc (bits val.toNat hi 2)) loc
        val.toInt ↔
      val.toInt % 4 = 0 ∧ BitsIn (loadField .big 4 mem loc % 2 ^ width) (bits val.toNat hi 2) := by
  rw [holds_lowBits_iff hhi (by omega)]
  apply and_congr_left'
  obtain ⟨n, rfl⟩ : ∃ n, width = n + 1 := ⟨width - 1, by omega⟩
  have hpow : (2 : ℤ) ^ (n + 1 + 1) = 4 * 2 ^ n := by
    rw [pow_succ, pow_succ]
    ring
  obtain ⟨hlow, hhigh⟩ := hcheck
  rw [lowBits, ImmField.represents_signed_iff, Nat.add_sub_cancel]
  rw [hpow] at hlow hhigh
  generalize (2 : ℤ) ^ n = m at *
  omega

theorem holds_store {bytes : ℕ} {signed : Bool} (hbytes : 0 < bytes) (h64 : 8 * bytes ≤ 64)
    (hrep : (ImmField.whole bytes signed 0 hbytes).Represents val.toInt) :
    (ImmField.whole bytes signed 0 hbytes).Holds .big mem
      (storeField .big bytes mem loc val.toNat) loc val.toInt := by
  have hholds : (ImmField.whole bytes signed 0 hbytes).Holds .big mem
      (storeField .big bytes mem loc (val.toNat / 2 ^ 0)) loc val.toInt ↔ _ :=
    ImmField.holds_store_iff hbytes (by omega)
  rw [pow_zero, Nat.div_one] at hholds
  exact hholds.mpr hrep

theorem represents_signed {bytes : ℕ} (hbytes : 0 < bytes) {v : ℤ}
    (h : Check v (-2 ^ (8 * bytes - 1)) (2 ^ (8 * bytes - 1))) :
    (ImmField.whole bytes true 0 hbytes).Represents v := by
  rw [ImmField.whole, ImmField.represents_signed_iff, pow_zero, Int.ediv_one]
  exact ⟨one_dvd v, h⟩

/-! ### The branch of 16 bits -/

theorem loadField_big_four : loadField .big 4 mem loc =
    loadField .big 2 mem loc * 65536 + loadField .big 2 mem (loc + 2) := by
  simp only [loadField, List.range_succ, List.range_zero, List.nil_append, List.cons_append,
    List.map_cons, List.map_nil, readLe, Endian.place, Nat.reduceSub, Nat.add_zero,
    Nat.add_assoc, Nat.reduceAdd]
  omega

theorem loadField_orUb16 (x : ℕ) : loadField .big 4 (orUb16 mem loc x) loc =
    (loadField .big 2 mem loc ||| x % 2 ^ 16) * 65536 + loadField .big 2 mem (loc + 2) := by
  have hhigh : loadField .big 2 (orUb16 mem loc x) loc =
      loadField .big 2 mem loc ||| x % 2 ^ 16 := by
    have hlt : loadField .big 2 mem loc < 2 ^ 16 := loadField_lt
    have hload : loadField .big 2 (orUb16 mem loc x) loc =
        (loadField .big 2 mem loc ||| x) % 2 ^ 16 :=
      loadField_storeField
    rw [hload, Nat.or_mod_two_pow, Nat.mod_eq_of_lt hlt]
  have hlow : loadField .big 2 (orUb16 mem loc x) (loc + 2) = loadField .big 2 mem (loc + 2) := by
    rw [loadField, loadField]
    congr 1
    apply List.map_congr_left
    intro i hi
    exact storeField_of_not_mem (by omega)
  rw [loadField_big_four, hhigh, hlow]

theorem wdisp16_mod (val : BitVec 64) :
    (bit val.toNat 16 <<< 21 ||| bits val.toNat 15 2) % 2 ^ 16 = bits val.toNat 15 2 := by
  have hlt : bits val.toNat 15 2 < 2 ^ 14 := by
    rw [bits_eq_run rfl, run_eq]
    exact Nat.mod_lt _ (by decide)
  have hsign : bit val.toNat 16 <<< 21 % 2 ^ 16 = 0 := by
    rw [Nat.shiftLeft_eq]
    omega
  rw [Nat.or_mod_two_pow, hsign, Nat.zero_or, Nat.mod_eq_of_lt (hlt.trans (by decide))]

theorem raw_d16 (w₁ : ℕ) {w₀ : ℕ} (hw₀ : w₀ < 65536) :
    d16.raw (w₁ * 65536 + w₀) = w₀ % 2 ^ 14 + w₁ / 2 ^ 4 % 4 * 2 ^ 14 := by
  have hlow : run (w₁ * 65536 + w₀) 0 14 = w₀ % 2 ^ 14 := by
    rw [run_eq]
    omega
  have hhigh : run (w₁ * 65536 + w₀) 20 2 = w₁ / 2 ^ 4 % 4 := by
    rw [run_eq]
    omega
  have hlt : w₀ % 2 ^ 14 < 2 ^ 14 := Nat.mod_lt _ (by decide)
  change run (w₁ * 65536 + w₀) 0 14 <<< 0 ||| (run (w₁ * 65536 + w₀) 20 2 <<< 14 ||| 0) = _
  rw [hlow, hhigh, Nat.or_zero, Nat.shiftLeft_zero, Nat.or_comm, Nat.shiftLeft_eq, Nat.mul_comm,
    ← Nat.two_pow_add_eq_or_of_lt hlt, Nat.add_comm]

theorem testBit_halves {w₁ w₀ i : ℕ} (hw₀ : w₀ < 65536) :
    (w₁ * 65536 + w₀).testBit i = if i < 16 then w₀.testBit i else w₁.testBit (i - 16) := by
  rw [Nat.mul_comm]
  exact Nat.testBit_two_pow_mul_add w₁ (i := 16) hw₀ i

theorem testBit_mask_d16 (i : ℕ) : (mask d16.pieces).testBit i = false ↔
    14 ≤ i ∧ (i < 20 ∨ 22 ≤ i) := by
  change (mask [⟨0, 0, 14⟩, ⟨14, 20, 2⟩]).testBit i = false ↔ _
  rw [testBit_mask, List.any_cons, List.any_cons, List.any_nil, Bool.or_false, Bool.or_eq_false_iff,
    decide_eq_false_iff_not, decide_eq_false_iff_not, InRun, InRun]
  simp only
  omega

theorem sameOutside_d16_iff {w₁ w₀ h : ℕ} (hw₀ : w₀ < 65536) (hh : h < 2 ^ 14) :
    d16.SameOutside (w₁ * 65536 + w₀) ((w₁ ||| h) * 65536 + w₀) ↔
      ∀ i < 14, i ≠ 4 → i ≠ 5 → h.testBit i = true → w₁.testBit i = true := by
  constructor
  · intro hsame i hi hfour hfive hbit
    have hi' := hsame (16 + i) (by change 16 + i < 32; omega) ((testBit_mask_d16 _).mpr (by omega))
    rw [testBit_halves hw₀, testBit_halves hw₀, if_neg (by omega), if_neg (by omega),
      Nat.add_sub_cancel_left, Nat.testBit_or, hbit, Bool.or_true] at hi'
    exact hi'.symm
  · intro hbits i _ hmask
    obtain ⟨hle, hout⟩ := (testBit_mask_d16 i).mp hmask
    rw [testBit_halves hw₀, testBit_halves hw₀]
    split
    case isTrue => rfl
    case isFalse hge =>
      rw [Nat.testBit_or]
      by_cases hbit : h.testBit (i - 16) = true
      · have hlt : i - 16 < 14 := by
          by_contra hge'
          have hzero : h.testBit (i - 16) = false := Nat.testBit_lt_two_pow
            (hh.trans_le (Nat.pow_le_pow_right (by decide) (Nat.not_lt.mp hge')))
          exact Bool.false_ne_true (hzero.symm.trans hbit)
        rw [hbits _ hlt (by omega) (by omega) hbit, Bool.true_or]
      · rw [Bool.not_eq_true] at hbit
        rw [hbit, Bool.or_false]

theorem holds_wdisp16_iff (hcheck : Check val.toInt (-2 ^ 16) (2 ^ 16)) :
    d16.Holds .big mem (orUb16 mem loc (bit val.toNat 16 <<< 21 ||| bits val.toNat 15 2)) loc
        val.toInt ↔
      val.toInt % 4 = 0 ∧ WrongHalfFits (loadField .big 2 mem loc)
        (loadField .big 2 mem (loc + 2)) (bits val.toNat 15 2) (decide (val.toInt < 0)) := by
  have hw₀ : loadField .big 2 mem (loc + 2) < 65536 := loadField_lt
  have hbits : bits val.toNat 15 2 = d16.encode val.toInt % 2 ^ 14 := by
    have hencode : run val.toNat 2 16 = d16.encode val.toInt :=
      ImmField.run_eq_encode (f := d16) rfl rfl (by decide) val
    rw [← hencode, bits_eq_run rfl, run_eq, run_eq]
    omega
  have hlt : bits val.toNat 15 2 < 2 ^ 14 := by
    rw [hbits]
    exact Nat.mod_lt _ (by decide)
  have hload := @loadField_orUb16 mem loc (bit val.toNat 16 <<< 21 ||| bits val.toNat 15 2)
  rw [wdisp16_mod] at hload
  have hencode : d16.encode val.toInt =
      bits val.toNat 15 2 + (if val.toInt < 0 then 3 else 0) * 2 ^ 14 := by
    obtain ⟨hlow, hhigh⟩ := hcheck
    have hval : d16.encode val.toInt = (val.toInt / 4 % 2 ^ 16).toNat := rfl
    rw [hbits, hval]
    split <;> omega
  have hrep : d16.Represents val.toInt ↔ val.toInt % 4 = 0 := by
    obtain ⟨hlow, hhigh⟩ := hcheck
    simp only [ImmField.Represents, d16, if_true]
    omega
  have hraw : d16.raw (loadField .big 4
      (orUb16 mem loc (bit val.toNat 16 <<< 21 ||| bits val.toNat 15 2)) loc) =
        d16.encode val.toInt ↔
      loadField .big 2 mem (loc + 2) % 2 ^ 14 = bits val.toNat 15 2 ∧
        loadField .big 2 mem loc / 2 ^ 4 % 4 ||| bits val.toNat 15 2 / 2 ^ 4 % 4 =
          if val.toInt < 0 then 3 else 0 := by
    have hdiv : (loadField .big 2 mem loc ||| bits val.toNat 15 2) / 2 ^ 4 % 4 =
        loadField .big 2 mem loc / 2 ^ 4 % 4 ||| bits val.toNat 15 2 / 2 ^ 4 % 4 := by
      rw [Nat.or_div_two_pow]
      exact Nat.or_mod_two_pow (n := 2)
    rw [hload, raw_d16 _ hw₀, hencode, hdiv]
    generalize loadField .big 2 mem loc / 2 ^ 4 % 4 ||| bits val.toNat 15 2 / 2 ^ 4 % 4 = c
    split <;> omega
  have hsame := @sameOutside_d16_iff (loadField .big 2 mem loc) _ _ hw₀ hlt
  rw [← hload, ← loadField_big_four] at hsame
  simp only [WrongHalfFits, decide_eq_true_eq]
  constructor
  · intro hholds
    obtain ⟨hrep', hraw'⟩ := ImmField.read_eq_iff.mp hholds.read_eq
    obtain ⟨hlow, hhigh⟩ := hraw.mp hraw'
    exact ⟨hrep.mp hrep', hlow, hhigh, hsame.mp hholds.outside⟩
  · rintro ⟨hfour, hlow, hhigh, hout⟩
    exact ⟨ImmField.read_eq_iff.mpr ⟨hrep.mpr hfour, hraw.mpr ⟨hlow, hhigh⟩⟩, hsame.mpr hout,
      fun k hk => storeField_of_not_mem (by
        change k < loc ∨ loc + 4 ≤ k at hk
        omega)⟩

theorem holds_patch_iff {r : RelType} (haccept : r.accepts val.toInt = true) :
    r.field.Holds .big mem (r.patch mem loc val.toNat) loc val.toInt ↔ r.Fits mem loc val := by
  cases r with
  | r5 | r6 | r7 | r22 => exact holds_unsigned_iff rfl (of_decide_eq_true haccept)
  | got13 =>
    have hcheck := of_decide_eq_true haccept
    exact (holds_signed_iff rfl hcheck.1).trans (and_iff_right hcheck.2)
  | r10 | r11 | r13 => exact holds_signed_iff rfl (of_decide_eq_true haccept).1
  | r8 | r16 | r32 =>
    exact iff_of_true (holds_store (by decide) (by decide)
      (represents_unsigned (by decide) (of_decide_eq_true haccept))) trivial
  | disp8 | disp16 | disp32 =>
    exact iff_of_true (holds_store (by decide) (by decide)
      (represents_signed (by decide) (of_decide_eq_true haccept))) trivial
  | wdisp16 => exact holds_wdisp16_iff (of_decide_eq_true haccept)
  | wdisp19 | wdisp22 | wdisp30 => exact holds_branch_iff rfl (of_decide_eq_true haccept)

end Fields

/-! ## Values in several instructions -/

structure Symbol where
  isImported : Bool
  isIfunc : Bool
  isAbsolute : Bool

def Symbol.usesGot (sym : Symbol) : Bool := sym.isImported || sym.isIfunc

inductive PartType where
  | hi22
  | lo10
  | gotdataHix22
  | gotdataLox10
  | gotdataOpHix22
  | gotdataOpLox10
  | gotdataOp
  | pc22
  | pc10
  | hix22
  | lox10
  | h44
  | m44
  | l44
  | tlsGdHi22
  | tlsGdLo10
  | tlsLdmHi22
  | tlsLdmLo10
  | tlsLdoHix22
  | tlsLdoLox10
  | tlsIeHi22
  | tlsIeLo10
  | tlsLeHix22
  | tlsLeLox10
  deriving DecidableEq

/-- `bits(val < 0 ? ~val : val, 31, 10)` -/
def hixBits (val : BitVec 64) : ℕ := bits (if val.toInt < 0 then ~~~val else val).toNat 31 10

/-- `bits(val, 9, 0) | (val < 0 ? 0b1'1100'0000'0000 : 0)` -/
def loxBits (val : BitVec 64) : ℕ :=
  bits val.toNat 9 0 ||| if val.toInt < 0 then 0x1c00 else 0

def PartType.patch (sym : Symbol) (x : Values) (w : ℕ) : PartType → ℕ
  | .hi22 => w ||| bits (x.S + x.A).toNat 31 10
  | .lo10 => w ||| bits (x.S + x.A).toNat 9 0
  | .gotdataHix22 => w ||| hixBits (x.S + x.A - x.GOT)
  | .gotdataLox10 => w ||| loxBits (x.S + x.A - x.GOT)
  | .gotdataOpHix22 =>
    if sym.usesGot then w ||| bits x.G.toNat 31 10
    else if sym.isAbsolute then w ||| hixBits (x.S + x.A)
    else w ||| hixBits (x.S + x.A - x.GOT)
  | .gotdataOpLox10 =>
    if sym.usesGot then w ||| bits x.G.toNat 9 0
    else if sym.isAbsolute then w ||| loxBits (x.S + x.A)
    else w ||| loxBits (x.S + x.A - x.GOT)
  | .gotdataOp =>
    if sym.usesGot then w
    else if sym.isAbsolute then 0x01000000
    else w &&& 0x3e07ffff ||| 0x80000000
  | .pc22 => w ||| bits (x.S + x.A - x.P).toNat 31 10
  | .pc10 => w ||| bits (x.S + x.A - x.P).toNat 9 0
  | .hix22 => w ||| bits (~~~(x.S + x.A)).toNat 31 10
  | .lox10 => w ||| (bits (x.S + x.A).toNat 9 0 ||| 0x1c00)
  | .h44 => w ||| bits (x.S + x.A).toNat 43 22
  | .m44 => w ||| bits (x.S + x.A).toNat 21 12
  | .l44 => w ||| bits (x.S + x.A).toNat 11 0
  | .tlsGdHi22 => w ||| bits (x.tlsgdAddr + x.A - x.GOT).toNat 31 10
  | .tlsGdLo10 => w ||| bits (x.tlsgdAddr + x.A - x.GOT).toNat 9 0
  | .tlsLdmHi22 => w ||| bits (x.tlsldAddr + x.A - x.GOT).toNat 31 10
  | .tlsLdmLo10 => w ||| bits (x.tlsldAddr + x.A - x.GOT).toNat 9 0
  | .tlsLdoHix22 => w ||| bits (x.S + x.A - x.dtpAddr).toNat 31 10
  | .tlsLdoLox10 => w ||| bits (x.S + x.A - x.dtpAddr).toNat 9 0
  | .tlsIeHi22 => w ||| bits (x.gottpAddr + x.A - x.GOT).toNat 31 10
  | .tlsIeLo10 => w ||| bits (x.gottpAddr + x.A - x.GOT).toNat 9 0
  | .tlsLeHix22 => w ||| bits (~~~(x.S + x.A - x.tpAddr)).toNat 31 10
  | .tlsLeLox10 => w ||| (bits (x.S + x.A - x.tpAddr).toNat 9 0 ||| 0x1c00)

inductive Shape where
  | plain
  | negative
  | either

def Shape.hi (v : BitVec 64) : Shape → ℕ
  | .plain => bits v.toNat 31 10
  | .negative => bits (~~~v).toNat 31 10
  | .either => hixBits v

def Shape.lo (v : BitVec 64) : Shape → ℕ
  | .plain => bits v.toNat 9 0
  | .negative => bits v.toNat 9 0 ||| 0x1c00
  | .either => loxBits v

def Shape.Range (v : ℤ) : Shape → Prop
  | .plain => 0 ≤ v ∧ v < 2 ^ 32
  | .negative => -2 ^ 32 ≤ v ∧ v < 0
  | .either => -2 ^ 32 ≤ v ∧ v < 2 ^ 32

/-- The operations that put the parts together: parts of a negative number need `xor`. -/
def Shape.Uses (op : Op) : Shape → Prop
  | .plain => True
  | .negative | .either => op = .xor

inductive Pair where
  | hi22
  | hix22
  | gotdata
  | gotdataOp
  | pc22
  | tlsGd
  | tlsLdm
  | tlsLdo
  | tlsIe
  | tlsLe

def Pair.hi : Pair → PartType
  | .hi22 => .hi22
  | .hix22 => .hix22
  | .gotdata => .gotdataHix22
  | .gotdataOp => .gotdataOpHix22
  | .pc22 => .pc22
  | .tlsGd => .tlsGdHi22
  | .tlsLdm => .tlsLdmHi22
  | .tlsLdo => .tlsLdoHix22
  | .tlsIe => .tlsIeHi22
  | .tlsLe => .tlsLeHix22

def Pair.lo : Pair → PartType
  | .hi22 => .lo10
  | .hix22 => .lox10
  | .gotdata => .gotdataLox10
  | .gotdataOp => .gotdataOpLox10
  | .pc22 => .pc10
  | .tlsGd => .tlsGdLo10
  | .tlsLdm => .tlsLdmLo10
  | .tlsLdo => .tlsLdoLox10
  | .tlsIe => .tlsIeLo10
  | .tlsLe => .tlsLeLox10

def Pair.val (sym : Symbol) (x : Values) : Pair → BitVec 64
  | .hi22 | .hix22 => x.S + x.A
  | .gotdata => x.S + x.A - x.GOT
  | .gotdataOp =>
    if sym.usesGot then x.G else if sym.isAbsolute then x.S + x.A else x.S + x.A - x.GOT
  | .pc22 => x.S + x.A - x.P
  | .tlsGd => x.tlsgdAddr + x.A - x.GOT
  | .tlsLdm => x.tlsldAddr + x.A - x.GOT
  | .tlsLdo => x.S + x.A - x.dtpAddr
  | .tlsIe => x.gottpAddr + x.A - x.GOT
  | .tlsLe => x.S + x.A - x.tpAddr

def Pair.shape (sym : Symbol) : Pair → Shape
  | .hi22 | .pc22 | .tlsGd | .tlsLdm | .tlsLdo | .tlsIe => .plain
  | .hix22 | .tlsLe => .negative
  | .gotdata => .either
  | .gotdataOp => if sym.usesGot then .plain else .either

section Parts

variable {load : ℕ → ℕ} {reg : ℕ → ℕ} {sym : Symbol}

theorem patch_hi (p : Pair) (x : Values) (w : ℕ) :
    p.hi.patch sym x w = w ||| (p.shape sym).hi (p.val sym x) := by
  cases p with
  | gotdataOp =>
    simp only [Pair.hi, PartType.patch, Pair.shape, Pair.val]
    cases sym.usesGot <;> cases sym.isAbsolute <;> rfl
  | _ => rfl

theorem patch_lo (p : Pair) (x : Values) (w : ℕ) :
    p.lo.patch sym x w = w ||| (p.shape sym).lo (p.val sym x) := by
  cases p with
  | gotdataOp =>
    simp only [Pair.lo, PartType.patch, Pair.shape, Pair.val]
    cases sym.usesGot <;> cases sym.isAbsolute <;> rfl
  | _ => rfl

theorem toNat_not (v : BitVec 64) : (~~~v).toNat = 2 ^ 64 - 1 - v.toNat := BitVec.toNat_not

theorem Shape.hi_lt (shape : Shape) (v : BitVec 64) : shape.hi v < 2 ^ 22 := by
  cases shape <;> simp only [Shape.hi, hixBits, bits_eq_div] <;> exact Nat.mod_lt _ (by decide)

theorem low_or_ones {x : ℕ} (hx : x < 2 ^ 10) : x ||| 0x1c00 = 0x1c00 + x := by
  rw [Nat.or_comm]
  exact or_low (by decide) hx

theorem Shape.lo_lt (shape : Shape) (v : BitVec 64) : shape.lo v < 2 ^ 13 := by
  have hlow : bits v.toNat 9 0 < 2 ^ 10 := by
    rw [bits_eq_div]
    exact Nat.mod_lt _ (by decide)
  cases shape with
  | plain => exact hlow.trans (by decide)
  | negative =>
    rw [Shape.lo, low_or_ones hlow]
    omega
  | either =>
    rw [Shape.lo, loxBits]
    split
    · rw [low_or_ones hlow]
      omega
    · rw [Nat.or_zero]
      exact hlow.trans (by decide)

theorem eval_plain (op : Op) (v : BitVec 64) :
    op.eval (bits v.toNat 31 10 * 2 ^ 10) (simm13 (bits v.toNat 9 0)) = v.toNat % 2 ^ 32 := by
  have hlow : bits v.toNat 9 0 < 2 ^ 10 := by
    rw [bits_eq_div]
    exact Nat.mod_lt _ (by decide)
  have hhigh : bits v.toNat 31 10 < 2 ^ 22 := Shape.hi_lt .plain v
  rw [simm13_of_lt (hlow.trans (by decide)), eval_low op (Nat.mul_mod_left _ _) hlow (by omega),
    bits_eq_div, bits_eq_div]
  omega

theorem eval_negative (v : BitVec 64) :
    Op.xor.eval (bits (~~~v).toNat 31 10 * 2 ^ 10) (simm13 (bits v.toNat 9 0 ||| 0x1c00)) =
      2 ^ 64 - 2 ^ 32 + v.toNat % 2 ^ 32 := by
  have hlow : bits v.toNat 9 0 < 2 ^ 10 := by
    rw [bits_eq_div]
    exact Nat.mod_lt _ (by decide)
  have hhigh : bits (~~~v).toNat 31 10 < 2 ^ 22 := Shape.hi_lt .negative v
  have hlt := v.isLt
  rw [low_or_ones hlow, eval_xor_negative hhigh hlow, bits_eq_div, bits_eq_div, toNat_not]
  omega

theorem Shape.eval_iff (shape : Shape) {op : Op} (hop : shape.Uses op) (v : BitVec 64) :
    op.eval (shape.hi v * 2 ^ 10) (simm13 (shape.lo v)) = v.toNat ↔ shape.Range v.toInt := by
  have hlt := v.isLt
  have hint : v.toInt = if 2 * v.toNat < 2 ^ 64 then (v.toNat : ℤ) else v.toNat - 2 ^ 64 := by
    rw [BitVec.toInt_eq_toNat_cond]
    rfl
  cases shape with
  | plain =>
    rw [Shape.hi, Shape.lo, eval_plain, Shape.Range, hint]
    split <;> omega
  | negative =>
    obtain rfl : op = .xor := hop
    rw [Shape.hi, Shape.lo, eval_negative, Shape.Range, hint]
    split <;> omega
  | either =>
    obtain rfl : op = .xor := hop
    rw [Shape.hi, Shape.lo, hixBits, loxBits, Shape.Range]
    by_cases hneg : v.toInt < 0
    · rw [if_pos hneg, if_pos hneg, eval_negative]
      rw [hint] at hneg ⊢
      split at hneg <;> split <;> omega
    · rw [if_neg hneg, if_neg hneg, Nat.or_zero, eval_plain]
      rw [hint] at hneg ⊢
      split at hneg <;> split <;> omega

/-- The two instructions of a pair after they are patched.  The relocations have places of their
own. -/
def Pair.code (p : Pair) (sym : Symbol) (x₁ x₂ : Values) (op : Op) (r d : Register) : List ℕ :=
  [p.hi.patch sym x₁ (sethiWord r.num), p.lo.patch sym x₂ (aluWord op d.num r.num)]

theorem run_pair (p : Pair) {x₁ x₂ : Values} (hval : p.val sym x₁ = p.val sym x₂) (op : Op)
    (r d : Register) (ws : List ℕ) :
    Sparc.run load reg (p.code sym x₁ x₂ op r d ++ ws) =
      Sparc.run load (Function.update (Function.update reg r.num
        ((p.shape sym).hi (p.val sym x₁) * 2 ^ 10)) d.num
          (op.eval ((p.shape sym).hi (p.val sym x₁) * 2 ^ 10)
            (simm13 ((p.shape sym).lo (p.val sym x₁))))) ws := by
  rw [Pair.code, patch_hi, patch_lo, ← hval]
  exact run_sethi_alu r d op (Shape.hi_lt _ _) (Shape.lo_lt _ _) ws

theorem run_pair_iff (p : Pair) {x₁ x₂ : Values} (hval : p.val sym x₁ = p.val sym x₂) {op : Op}
    (hop : (p.shape sym).Uses op) (r d : Register) :
    (Sparc.run load reg (p.code sym x₁ x₂ op r d)).map (get · d.num) = some (p.val sym x₁).toNat ↔
      (p.shape sym).Range (p.val sym x₁).toInt := by
  have hrun := @run_pair load reg sym p x₁ x₂ hval op r d []
  rw [List.append_nil] at hrun
  rw [hrun, Sparc.run, Option.map_some, get_update, Option.some_inj]
  exact Shape.eval_iff _ hop _

/-! ### GOT loads -/

theorem Shape.eval_lt (shape : Shape) {op : Op} (hop : shape.Uses op) (v : BitVec 64) :
    op.eval (shape.hi v * 2 ^ 10) (simm13 (shape.lo v)) < 2 ^ 64 := by
  cases shape with
  | plain =>
    rw [Shape.hi, Shape.lo, eval_plain]
    omega
  | negative =>
    obtain rfl : op = .xor := hop
    rw [Shape.hi, Shape.lo, eval_negative]
    omega
  | either =>
    obtain rfl : op = .xor := hop
    rw [Shape.hi, Shape.lo, hixBits, loxBits]
    split
    · rw [eval_negative]
      omega
    · rw [Nat.or_zero, eval_plain]
      omega

theorem ldxWord_to_add (r g d : Register) :
    ldxWord d.num g.num r.num &&& 0x3e07ffff ||| 0x80000000 = addWord d.num g.num r.num := by
  have hd := d.lt
  have hg := g.lt
  have hr := r.lt
  have hlow : ldxWord d.num g.num r.num &&& (2 ^ 19 - 1) = g.num * 2 ^ 14 + r.num := by
    rw [Nat.and_two_pow_sub_one_eq_mod, ldxWord]
    omega
  have hhigh : ldxWord d.num g.num r.num &&& (2 ^ 5 - 1) <<< 25 = d.num * 2 ^ 25 := by
    rw [A64.and_shiftLeft_mask, ldxWord]
    omega
  have hmask : 0x3e07ffff = (2 ^ 5 - 1) <<< 25 ||| (2 ^ 19 - 1) := by decide
  rw [hmask, Nat.and_or_distrib_left, hhigh, hlow,
    or_low (Nat.mul_mod_left _ _) (by omega : g.num * 2 ^ 14 + r.num < 2 ^ 25), Nat.or_comm,
    @or_low _ 31 _ (by decide) (by omega), addWord]
  omega

/-- A GOT load after it is patched: two instructions make an offset in `r`, and the third uses
it with the address of the GOT in `g`. -/
def gotCode (sym : Symbol) (x : Values) (r g d : Register) : List ℕ :=
  Pair.gotdataOp.code sym x x .xor r r ++
    [PartType.gotdataOp.patch sym x (ldxWord d.num g.num r.num)]

def gotTarget (sym : Symbol) (x : Values) (load : ℕ → ℕ) : ℕ :=
  if sym.usesGot then load (x.GOT + x.G).toNat else (x.S + x.A).toNat

/-- The number in `r` after two of the three instructions. -/
def gotOffset (sym : Symbol) (x : Values) : ℕ :=
  Op.xor.eval ((Pair.gotdataOp.shape sym).hi (Pair.gotdataOp.val sym x) * 2 ^ 10)
    (simm13 ((Pair.gotdataOp.shape sym).lo (Pair.gotdataOp.val sym x)))

theorem uses_gotdataOp (sym : Symbol) : (Pair.gotdataOp.shape sym).Uses .xor := by
  rw [Pair.shape]
  cases sym.usesGot
  · exact rfl
  · exact trivial

theorem run_gotCode {x : Values} {r g d : Register} (hgr : g.num ≠ r.num) :
    (Sparc.run load reg (gotCode sym x r g d)).map (get · d.num) =
      some (if sym.usesGot then load ((get reg g.num + gotOffset sym x) % 2 ^ 64)
        else if sym.isAbsolute then if d.num = r.num then gotOffset sym x else get reg d.num
        else (get reg g.num + gotOffset sym x) % 2 ^ 64) := by
  rw [gotCode, run_pair _ rfl]
  change (Sparc.run load (Function.update _ r.num (gotOffset sym x)) _).map _ = _
  have hg (a : ℕ) : get (Function.update (Function.update reg r.num a) r.num
      (gotOffset sym x)) g.num = get reg g.num := by
    rw [get_update_of_ne hgr, get_update_of_ne hgr]
  rw [PartType.patch]
  cases sym.usesGot with
  | true =>
    rw [if_pos rfl, if_pos rfl, run_cons (decode_ldx d.lt g.lt r.lt), Sparc.run, Option.map_some,
      exec, get_update, hg, get_update]
  | false =>
    rw [if_neg Bool.false_ne_true, if_neg Bool.false_ne_true]
    cases sym.isAbsolute with
    | true =>
      have hnop : decode 0x01000000 = some (.sethi 0 0) := by decide
      rw [if_pos rfl, if_pos rfl, run_cons hnop, Sparc.run, Option.map_some, exec,
        get_update_of_ne d.ne_zero]
      split
      case isTrue h => rw [h, get_update]
      case isFalse h => rw [get_update_of_ne h, get_update_of_ne h]
    | false =>
      rw [if_neg Bool.false_ne_true, if_neg Bool.false_ne_true, ldxWord_to_add,
        run_cons (decode_add d.lt g.lt r.lt), Sparc.run, Option.map_some, exec, get_update,
        hg, get_update, Op.eval]

theorem gotCode_iff {x : Values} {r g d : Register} (hgr : g.num ≠ r.num) (hgd : g.num ≠ d.num) :
    (∀ (load reg : ℕ → ℕ), get reg g.num = x.GOT.toNat →
      (Sparc.run load reg (gotCode sym x r g d)).map (get · d.num) = some (gotTarget sym x load)) ↔
      (Pair.gotdataOp.shape sym).Range (Pair.gotdataOp.val sym x).toInt ∧
        (sym.usesGot = false → sym.isAbsolute = true → d.num = r.num) := by
  have hrange := Shape.eval_iff _ (uses_gotdataOp sym) (Pair.gotdataOp.val sym x)
  have hlt := Shape.eval_lt _ (uses_gotdataOp sym) (Pair.gotdataOp.val sym x)
  change gotOffset sym x = _ ↔ _ at hrange
  change gotOffset sym x < _ at hlt
  rw [← hrange]
  have hGOT := x.GOT.isLt
  constructor
  · intro h
    have hsome (load reg : ℕ → ℕ) (hreg : get reg g.num = x.GOT.toNat) :=
      Option.some.inj ((run_gotCode hgr).symm.trans (h load reg hreg))
    -- all registers hold the address of the GOT but for the result
    have hid := hsome id (fun _ => x.GOT.toNat) (if_neg g.ne_zero)
    have hother := hsome id (Function.update (fun _ => x.GOT.toNat) d.num
      ((x.S + x.A).toNat + 1)) (by
        rw [get_update_of_ne hgd]
        exact if_neg g.ne_zero)
    rw [gotTarget] at hid hother
    rw [Sparc.get, if_neg g.ne_zero] at hid
    rw [get_update] at hother
    rw [Pair.val]
    cases hgot : sym.usesGot with
    | true =>
      rw [hgot, if_pos rfl, if_pos rfl, id, id, BitVec.toNat_add] at hid
      rw [if_pos rfl]
      have hG := x.G.isLt
      exact ⟨by omega, fun hfalse => absurd hfalse.symm Bool.false_ne_true⟩
    | false =>
      rw [hgot, if_neg Bool.false_ne_true, if_neg Bool.false_ne_true] at hid hother
      rw [if_neg Bool.false_ne_true]
      cases habs : sym.isAbsolute with
      | true =>
        rw [habs, if_pos rfl] at hid hother
        rw [if_pos rfl]
        have hdr : d.num = r.num := by
          by_contra hne
          rw [if_neg hne] at hother
          omega
        rw [if_pos hdr] at hid
        exact ⟨hid, fun _ _ => hdr⟩
      | false =>
        rw [habs, if_neg Bool.false_ne_true] at hid
        rw [if_neg Bool.false_ne_true, BitVec.toNat_sub]
        exact ⟨by omega, fun _ hfalse => absurd hfalse Bool.false_ne_true⟩
  · rintro ⟨hoffset, habs⟩ load reg hreg
    rw [run_gotCode hgr, hoffset, hreg, gotTarget, Pair.val]
    cases hgot : sym.usesGot with
    | true => rw [if_pos rfl, if_pos rfl, if_pos rfl, BitVec.toNat_add]
    | false =>
      rw [if_neg Bool.false_ne_true, if_neg Bool.false_ne_true, if_neg Bool.false_ne_true]
      cases hsym : sym.isAbsolute with
      | true => rw [if_pos rfl, if_pos rfl, if_pos (habs hgot hsym)]
      | false =>
        rw [if_neg Bool.false_ne_true, if_neg Bool.false_ne_true, BitVec.toNat_sub]
        congr 1
        omega

/-! ### Addresses of 44 bits -/

/-- Four instructions that make an address of 44 bits. -/
def h44Code (sym : Symbol) (x : Values) (op op' : Op) (r d : Register) : List ℕ :=
  [PartType.h44.patch sym x (sethiWord r.num), PartType.m44.patch sym x (aluWord op r.num r.num),
    sllxWord r.num r.num 12, PartType.l44.patch sym x (aluWord op' d.num r.num)]

theorem run_h44Code_iff (x : Values) (op op' : Op) (r d : Register) :
    (Sparc.run load reg (h44Code sym x op op' r d)).map (get · d.num) = some (x.S + x.A).toNat ↔
      (x.S + x.A).toNat < 2 ^ 44 := by
  have hhi : bits (x.S + x.A).toNat 43 22 < 2 ^ 22 := by
    rw [bits_eq_div]
    exact Nat.mod_lt _ (by decide)
  have hmid : bits (x.S + x.A).toNat 21 12 < 2 ^ 10 := by
    rw [bits_eq_div]
    exact Nat.mod_lt _ (by decide)
  have hlow : bits (x.S + x.A).toNat 11 0 < 2 ^ 12 := by
    rw [bits_eq_div]
    exact Nat.mod_lt _ (by decide)
  have hmid' : op.eval (bits (x.S + x.A).toNat 43 22 * 2 ^ 10)
      (simm13 (bits (x.S + x.A).toNat 21 12)) =
        bits (x.S + x.A).toNat 43 22 * 2 ^ 10 + bits (x.S + x.A).toNat 21 12 := by
    rw [simm13_of_lt (hmid.trans (by decide)), eval_low op (Nat.mul_mod_left _ _) hmid (by omega)]
  have hlow' : op'.eval ((bits (x.S + x.A).toNat 43 22 * 2 ^ 10 +
      bits (x.S + x.A).toNat 21 12) * 2 ^ 12 % 2 ^ 64) (simm13 (bits (x.S + x.A).toNat 11 0)) =
        (x.S + x.A).toNat % 2 ^ 44 := by
    rw [simm13_of_lt hlow, Nat.mod_eq_of_lt (by omega : _ < 2 ^ 64),
      eval_low op' (Nat.mul_mod_left _ _) hlow (by omega), bits_eq_div, bits_eq_div, bits_eq_div]
    omega
  have hlt := (x.S + x.A).isLt
  rw [h44Code, PartType.patch, PartType.patch, PartType.patch,
    run_sethi_alu r r op hhi (hmid.trans (by decide)), hmid',
    run_cons (decode_sllx r.lt r.lt (by decide)), exec, get_update,
    run_cons (decode_alu d.lt r.lt (hlow.trans (by decide))), exec, get_update, hlow', Sparc.run,
    Option.map_some, get_update, Option.some_inj]
  omega

end Parts

/-- A field that is patched without an error reads as the checked value exactly if the value
fits, and the instructions of a pair compute their number exactly if it is in range. -/
theorem applyReloc_correct_iff (mem : Memory) (loc : ℕ) (x x' : Values) (sym : Symbol) :
    (∀ t : RelType, (applyReloc mem loc x t).1 = true →
      (t.field.Holds .big mem (applyReloc mem loc x t).2 loc (t.val x).toInt ↔
        t.Fits mem loc (t.val x))) ∧
    (∀ (p : Pair) (op : Op) (r d : Register) (load reg : ℕ → ℕ),
      p.val sym x = p.val sym x' → (p.shape sym).Uses op →
      ((Sparc.run load reg (p.code sym x x' op r d)).map (get · d.num) = some (p.val sym x).toNat ↔
        (p.shape sym).Range (p.val sym x).toInt)) ∧
    (∀ r g d : Register, g.num ≠ r.num → g.num ≠ d.num →
      ((∀ (load reg : ℕ → ℕ), get reg g.num = x.GOT.toNat →
          (Sparc.run load reg (gotCode sym x r g d)).map (get · d.num) =
            some (gotTarget sym x load)) ↔
        (Pair.gotdataOp.shape sym).Range (Pair.gotdataOp.val sym x).toInt ∧
          (sym.usesGot = false → sym.isAbsolute = true → d.num = r.num))) ∧
    ∀ (op op' : Op) (r d : Register) (load reg : ℕ → ℕ),
      (Sparc.run load reg (h44Code sym x op op' r d)).map (get · d.num) = some (x.S + x.A).toNat ↔
        (x.S + x.A).toNat < 2 ^ 44 :=
  ⟨fun _ => holds_patch_iff, fun p _ r d _ _ hval hop => run_pair_iff p hval hop r d,
    fun _ _ _ => gotCode_iff, fun op op' r d _ _ => run_h44Code_iff x op op' r d⟩

def Values.ofSymbol (S : BitVec 64) : Values := ⟨S, 0, 0, 0, 0, 0, 0, 0, 0, 0⟩

/-- A branch of 16 bits over one instruction, which goes nowhere. -/
theorem not_applyReloc_holds_wdisp16 :
    ¬∀ (mem : Memory) (loc : ℕ) (x : Values) (t : RelType),
      (applyReloc mem loc x t).1 = true →
        t.field.Holds .big mem (applyReloc mem loc x t).2 loc (t.val x).toInt := by
  intro h
  have hread := (h (fun _ => 0) 0 (.ofSymbol 8) .wdisp16 (by decide)).read_eq
  have hzero : d16.read .big (applyReloc (fun _ => 0) 0 (.ofSymbol 8) .wdisp16).2 0 = 0 := by
    decide
  exact absurd (hzero.symm.trans hread) (by decide)

end Mold.Elf.Sparc64
