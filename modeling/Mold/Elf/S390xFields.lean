import Mold.Elf.Arm32Addends
import Mold.Lib.InstructionField

/-!
# Fields of s390x instructions

The cases of `apply_reloc_alloc` of `arch-s390x.cc` that put a value into a part of an
instruction, or put half of it there.  Most of them do so as the architecture has it.

The fields of 12 bits are written in little-endian order.  The field of 24 bits is written as
the end of a word, which is one place too far if it begins at the location.  A displacement of
20 bits is signed, but its range is checked as if it were not.  Two cases check no range, and
one lets odd distances pass.
-/

namespace Mold.Elf.S390x

open Mold.Lib Mold.Lib.BitScatter
open Mold.Elf.Riscv (bits)
open Mold.Elf.Arm32 (bits_eq_run)

/-- The types whose field is a part of an instruction. -/
inductive RelType where
  | r8
  | r12
  | r16
  | r20
  | pc12dbl
  | plt12dbl
  | pc16
  | pc16dbl
  | plt16dbl
  | pc24dbl
  | plt24dbl
  | pc32dbl
  | plt32dbl
  | got12
  | gotplt12
  | got16
  | gotplt16
  | got20
  | gotplt20
  | gotoff16
  | pltoff16
  | gotpcdbl
  | gotent
  | tlsGotie20
  | tlsIeent
  deriving DecidableEq

/-- The numbers from which the value of a relocation is computed. -/
structure Values where
  S : BitVec 64
  A : BitVec 64
  P : BitVec 64
  G : BitVec 64
  GOT : BitVec 64
  gottpAddr : BitVec 64

def RelType.val (x : Values) : RelType → BitVec 64
  | .r8 | .r12 | .r16 | .r20 => x.S + x.A
  | .pc12dbl | .plt12dbl | .pc16 | .pc16dbl | .plt16dbl | .pc24dbl | .plt24dbl | .pc32dbl
  | .plt32dbl => x.S + x.A - x.P
  | .got12 | .gotplt12 | .got16 | .gotplt16 | .got20 | .gotplt20 => x.G + x.A
  | .gotoff16 | .pltoff16 => x.S + x.A - x.GOT
  | .gotpcdbl => x.GOT + x.A - x.P
  | .gotent => x.GOT + x.G + x.A - x.P
  | .tlsGotie20 => x.gottpAddr + x.A - x.GOT
  | .tlsIeent => x.gottpAddr + x.A - x.P

/-- The lambda `check` reports no error. -/
def Check (val lo hi : ℤ) : Prop := lo ≤ val ∧ val < hi

/-- The lambda `check_dbl` reports no error. -/
def CheckDbl (val lo hi : ℤ) : Prop := Check val lo hi ∧ val % 2 = 0

instance instDecidableCheck (val lo hi : ℤ) : Decidable (Check val lo hi) :=
  inferInstanceAs (Decidable (_ ∧ _))

instance instDecidableCheckDbl (val lo hi : ℤ) : Decidable (CheckDbl val lo hi) :=
  inferInstanceAs (Decidable (_ ∧ _))

/-- No error is reported for the value.  The two TLS cases check nothing. -/
def RelType.accepts (val : ℤ) : RelType → Bool
  | .r8 => decide (Check val 0 (2 ^ 8))
  | .r12 | .got12 | .gotplt12 => decide (Check val 0 (2 ^ 12))
  | .r16 | .got16 | .gotplt16 => decide (Check val 0 (2 ^ 16))
  | .r20 | .got20 | .gotplt20 => decide (Check val 0 (2 ^ 20))
  | .pc12dbl | .plt12dbl => decide (CheckDbl val (-2 ^ 12) (2 ^ 12))
  | .pc16 | .gotoff16 | .pltoff16 => decide (Check val (-2 ^ 15) (2 ^ 15))
  | .pc16dbl | .plt16dbl => decide (CheckDbl val (-2 ^ 16) (2 ^ 16))
  | .pc24dbl | .plt24dbl => decide (CheckDbl val (-2 ^ 24) (2 ^ 24))
  | .pc32dbl | .plt32dbl | .gotpcdbl => decide (CheckDbl val (-2 ^ 32) (2 ^ 32))
  | .gotent => decide (Check val (-2 ^ 32) (2 ^ 32))
  | .tlsGotie20 | .tlsIeent => true

def orUl16 (mem : Memory) (loc x : ℕ) : Memory :=
  storeField .little 2 mem loc (loadField .little 2 mem loc ||| x)

def orUb32 (mem : Memory) (loc x : ℕ) : Memory :=
  storeField .big 4 mem loc (loadField .big 4 mem loc ||| x)

def setUb16 (mem : Memory) (loc x : ℕ) : Memory := storeField .big 2 mem loc x

def setUb32 (mem : Memory) (loc x : ℕ) : Memory := storeField .big 4 mem loc x

def writeMid20 (mem : Memory) (loc val : ℕ) : Memory :=
  orUb32 mem loc (bits val 11 0 <<< 16 ||| bits val 19 12 <<< 8)

def RelType.patch (mem : Memory) (loc val : ℕ) : RelType → Memory
  | .r8 => storeField .big 1 mem loc val
  | .r12 | .got12 | .gotplt12 => orUl16 mem loc (bits val 11 0)
  | .r16 | .got16 | .gotplt16 | .pc16 | .gotoff16 | .pltoff16 => setUb16 mem loc val
  | .r20 | .got20 | .gotplt20 | .tlsGotie20 => writeMid20 mem loc val
  | .pc12dbl | .plt12dbl => orUl16 mem loc (bits val 12 1)
  | .pc16dbl | .plt16dbl => setUb16 mem loc (val >>> 1)
  | .pc24dbl | .plt24dbl => orUb32 mem loc (bits val 24 1)
  | .pc32dbl | .plt32dbl | .gotpcdbl | .gotent | .tlsIeent => setUb32 mem loc (val >>> 1)

/-- The loop of `apply_reloc_alloc` at one relocation: whether no error is reported, and the
memory after it. -/
def applyReloc (mem : Memory) (loc : ℕ) (x : Values) (r : RelType) : Bool × Memory :=
  let val := r.val x
  (r.accepts val.toInt, r.patch mem loc val.toNat)

def low12 (signed : Bool) (scale : ℕ) : ImmField :=
  .low 2 12 signed scale (by decide) (by decide)

/-- A long displacement: its low 12 bits are in front of the high eight. -/
def mid20 : ImmField where
  bytes := 4
  pieces := [⟨0, 16, 12⟩, ⟨12, 8, 8⟩]
  width := 20
  signed := true
  scale := 0
  apart := by decide
  inside := by decide
  within := by decide
  covered := by decide
  pos := by decide

def low24 : ImmField := .low 4 24 true 1 (by decide) (by decide)

structure Operand where
  /-- An operand of 16 bits is not signed. -/
  logical : Bool
  /-- A field of 24 bits is at the end of a word and not in three bytes. -/
  inWord : Bool

def Operand.pc24 (op : Operand) : ImmField :=
  if op.inWord then low24 else .whole 3 true 1 (by decide)

def RelType.field (op : Operand) : RelType → ImmField
  | .r8 => .whole 1 false 0 (by decide)
  | .r12 | .got12 | .gotplt12 => low12 false 0
  | .r16 | .got16 | .gotplt16 => .whole 2 (!op.logical) 0 (by decide)
  | .r20 | .got20 | .gotplt20 | .tlsGotie20 => mid20
  | .pc12dbl | .plt12dbl => low12 true 1
  | .pc16 | .gotoff16 | .pltoff16 => .whole 2 true 0 (by decide)
  | .pc16dbl | .plt16dbl => .whole 2 true 1 (by decide)
  | .pc24dbl | .plt24dbl => op.pc24
  | .pc32dbl | .plt32dbl | .gotpcdbl | .gotent | .tlsIeent => .whole 4 true 1 (by decide)

/-! ## When the fields are right -/

/-- A number of 12 bits is right after its bytes went to the wrong places. -/
def SwapFits (b₀ b₁ h : ℕ) : Prop :=
  h / 256 = h % 16 ∧ BitsIn (b₀ % 16) (h % 16) ∧ BitsIn (b₁ % 16) (h % 16) ∧
    b₁ / 16 = h / 16 % 16 ∧ BitsIn (h / 16 % 16) (b₀ / 16)

/-- A number of 24 bits is right after its bytes went one place too far. -/
def ShiftFits (b₀ b₁ b₂ b₃ h : ℕ) : Prop :=
  b₀ = h / 65536 ∧ b₁ ||| h / 65536 = h / 256 % 256 ∧ b₂ ||| h / 256 % 256 = h % 256 ∧
    BitsIn (h % 256) b₃

/-- The case of a relocation is right for a value. -/
def RelType.Fits (op : Operand) (mem : Memory) (loc : ℕ) (val : BitVec 64) : RelType → Prop
  | .r8 | .pc16 | .gotoff16 | .pltoff16 | .pc16dbl | .plt16dbl | .pc32dbl | .plt32dbl
  | .gotpcdbl => True
  | .r16 | .got16 | .gotplt16 => op.logical = true ∨ val.toInt < 2 ^ 15
  | .r12 | .got12 | .gotplt12 =>
    SwapFits (mem loc).val (mem (loc + 1)).val (bits val.toNat 11 0)
  | .pc12dbl | .plt12dbl =>
    SwapFits (mem loc).val (mem (loc + 1)).val (bits val.toNat 12 1)
  | .r20 | .got20 | .gotplt20 | .tlsGotie20 =>
    (-2 ^ 19 ≤ val.toInt ∧ val.toInt < 2 ^ 19) ∧
      BitsIn (mid20.raw (loadField .big 4 mem loc)) (bits val.toNat 19 0)
  | .pc24dbl | .plt24dbl =>
    if op.inWord then
      BitsIn (loadField .big 4 mem loc % 2 ^ 24) (bits val.toNat 24 1)
    else
      ShiftFits (mem loc).val (mem (loc + 1)).val (mem (loc + 2)).val (mem (loc + 3)).val
        (bits val.toNat 24 1)
  | .gotent => val.toInt % 2 = 0
  | .tlsIeent => CheckDbl val.toInt (-2 ^ 32) (2 ^ 32)

section Fits

variable {op : Operand} {mem : Memory} {loc : ℕ} {val : BitVec 64}

theorem bits_eq_encode (f : ImmField) {hi lo : ℕ} (hlo : f.scale = lo)
    (hwidth : f.width = hi - lo + 1) (h64 : f.scale + f.width ≤ 64) :
    bits val.toNat hi lo = f.encode val.toInt := by
  rw [bits_eq_run rfl, ImmField.run_eq_encode hlo hwidth h64]

theorem holds_mid20_iff :
    mid20.Holds .big mem (writeMid20 mem loc val.toNat) loc val.toInt ↔
      (-2 ^ 19 ≤ val.toInt ∧ val.toInt < 2 ^ 19) ∧
        BitsIn (mid20.raw (loadField .big 4 mem loc)) (bits val.toNat 19 0) := by
  have hencode : bits val.toNat 19 0 = mid20.encode val.toInt :=
    bits_eq_encode mid20 rfl rfl (by decide)
  have hval : val.toNat % 2 ^ 20 = mid20.encode val.toInt := by
    rw [← hencode, bits_eq_run rfl, run_eq, pow_zero, Nat.div_one]
  have hscatter : bits val.toNat 11 0 <<< 16 ||| bits val.toNat 19 12 <<< 8 =
      scatter mid20.pieces val.toNat := by
    change _ = run val.toNat 0 12 <<< 16 ||| (run val.toNat 12 8 <<< 8 ||| 0)
    rw [bits_eq_run rfl, bits_eq_run rfl, Nat.or_zero]
  have hrep : mid20.Represents val.toInt ↔ -2 ^ 19 ≤ val.toInt ∧ val.toInt < 2 ^ 19 := by
    simp only [ImmField.Represents, mid20, if_true]
    omega
  rw [writeMid20, orUb32, hscatter, hencode, ← hrep]
  exact ImmField.holds_or_iff hval

theorem holds_low24_iff (hcheck : CheckDbl val.toInt (-2 ^ 24) (2 ^ 24)) :
    low24.Holds .big mem (orUb32 mem loc (bits val.toNat 24 1)) loc val.toInt ↔
      BitsIn (loadField .big 4 mem loc % 2 ^ 24) (bits val.toNat 24 1) := by
  have hrep : low24.Represents val.toInt := by
    obtain ⟨⟨hlow, hhigh⟩, heven⟩ := hcheck
    rw [low24, ImmField.represents_signed_iff]
    omega
  exact (ImmField.holds_or_low_iff (bits_eq_encode low24 rfl rfl (by decide))).trans
    (and_iff_right hrep)

theorem halfword_div_mod {a b : ℕ} (hb : b < 256) :
    (a * 256 + b) / 4096 = a / 16 ∧ (a * 256 + b) % 4096 = a % 16 * 256 + b := by
  omega

theorem swap_iff {b₀ b₁ h : ℕ} (hh : h < 4096) (hb₁ : b₁ < 256) :
    (((b₀ ||| h % 256) * 256 + (b₁ ||| h / 256)) % 4096 = h ∧
      ((b₀ ||| h % 256) * 256 + (b₁ ||| h / 256)) / 4096 = (b₀ * 256 + b₁) / 4096) ↔
      SwapFits b₀ b₁ h := by
  have hlt : b₁ ||| h / 256 < 2 ^ 8 := Nat.or_lt_two_pow hb₁ (by omega)
  have hlow : (b₀ ||| h % 256) % 16 = b₀ % 16 ||| h % 256 % 16 :=
    Nat.or_mod_two_pow (n := 4)
  have hhigh : (b₀ ||| h % 256) / 16 = b₀ / 16 ||| h % 256 / 16 :=
    Nat.or_div_two_pow (n := 4)
  have hlow₁ : (b₁ ||| h / 256) % 16 = b₁ % 16 ||| h / 256 % 16 :=
    Nat.or_mod_two_pow (n := 4)
  have hhigh₁ : (b₁ ||| h / 256) / 16 = b₁ / 16 ||| h / 256 / 16 :=
    Nat.or_div_two_pow (n := 4)
  have hmod : h % 256 % 16 = h % 16 := by omega
  have hdiv : h % 256 / 16 = h / 16 % 16 := by omega
  have hmod₁ : h / 256 % 16 = h / 256 := by omega
  have hdiv₁ : h / 256 / 16 = 0 := by omega
  rw [hmod] at hlow
  rw [hdiv] at hhigh
  rw [hmod₁] at hlow₁
  rw [hdiv₁, Nat.or_zero] at hhigh₁
  have hle : h % 16 ≤ b₀ % 16 ||| h % 16 := Nat.right_le_or
  have hle₁ : h / 256 ≤ b₁ % 16 ||| h / 256 := Nat.right_le_or
  rw [SwapFits, BitsIn, BitsIn, BitsIn, Nat.or_comm (h / 16 % 16)]
  generalize b₀ ||| h % 256 = c₀ at hlow hhigh ⊢
  generalize b₁ ||| h / 256 = c₁ at hlt hlow₁ hhigh₁ ⊢
  rw [(halfword_div_mod hb₁).1, (halfword_div_mod hlt).1, (halfword_div_mod hlt).2]
  constructor
  · rintro ⟨hword, hout⟩
    have h₁ : b₁ % 16 ||| h / 256 = h % 16 := by omega
    have hsame : h / 256 = h % 16 := by omega
    refine ⟨hsame, by omega, ?_, by omega, by omega⟩
    rw [hsame] at h₁
    exact h₁
  · rintro ⟨hsame, h₀, h₁, hb, hb'⟩
    rw [← hsame] at h₁
    omega

theorem loadField_big_two :
    loadField .big 2 mem loc = (mem loc).val * 256 + (mem (loc + 1)).val := by
  simp only [loadField, List.range_succ, List.range_zero, List.nil_append, List.cons_append,
    List.map_cons, List.map_nil, readLe, Endian.place, Nat.reduceSub, Nat.add_zero]
  omega

theorem loadField_big_three :
    loadField .big 3 mem loc =
      (mem loc).val * 65536 + (mem (loc + 1)).val * 256 + (mem (loc + 2)).val := by
  simp only [loadField, List.range_succ, List.range_zero, List.nil_append, List.cons_append,
    List.map_cons, List.map_nil, readLe, Endian.place, Nat.reduceSub, Nat.add_zero]
  omega

theorem represents_low12 {v : ℤ} (h : Check v 0 (2 ^ 12)) : (low12 false 0).Represents v := by
  obtain ⟨hlow, hhigh⟩ := h
  rw [low12, ImmField.represents_unsigned_iff]
  omega

theorem represents_low12_halved {v : ℤ} (h : CheckDbl v (-2 ^ 12) (2 ^ 12)) :
    (low12 true 1).Represents v := by
  obtain ⟨⟨hlow, hhigh⟩, heven⟩ := h
  rw [low12, ImmField.represents_signed_iff]
  omega

theorem holds_low12_iff {signed : Bool} {scale : ℕ} {h : ℕ}
    (hencode : h = (low12 signed scale).encode val.toInt)
    (hrep : (low12 signed scale).Represents val.toInt) :
    (low12 signed scale).Holds .big mem (orUl16 mem loc h) loc val.toInt ↔
      SwapFits (mem loc).val (mem (loc + 1)).val h := by
  have hlt : h < 4096 := by
    rw [hencode]
    exact ImmField.encode_lt _
  have hbyte₀ : (orUl16 mem loc h loc).val = (mem loc).val ||| h % 256 := by
    have hval : (orUl16 mem loc h loc).val = (mem loc).val ||| h / 256 ^ 0 % 256 :=
      ImmField.val_storeField_or (e := .little) (i := 0) (show 0 < 2 by decide) h
    rwa [pow_zero, Nat.div_one] at hval
  have hbyte₁ : (orUl16 mem loc h (loc + 1)).val = (mem (loc + 1)).val ||| h / 256 := by
    have hval : (orUl16 mem loc h (loc + 1)).val = (mem (loc + 1)).val ||| h / 256 ^ 1 % 256 :=
      ImmField.val_storeField_or (e := .little) (i := 1) (show 1 < 2 by decide) h
    rwa [pow_one, Nat.mod_eq_of_lt (by omega)] at hval
  have hload : loadField .big 2 (orUl16 mem loc h) loc =
      ((mem loc).val ||| h % 256) * 256 + ((mem (loc + 1)).val ||| h / 256) := by
    rw [loadField_big_two, hbyte₀, hbyte₁]
  have hword (m : Memory) : loadField .big 2 m loc < 2 ^ (8 * 2) := loadField_lt
  have hraw (w : ℕ) : (low12 signed scale).raw w = w % 4096 := ImmField.raw_low rfl w
  have hout : (low12 signed scale).SameOutside (loadField .big 2 mem loc)
      (loadField .big 2 (orUl16 mem loc h) loc) ↔
        loadField .big 2 (orUl16 mem loc h) loc / 4096 = loadField .big 2 mem loc / 4096 :=
    ImmField.sameOutside_low_iff rfl (hword _) (hword _)
  rw [← swap_iff hlt (mem (loc + 1)).isLt, ← hload, ← loadField_big_two]
  constructor
  · intro hholds
    have hbits := (ImmField.read_eq_iff.mp hholds.read_eq).2
    exact ⟨(hraw _).symm.trans (hbits.trans hencode.symm), hout.mp hholds.outside⟩
  · rintro ⟨hmod, hdiv⟩
    refine ⟨ImmField.read_eq_iff.mpr ⟨hrep, ?_⟩, hout.mpr hdiv,
      fun k hk => storeField_of_not_mem hk⟩
    exact (hraw _).trans (hmod.trans hencode)

theorem holds_triple_iff (hcheck : CheckDbl val.toInt (-2 ^ 24) (2 ^ 24)) :
    (ImmField.whole 3 true 1 (by decide)).Holds .big mem
        (orUb32 mem loc (bits val.toNat 24 1)) loc val.toInt ↔
      ShiftFits (mem loc).val (mem (loc + 1)).val (mem (loc + 2)).val (mem (loc + 3)).val
        (bits val.toNat 24 1) := by
  have hencode : bits val.toNat 24 1 = (ImmField.whole 3 true 1 (by decide)).encode val.toInt :=
    bits_eq_encode (ImmField.whole 3 true 1 (by decide)) rfl rfl (by decide)
  have hrep : (ImmField.whole 3 true 1 (by decide)).Represents val.toInt := by
    obtain ⟨⟨hlow, hhigh⟩, heven⟩ := hcheck
    rw [ImmField.whole, ImmField.represents_signed_iff]
    omega
  have hlt : bits val.toNat 24 1 < 2 ^ 24 := by
    rw [hencode]
    exact ImmField.encode_lt _
  generalize bits val.toNat 24 1 = h at hencode hlt ⊢
  have hbyte {i : ℕ} (hi : i < 4) : (orUb32 mem loc h (loc + (4 - 1 - i))).val =
      (mem (loc + (4 - 1 - i))).val ||| h / 256 ^ i % 256 :=
    ImmField.val_storeField_or (e := .big) hi h
  have hbyte₀ : (orUb32 mem loc h loc).val = (mem loc).val := by
    have hzero : h / 256 ^ 3 % 256 = 0 := by omega
    have hval := hbyte (show 3 < 4 by decide)
    rwa [hzero, Nat.or_zero] at hval
  have hbyte₁ : (orUb32 mem loc h (loc + 1)).val = (mem (loc + 1)).val ||| h / 65536 := by
    have hmod : h / 256 ^ 2 % 256 = h / 65536 := by omega
    have hval := hbyte (show 2 < 4 by decide)
    rwa [hmod] at hval
  have hbyte₂ := hbyte (show 1 < 4 by decide)
  have hbyte₃ := hbyte (show 0 < 4 by decide)
  rw [pow_one] at hbyte₂
  rw [pow_zero, Nat.div_one] at hbyte₃
  have hload : loadField .big 3 (orUb32 mem loc h) loc =
      (mem loc).val * 65536 + ((mem (loc + 1)).val ||| h / 65536) * 256 +
        ((mem (loc + 2)).val ||| h / 256 % 256) := by
    rw [loadField_big_three, hbyte₀, hbyte₁]
    exact congrArg _ hbyte₂
  have hlt₁ : (mem (loc + 1)).val ||| h / 65536 < 2 ^ 8 :=
    Nat.or_lt_two_pow (mem (loc + 1)).isLt (by omega)
  have hlt₂ : (mem (loc + 2)).val ||| h / 256 % 256 < 2 ^ 8 :=
    Nat.or_lt_two_pow (mem (loc + 2)).isLt (Nat.mod_lt _ (by decide))
  have hlt₀ := (mem loc).isLt
  constructor
  · intro hholds
    have hraw := (ImmField.read_eq_iff.mp hholds.read_eq).2
    rw [ImmField.raw_whole] at hraw
    change loadField .big 3 (orUb32 mem loc h) loc % 2 ^ 24 = _ at hraw
    rw [← hencode, hload, Nat.mod_eq_of_lt (by omega)] at hraw
    have hlast := congrArg Fin.val (hholds.elsewhere (loc + 3) (.inr (Nat.le_refl (loc + 3))))
    refine ⟨by omega, by omega, by omega, ?_⟩
    rw [BitsIn, Nat.or_comm]
    exact hbyte₃.symm.trans hlast
  · rintro ⟨h₀, h₁, h₂, h₃⟩
    refine ⟨ImmField.read_eq_iff.mpr ⟨hrep, ?_⟩, ImmField.sameOutside_whole _ _ _, ?_⟩
    · rw [ImmField.raw_whole, ← hencode]
      change loadField .big 3 (orUb32 mem loc h) loc % 2 ^ 24 = _
      rw [hload, h₁, h₂]
      omega
    · intro k hk
      change k < loc ∨ loc + 3 ≤ k at hk
      by_cases hk₃ : k = loc + 3
      · rw [BitsIn, Nat.or_comm] at h₃
        rw [hk₃]
        exact Fin.ext (hbyte₃.trans h₃)
      · exact storeField_of_not_mem (by omega)

theorem represents_unsigned {bytes : ℕ} (hbytes : 0 < bytes) {v : ℤ}
    (h : Check v 0 (2 ^ (8 * bytes))) : (ImmField.whole bytes false 0 hbytes).Represents v := by
  rw [ImmField.whole, ImmField.represents_unsigned_iff, pow_zero, Int.ediv_one]
  exact ⟨one_dvd v, h⟩

theorem holds_half_iff {logical : Bool} (hcheck : Check val.toInt 0 (2 ^ 16)) :
    (ImmField.whole 2 (!logical) 0 (by decide)).Holds .big mem (setUb16 mem loc val.toNat) loc
        val.toInt ↔
      logical = true ∨ val.toInt < 2 ^ 15 := by
  have hholds : (ImmField.whole 2 (!logical) 0 (by decide)).Holds .big mem
      (storeField .big 2 mem loc (val.toNat / 2 ^ 0)) loc val.toInt ↔ _ :=
    ImmField.holds_store_iff (by decide) (by decide)
  rw [pow_zero, Nat.div_one] at hholds
  rw [setUb16, hholds]
  obtain ⟨hlow, hhigh⟩ := hcheck
  cases logical with
  | true => exact iff_of_true (represents_unsigned _ ⟨hlow, hhigh⟩) (.inl rfl)
  | false =>
    rw [Bool.not_false, ImmField.whole, ImmField.represents_signed_iff]
    simp only [Bool.false_eq_true, false_or]
    omega

theorem holds_setUb16 (hcheck : Check val.toInt (-2 ^ 15) (2 ^ 15)) :
    (ImmField.whole 2 true 0 (by decide)).Holds .big mem (setUb16 mem loc val.toNat) loc
      val.toInt := by
  have hholds : (ImmField.whole 2 true 0 (by decide)).Holds .big mem
      (storeField .big 2 mem loc (val.toNat / 2 ^ 0)) loc val.toInt ↔ _ :=
    ImmField.holds_store_iff (by decide) (by decide)
  rw [pow_zero, Nat.div_one] at hholds
  rw [setUb16, hholds, ImmField.whole, ImmField.represents_signed_iff, pow_zero, Int.ediv_one]
  exact ⟨one_dvd _, hcheck⟩

theorem holds_halved_iff {bytes : ℕ} (hbytes : 0 < bytes) (h64 : 1 + 8 * bytes ≤ 64) :
    (ImmField.whole bytes true 1 hbytes).Holds .big mem
        (storeField .big bytes mem loc (val.toNat >>> 1)) loc val.toInt ↔
      CheckDbl val.toInt (-2 ^ (8 * bytes)) (2 ^ (8 * bytes)) := by
  obtain ⟨n, hn⟩ : ∃ n, 8 * bytes = n + 1 := ⟨8 * bytes - 1, by omega⟩
  have hpow : (2 : ℤ) ^ (n + 1) = 2 * 2 ^ n := pow_succ' 2 n
  rw [Nat.shiftRight_eq_div_pow, ImmField.holds_store_iff hbytes h64, ImmField.whole,
    ImmField.represents_signed_iff, CheckDbl, Check, hn, Nat.add_sub_cancel, hpow, pow_one]
  generalize (2 : ℤ) ^ n = m
  omega

theorem holds_patch_iff {r : RelType} (haccept : r.accepts val.toInt = true) :
    (r.field op).Holds .big mem (r.patch mem loc val.toNat) loc val.toInt ↔
      r.Fits op mem loc val := by
  cases r with
  | r8 =>
    have hholds : (ImmField.whole 1 false 0 (by decide)).Holds .big mem
        (storeField .big 1 mem loc (val.toNat / 2 ^ 0)) loc val.toInt ↔ _ :=
      ImmField.holds_store_iff (by decide) (by decide)
    rw [pow_zero, Nat.div_one] at hholds
    exact iff_of_true (hholds.mpr (represents_unsigned _ (of_decide_eq_true haccept))) trivial
  | r12 | got12 | gotplt12 =>
    exact holds_low12_iff (bits_eq_encode (low12 false 0) rfl rfl (by decide))
      (represents_low12 (of_decide_eq_true haccept))
  | pc12dbl | plt12dbl =>
    exact holds_low12_iff (bits_eq_encode (low12 true 1) rfl rfl (by decide))
      (represents_low12_halved (of_decide_eq_true haccept))
  | r16 | got16 | gotplt16 => exact holds_half_iff (of_decide_eq_true haccept)
  | r20 | got20 | gotplt20 | tlsGotie20 => exact holds_mid20_iff
  | pc16 | gotoff16 | pltoff16 =>
    exact iff_of_true (holds_setUb16 (of_decide_eq_true haccept)) trivial
  | pc16dbl | plt16dbl =>
    exact iff_of_true ((holds_halved_iff (show 0 < 2 by decide) (by decide)).mpr
      (of_decide_eq_true haccept)) trivial
  | pc32dbl | plt32dbl | gotpcdbl =>
    exact iff_of_true ((holds_halved_iff (show 0 < 4 by decide) (by decide)).mpr
      (of_decide_eq_true haccept)) trivial
  | pc24dbl | plt24dbl =>
    change op.pc24.Holds _ _ _ _ _ ↔ if op.inWord = true then _ else _
    rw [Operand.pc24]
    cases op.inWord with
    | true => exact holds_low24_iff (of_decide_eq_true haccept)
    | false => exact holds_triple_iff (of_decide_eq_true haccept)
  | gotent =>
    exact (holds_halved_iff (show 0 < 4 by decide) (by decide)).trans
      (and_iff_right (of_decide_eq_true haccept))
  | tlsIeent => exact holds_halved_iff (show 0 < 4 by decide) (by decide)

end Fits

/-- A field that is patched without an error reads as the checked value, with all other bits
unchanged, exactly if the value fits. -/
theorem applyReloc_holds_iff (op : Operand) (mem : Memory) (loc : ℕ) (x : Values) (r : RelType)
    (haccept : (applyReloc mem loc x r).1 = true) :
    (r.field op).Holds .big mem (applyReloc mem loc x r).2 loc (r.val x).toInt ↔
      r.Fits op mem loc (r.val x) :=
  holds_patch_iff haccept

def Values.ofSymbol (S : BitVec 64) : Values := ⟨S, 0, 0, 0, 0, 0⟩

/-- A small displacement fits. -/
theorem applyReloc_holds_smallDisplacement :
    (applyReloc (fun _ => 0) 0 (.ofSymbol 16) .r20).1 = true ∧
      mid20.Holds .big (fun _ => 0) (applyReloc (fun _ => 0) 0 (.ofSymbol 16) .r20).2 0 16 :=
  ⟨by decide, (applyReloc_holds_iff ⟨false, false⟩ (fun _ => 0) 0 (.ofSymbol 16) .r20
    (by decide)).mpr ⟨by decide, by decide⟩⟩

/-- The displacement of 2048 in an empty field reads as eight. -/
theorem not_applyReloc_holds_swapped :
    ¬∀ (op : Operand) (mem : Memory) (loc : ℕ) (x : Values) (r : RelType),
      (applyReloc mem loc x r).1 = true →
        (r.field op).Holds .big mem (applyReloc mem loc x r).2 loc (r.val x).toInt := by
  intro h
  have hread := (h ⟨false, false⟩ (fun _ => 0) 0 (.ofSymbol 0x800) .r12 (by decide)).read_eq
  have height : (low12 false 0).read .big
      (applyReloc (fun _ => 0) 0 (.ofSymbol 0x800) .r12).2 0 = 8 := by
    decide
  exact absurd (height.symm.trans hread) (by decide)

end Mold.Elf.S390x
