import Mold.Elf.Arm32Addends

/-!
# Addends in the places of relocations

`get_addend` and `write_addend` of `arch-i386.cc`, and what is expected of the two functions for
both targets that keep addends in the places of relocations.

`get_addend` of i386 reads numbers without a sign.
-/

namespace Mold.Elf.InPlaceAddends

open Mold.Lib

def bytesField (n : ℕ) : SignedField := ⟨[(0, 8 * n)], 0, 8 * n⟩

/-- The types with an addend, `R_386_NONE`, and all others. -/
inductive I386RelType where
  | none
  | abs8
  | pc8
  | abs16
  | pc16
  | abs32
  | pc32
  | got32
  | got32x
  | plt32
  | gotoff
  | gotpc
  | tlsLdm
  | tlsGotie
  | tlsLe
  | tlsIe
  | tlsGd
  | tlsLdo32
  | size32
  | tlsGotdesc
  | other (rType : ℕ)
  deriving DecidableEq

namespace I386RelType

def getAddend (mem : Memory) (loc : ℕ) : I386RelType → BitVec 64
  | abs8 | pc8 => BitVec.ofNat 64 (loadField .little 1 mem loc)
  | abs16 | pc16 => BitVec.ofNat 64 (loadField .little 2 mem loc)
  | abs32 | pc32 | got32 | got32x | plt32 | gotoff | gotpc | tlsLdm | tlsGotie | tlsLe | tlsIe
  | tlsGd | tlsLdo32 | size32 | tlsGotdesc => BitVec.ofNat 64 (loadField .little 4 mem loc)
  | none | other _ => 0

/-- `write_addend`.  The result is `none` where `unreachable` is called. -/
def writeAddend (mem : Memory) (loc : ℕ) (val : BitVec 64) : I386RelType → Option Memory
  | none => some mem
  | abs8 | pc8 => some (storeField .little 1 mem loc val.toNat)
  | abs16 | pc16 => some (storeField .little 2 mem loc val.toNat)
  | abs32 | pc32 | got32 | got32x | plt32 | gotoff | gotpc | tlsLdm | tlsGotie | tlsLe | tlsIe
  | tlsGd | tlsLdo32 | size32 | tlsGotdesc => some (storeField .little 4 mem loc val.toNat)
  | other _ => Option.none

/-- The bytes that `get_addend` reads. -/
def size : I386RelType → ℕ
  | abs8 | pc8 => 1
  | abs16 | pc16 => 2
  | abs32 | pc32 | got32 | got32x | plt32 | gotoff | gotpc | tlsLdm | tlsGotie | tlsLe | tlsIe
  | tlsGd | tlsLdo32 | size32 | tlsGotdesc => 4
  | none | other _ => 0

/-- The field of a relocation whose addend `get_addend` reads. -/
def field (rType : I386RelType) : Option SignedField :=
  if rType.size = 0 then Option.none else some (bytesField rType.size)

end I386RelType

inductive Reloc where
  | arm32 (rType : Arm32.RelType)
  | i386 (rType : I386RelType)

namespace Reloc

def getAddend (mem : Memory) (loc : ℕ) : Reloc → BitVec 64
  | arm32 rType => Arm32.getAddend mem loc rType
  | i386 rType => rType.getAddend mem loc

def writeAddend (mem : Memory) (loc : ℕ) (val : BitVec 64) : Reloc → Option Memory
  | arm32 rType => Arm32.writeAddend mem loc val rType
  | i386 rType => rType.writeAddend mem loc val

def field : Reloc → Option SignedField
  | arm32 rType => rType.field
  | i386 rType => rType.field

/-- `S + A - P`, of which `apply_reloc_alloc` checks the range. -/
def value (mem : Memory) (loc : ℕ) (S P : BitVec 64) (r : Reloc) : BitVec 64 :=
  S + r.getAddend mem loc - P

/-- `RelocSection::copy_buf` with `-r`: the place refers to the output section now, where the
symbol's section has an offset. -/
def copyBuf (mem : Memory) (loc offset : ℕ) (r : Reloc) : Option Memory :=
  r.writeAddend mem loc (r.getAddend mem loc + BitVec.ofNat 64 offset)

/-- An addend that is written is read back, the range check sees it, and it is right in the
output of `-r`. -/
def RoundTrips (r : Reloc) (f : SignedField) (mem : Memory) (loc : ℕ) (a : ℤ) : Prop :=
  ∃ mem', r.writeAddend mem loc (BitVec.ofInt 64 a) = some mem' ∧
    f.Stores mem mem' loc (fun mem => r.getAddend mem loc) a ∧
    (∀ S P, r.value mem' loc S P = S + BitVec.ofInt 64 a - P) ∧
    ∀ offset : ℕ, f.Represents (a + offset) → ∃ mem'', r.copyBuf mem' loc offset = some mem'' ∧
      f.Stores mem' mem'' loc (fun mem => r.getAddend mem loc) (a + offset)

def Meets (a : ℤ) : Reloc → Prop
  | arm32 rType => rType ≠ .tlsCall
  | i386 _ => 0 ≤ a

theorem Meets.add_offset {r : Reloc} {a : ℤ} (h : r.Meets a) (offset : ℕ) :
    r.Meets (a + offset) := by
  cases r with
  | arm32 => exact h
  | i386 => exact Int.add_nonneg h (Int.natCast_nonneg offset)

end Reloc

section Bytes

variable {mem : Memory} {loc n : ℕ} {a : ℤ}

theorem ofNat_loadField (hn : n ≤ 4) (mem : Memory) (loc : ℕ) (a : ℤ) :
    BitVec.ofNat 64 (loadField .little n
      (storeField .little n mem loc (BitVec.ofInt 64 a).toNat) loc) =
      BitVec.ofInt 64 (a % 2 ^ (8 * n)) := by
  have hpow : 256 ^ n = 2 ^ (8 * n) := (pow_mul 2 8 n).symm
  have hnonneg : 0 ≤ a % 2 ^ (8 * n) := Int.emod_nonneg _ (by positivity)
  rw [loadField_storeField, hpow, toNat_ofInt_mod (by omega), ← BitVec.ofInt_natCast,
    Int.toNat_of_nonneg hnonneg]

theorem stores_bytes_iff (hn : n ≤ 4) (h : (bytesField n).Represents a) :
    (bytesField n).Stores mem (storeField .little n mem loc (BitVec.ofInt 64 a).toNat) loc
      (fun mem => BitVec.ofNat 64 (loadField .little n mem loc)) a ↔ 0 ≤ a := by
  obtain ⟨-, hlow, hhigh⟩ := h.bounds
  have hlow' : -2 ^ (8 * n - 1) ≤ a := hlow
  have hhigh' : a < 2 ^ (8 * n - 1) := hhigh
  have hpow : (2 : ℤ) ^ (8 * n - 1) ≤ 2 ^ 32 := pow_le_pow_right₀ (by decide) (by omega)
  have hpow' : (2 : ℤ) ^ (8 * n - 1) ≤ 2 ^ (8 * n) := pow_le_pow_right₀ (by decide) (by omega)
  have hpow'' : (2 : ℤ) ^ (8 * n) ≤ 2 ^ 32 := pow_le_pow_right₀ (by decide) (by omega)
  have hnonneg : 0 ≤ a % 2 ^ (8 * n) := Int.emod_nonneg _ (by positivity)
  have hlt : a % 2 ^ (8 * n) < 2 ^ (8 * n) := Int.emod_lt_of_pos _ (by positivity)
  constructor
  · intro hstores
    have hread := congrArg BitVec.toInt ((ofNat_loadField hn mem loc a).symm.trans hstores.read_eq)
    rw [toInt_ofInt_of_fits (by decide : 62 ≤ 63) (by omega) (by omega),
      toInt_ofInt_of_fits (by decide : 62 ≤ 63) (by omega) (by omega)] at hread
    omega
  · intro hpos
    refine ⟨?_, fun k hk => SignedField.memBit_storeField (List.mem_singleton_self _) hk _⟩
    rw [ofNat_loadField hn, Int.emod_eq_of_lt hpos (by omega)]

end Bytes

namespace I386RelType

theorem size_le (rType : I386RelType) : rType.size ≤ 4 := by
  cases rType <;> simp [size]

theorem getAddend_eq (rType : I386RelType) (mem : Memory) (loc : ℕ) :
    rType.getAddend mem loc = BitVec.ofNat 64 (loadField .little rType.size mem loc) := by
  cases rType <;> rfl

theorem writeAddend_eq {rType : I386RelType} (h : rType.size ≠ 0) (mem : Memory) (loc : ℕ)
    (val : BitVec 64) :
    rType.writeAddend mem loc val = some (storeField .little rType.size mem loc val.toNat) := by
  cases rType <;>
    first
      | rfl
      | exact absurd rfl h

theorem field_eq_some {rType : I386RelType} {f : SignedField} (hf : rType.field = some f) :
    rType.size ≠ 0 ∧ f = bytesField rType.size := by
  rw [field] at hf
  split at hf
  case isTrue => cases hf
  case isFalse h => exact ⟨h, (Option.some_inj.mp hf).symm⟩

end I386RelType

namespace Reloc

theorem exists_stores_iff {r : Reloc} {f : SignedField} (hf : r.field = some f) {a : ℤ}
    (h : f.Represents a) (mem : Memory) (loc : ℕ) :
    (∃ mem', r.writeAddend mem loc (BitVec.ofInt 64 a) = some mem' ∧
      f.Stores mem mem' loc (fun mem => r.getAddend mem loc) a) ↔ r.Meets a := by
  cases r with
  | arm32 rType =>
    refine ⟨?_, fun hne => Arm32.exists_stores hf hne h mem loc⟩
    rintro ⟨mem', hwrite, -⟩ rfl
    cases hwrite
  | i386 rType =>
    obtain ⟨hsize, rfl⟩ := rType.field_eq_some hf
    simp only [writeAddend, getAddend, rType.writeAddend_eq hsize, rType.getAddend_eq,
      Option.some.injEq, exists_eq_left', stores_bytes_iff rType.size_le h, Meets]

/-- Addends of all types and all sizes are read back exactly if the type is written too and the
number has no sign that is lost. -/
theorem roundTrips_iff {r : Reloc} {f : SignedField} (hf : r.field = some f) {a : ℤ}
    (h : f.Represents a) (mem : Memory) (loc : ℕ) : r.RoundTrips f mem loc a ↔ r.Meets a := by
  rw [← exists_stores_iff hf h mem loc]
  constructor
  · rintro ⟨mem', hwrite, hstores, -⟩
    exact ⟨mem', hwrite, hstores⟩
  · rintro ⟨mem', hwrite, hstores⟩
    have hmeets := (exists_stores_iff hf h mem loc).mp ⟨mem', hwrite, hstores⟩
    refine ⟨mem', hwrite, hstores, fun S P => ?_, fun offset hoffset => ?_⟩
    · rw [value, hstores.read_eq]
    · have hsum : BitVec.ofInt 64 a + BitVec.ofNat 64 offset = BitVec.ofInt 64 (a + offset) := by
        rw [BitVec.ofInt_add, BitVec.ofInt_natCast]
      rw [copyBuf, hstores.read_eq, hsum]
      exact (exists_stores_iff hf hoffset mem' loc).mpr (hmeets.add_offset offset)

/-- A branch back by four bytes. -/
theorem roundTrips_thmCall :
    (arm32 .thmCall).RoundTrips Arm32.thmBranchField (fun _ => 0) 0 (-4) ↔
      (arm32 .thmCall).Meets (-4) :=
  roundTrips_iff rfl ⟨-2, rfl, by decide, by decide⟩ (fun _ => 0) 0

/-- The addend -1 of `R_386_PC8` is read as 255. -/
theorem not_roundTrips_pc8 : ¬∀ (r : Reloc) (f : SignedField), r.field = some f →
    ∀ a, f.Represents a → ∀ (mem : Memory) (loc : ℕ), r.RoundTrips f mem loc a := by
  intro h
  obtain ⟨mem', hwrite, hstores, -⟩ :=
    h (i386 .pc8) (bytesField 1) rfl (-1) ⟨-1, rfl, by decide, by decide⟩ (fun _ => 0) 0
  obtain rfl := Option.some_inj.mp hwrite
  exact absurd hstores.read_eq (by decide)

end Reloc

end Mold.Elf.InPlaceAddends
