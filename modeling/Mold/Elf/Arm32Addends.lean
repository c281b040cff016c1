import Mold.Elf.RiscvImmediates
import Mold.Lib.StoredBits

/-!
# Addends in ARM32 instructions

`get_addend` and `write_addend` of `arch-arm32.cc`.  A relocation has its addend in the place
that it relocates, as a number of 32 bits or as the immediate of an instruction.  Thumb
branches hold two bits of the displacement xor'ed with its sign.

`get_addend` knows one type that `write_addend` does not.
-/

namespace Mold.Elf.Arm32

open Mold.Lib Mold.Lib.BitScatter
open Mold.Elf.Riscv (bit bits)

/-- The types with an addend, `R_ARM_NONE`, and all others. -/
inductive RelType where
  | none
  | abs32
  | rel32
  | target1
  | basePrel
  | gotoff32
  | gotPrel
  | gotBrel
  | tlsGd32
  | tlsLdm32
  | tlsLdo32
  | tlsIe32
  | tlsLe32
  | tlsGotdesc
  | target2
  | thmJump11
  | thmCall
  | thmJump24
  | thmTlsCall
  | call
  | jump24
  | plt32
  | tlsCall
  | movwPrelNc
  | movwAbsNc
  | movtPrel
  | movtAbs
  | prel31
  | thmMovwPrelNc
  | thmMovwAbsNc
  | thmMovtPrel
  | thmMovtAbs
  | other (rType : ℕ)
  deriving DecidableEq

def ul16 (mem : Memory) (loc : ℕ) : ℕ := loadField .little 2 mem loc

def ul32 (mem : Memory) (loc : ℕ) : ℕ := loadField .little 4 mem loc

def il32 (mem : Memory) (loc : ℕ) : BitVec 64 :=
  (BitVec.ofNat 32 (ul32 mem loc)).signExtend 64

def lnot (x : ℕ) : ℕ := if x = 0 then 1 else 0

def readThmBImm (mem : Memory) (loc : ℕ) : BitVec 64 :=
  let S := bit (ul16 mem loc) 10
  let J1 := bit (ul16 mem (loc + 2)) 13
  let J2 := bit (ul16 mem (loc + 2)) 11
  let I1 := lnot (J1 ^^^ S)
  let I2 := lnot (J2 ^^^ S)
  let imm10 := bits (ul16 mem loc) 9 0
  let imm11 := bits (ul16 mem (loc + 2)) 10 0
  let val := S <<< 24 ||| I1 <<< 23 ||| I2 <<< 22 ||| imm10 <<< 12 ||| imm11 <<< 1
  signExtend (BitVec.ofNat 64 val) 24

/-- The immediate of `movw` or `movt`. -/
def readMovImm (mem : Memory) (loc : ℕ) : BitVec 64 :=
  let imm12 := bits (ul32 mem loc) 11 0
  let imm4 := bits (ul32 mem loc) 19 16
  signExtend (BitVec.ofNat 64 (imm4 <<< 12 ||| imm12)) 15

/-- The immediate of a Thumb `movw` or `movt`. -/
def readThmMovImm (mem : Memory) (loc : ℕ) : BitVec 64 :=
  let imm4 := bits (ul16 mem loc) 3 0
  let i := bit (ul16 mem loc) 10
  let imm3 := bits (ul16 mem (loc + 2)) 14 12
  let imm8 := bits (ul16 mem (loc + 2)) 7 0
  let val := imm4 <<< 12 ||| i <<< 11 ||| imm3 <<< 8 ||| imm8
  signExtend (BitVec.ofNat 64 val) 15

def getAddend (mem : Memory) (loc : ℕ) : RelType → BitVec 64
  | .abs32 | .rel32 | .target1 | .basePrel | .gotoff32 | .gotPrel | .gotBrel | .tlsGd32
  | .tlsLdm32 | .tlsLdo32 | .tlsIe32 | .tlsLe32 | .tlsGotdesc | .target2 => il32 mem loc
  | .thmJump11 => signExtend (BitVec.ofNat 64 (ul16 mem loc)) 10 <<< 1
  | .thmCall | .thmJump24 | .thmTlsCall => readThmBImm mem loc
  | .call | .jump24 | .plt32 | .tlsCall =>
    signExtend (BitVec.ofNat 64 (ul32 mem loc)) 23 <<< 2
  | .movwPrelNc | .movwAbsNc | .movtPrel | .movtAbs => readMovImm mem loc
  | .prel31 => signExtend (BitVec.ofNat 64 (ul32 mem loc)) 30
  | .thmMovwPrelNc | .thmMovwAbsNc | .thmMovtPrel | .thmMovtAbs => readThmMovImm mem loc
  | .none | .other _ => 0

def writeMovImm (mem : Memory) (loc val : ℕ) : Memory :=
  let imm12 := bits val 11 0
  let imm4 := bits val 15 12
  storeField .little 4 mem loc ((ul32 mem loc &&& 0xFFF0F000) ||| imm4 <<< 16 ||| imm12)

/-- `write_thm_b_imm` -/
def writeThmBImm (mem : Memory) (loc val : ℕ) : Memory :=
  let sign := bit val 24
  let I1 := bit val 23
  let I2 := bit val 22
  let J1 := lnot I1 ^^^ sign
  let J2 := lnot I2 ^^^ sign
  let imm10 := bits val 21 12
  let imm11 := bits val 11 1
  let mem := storeField .little 2 mem loc
    ((ul16 mem loc &&& 0b1111100000000000) ||| sign <<< 10 ||| imm10)
  storeField .little 2 mem (loc + 2)
    ((ul16 mem (loc + 2) &&& 0b1101000000000000) ||| J1 <<< 13 ||| J2 <<< 11 ||| imm11)

def writeThmMovImm (mem : Memory) (loc val : ℕ) : Memory :=
  let imm4 := bits val 15 12
  let i := bit val 11
  let imm3 := bits val 10 8
  let imm8 := bits val 7 0
  let mem := storeField .little 2 mem loc
    ((ul16 mem loc &&& 0b1111101111110000) ||| i <<< 10 ||| imm4)
  storeField .little 2 mem (loc + 2)
    ((ul16 mem (loc + 2) &&& 0b1000111100000000) ||| imm3 <<< 12 ||| imm8)

/-- A value that is passed as `u32`. -/
def u32 (val : BitVec 64) : ℕ := val.toNat % 2 ^ 32

/-- `write_addend`.  The result is `none` where `unreachable` is called. -/
def writeAddend (mem : Memory) (loc : ℕ) (val : BitVec 64) : RelType → Option Memory
  | .none => some mem
  | .abs32 | .rel32 | .target1 | .basePrel | .gotoff32 | .gotPrel | .gotBrel | .tlsGd32
  | .tlsLdm32 | .tlsLdo32 | .tlsIe32 | .tlsLe32 | .tlsGotdesc | .target2 =>
    some (storeField .little 4 mem loc (u32 val))
  | .thmJump11 =>
    some (storeField .little 2 mem loc ((ul16 mem loc &&& 0xF800) ||| bits val.toNat 11 1))
  | .thmCall | .thmJump24 | .thmTlsCall => some (writeThmBImm mem loc (u32 val))
  | .call | .jump24 | .plt32 =>
    some (storeField .little 4 mem loc ((ul32 mem loc &&& 0xFF000000) ||| bits val.toNat 25 2))
  | .movwPrelNc | .movwAbsNc | .movtPrel | .movtAbs => some (writeMovImm mem loc (u32 val))
  | .prel31 =>
    some (storeField .little 4 mem loc
      ((ul32 mem loc &&& 0x80000000) ||| (val.toNat &&& 0x7FFFFFFF)))
  | .thmMovwPrelNc | .thmMovwAbsNc | .thmMovtPrel | .thmMovtAbs =>
    some (writeThmMovImm mem loc (u32 val))
  | .tlsCall | .other _ => Option.none

/-! ## Fields -/

def wordField : SignedField := ⟨[(0, 32)], 0, 32⟩

def thmJump11Field : SignedField := ⟨[(0, 11)], 1, 11⟩

def thmBranchField : SignedField := ⟨[(0, 10), (10, 1), (16, 11), (27, 1), (29, 1)], 1, 24⟩

def branchField : SignedField := ⟨[(0, 24)], 2, 24⟩

def movField : SignedField := ⟨[(0, 12), (16, 4)], 0, 16⟩

def prel31Field : SignedField := ⟨[(0, 31)], 0, 31⟩

def thmMovField : SignedField := ⟨[(0, 4), (10, 1), (16, 8), (28, 3)], 0, 16⟩

/-- The field of a relocation whose addend `get_addend` reads. -/
def RelType.field : RelType → Option SignedField
  | .abs32 | .rel32 | .target1 | .basePrel | .gotoff32 | .gotPrel | .gotBrel | .tlsGd32
  | .tlsLdm32 | .tlsLdo32 | .tlsIe32 | .tlsLe32 | .tlsGotdesc | .target2 => some wordField
  | .thmJump11 => some thmJump11Field
  | .thmCall | .thmJump24 | .thmTlsCall => some thmBranchField
  | .call | .jump24 | .plt32 | .tlsCall => some branchField
  | .movwPrelNc | .movwAbsNc | .movtPrel | .movtAbs => some movField
  | .prel31 => some prel31Field
  | .thmMovwPrelNc | .thmMovwAbsNc | .thmMovtPrel | .thmMovtAbs => some thmMovField
  | .none | .other _ => Option.none

/-! ## Bits and pieces -/

theorem bits_eq_run {val hi lo width : ℕ} (h : hi - lo + 1 = width) :
    bits val hi lo = run val lo width := by
  rw [bits, h, Nat.one_shiftLeft, run]

theorem bits_eq_div (v hi lo : ℕ) : bits v hi lo = v / 2 ^ lo % 2 ^ (hi - lo + 1) := by
  rw [bits_eq_run rfl, run_eq]

theorem bit_eq (val pos : ℕ) : bit val pos = (val.testBit pos).toNat := by
  rw [Nat.toNat_testBit, bit, Nat.and_one_is_mod, Nat.shiftRight_eq_div_pow]

theorem bit_eq_run (val pos : ℕ) : bit val pos = run val pos 1 := rfl

/-- `J1` and `J2` of a Thumb branch in the places of `I1` and `I2`. -/
def xorSign (val : ℕ) : ℕ := if val.testBit 24 then val else val ^^^ (2 ^ 2 - 1) <<< 22

theorem testBit_xorSign (val i : ℕ) :
    (xorSign val).testBit i =
      if i = 22 ∨ i = 23 then !(val.testBit i ^^ val.testBit 24) else val.testBit i := by
  rw [xorSign]
  split
  case isTrue h =>
    rw [h, Bool.xor_true, Bool.not_not, ite_self]
  case isFalse h =>
    have hrange : (decide (22 ≤ i) && decide (i - 22 < 2)) = decide (i = 22 ∨ i = 23) := by
      rw [← Bool.decide_and]
      exact decide_eq_decide.mpr (by omega)
    rw [Nat.testBit_xor, Nat.testBit_shiftLeft, Nat.testBit_two_pow_sub_one, hrange,
      Bool.eq_false_iff.mpr h, Bool.xor_false]
    by_cases hi : i = 22 ∨ i = 23
    · rw [decide_eq_true hi, Bool.xor_true, if_pos hi]
    · rw [decide_eq_false hi, Bool.xor_false, if_neg hi]

theorem run_xorSign {low width : ℕ} (h : low + width ≤ 22 ∨ 24 ≤ low) (val : ℕ) :
    run (xorSign val) low width = run val low width := by
  apply Nat.eq_of_testBit_eq
  intro i
  rw [testBit_run, testBit_run, testBit_xorSign]
  by_cases hi : i < width
  · rw [if_neg (by omega)]
  · rw [decide_eq_false hi, Bool.false_and, Bool.false_and]

theorem lnot_toNat (b : Bool) : lnot b.toNat = (!b).toNat := by
  cases b <;> rfl

theorem toNat_xor (b c : Bool) : b.toNat ^^^ c.toNat = (b ^^ c).toNat := by
  cases b <;> cases c <;> rfl

theorem lnot_xor_sign {val pos : ℕ} (h : pos = 22 ∨ pos = 23) :
    lnot (bit val pos) ^^^ bit val 24 = bit (xorSign val) pos := by
  rw [bit_eq, bit_eq, bit_eq, lnot_toNat, toNat_xor, testBit_xorSign, if_pos h, Bool.not_xor]

theorem lnot_xor_xorSign {val pos : ℕ} (h : pos = 22 ∨ pos = 23) :
    lnot (bit (xorSign val) pos ^^^ bit val 24) = bit val pos := by
  rw [← lnot_xor_sign h, bit_eq, bit_eq, lnot_toNat, toNat_xor, toNat_xor, lnot_toNat,
    Bool.xor_assoc, Bool.xor_self, Bool.xor_false, Bool.not_not]

/-! ## Layouts of the immediates -/

def movPieces : List Piece := [⟨12, 16, 4⟩, ⟨0, 0, 12⟩]

def thmBranchUpper : List Piece := [⟨24, 10, 1⟩, ⟨12, 0, 10⟩]

def thmBranchLower : List Piece := [⟨23, 13, 1⟩, ⟨22, 11, 1⟩, ⟨1, 0, 11⟩]

def thmMovUpper : List Piece := [⟨11, 10, 1⟩, ⟨12, 0, 4⟩]

def thmMovLower : List Piece := [⟨8, 12, 3⟩, ⟨0, 0, 8⟩]

section Write

variable (mem : Memory) (loc val : ℕ)

theorem writeMovImm_eq :
    writeMovImm mem loc val = patchField 4 0xFFF0F000 movPieces mem loc val := by
  simp only [writeMovImm, patchField, patch, movPieces, scatter, Nat.shiftLeft_zero,
    Nat.or_zero, Nat.or_assoc]
  rfl

theorem writeThmMovImm_eq :
    writeThmMovImm mem loc val =
      patchField 2 0b1000111100000000 thmMovLower
        (patchField 2 0b1111101111110000 thmMovUpper mem loc val) (loc + 2) val := by
  simp only [writeThmMovImm, patchField, patch, thmMovUpper, thmMovLower, scatter,
    Nat.shiftLeft_zero, Nat.or_zero, Nat.or_assoc]
  rfl

theorem writeThmBImm_eq :
    writeThmBImm mem loc val =
      patchField 2 0b1101000000000000 thmBranchLower
        (patchField 2 0b1111100000000000 thmBranchUpper mem loc (xorSign val)) (loc + 2)
        (xorSign val) := by
  have hsign : run (xorSign val) 24 1 = bit val 24 := run_xorSign (.inr (Nat.le_refl _)) val
  have hJ1 : run (xorSign val) 23 1 = lnot (bit val 23) ^^^ bit val 24 :=
    (lnot_xor_sign (.inr rfl)).symm
  have hJ2 : run (xorSign val) 22 1 = lnot (bit val 22) ^^^ bit val 24 :=
    (lnot_xor_sign (.inl rfl)).symm
  simp only [writeThmBImm, patchField, patch, thmBranchUpper, thmBranchLower, scatter,
    Nat.shiftLeft_zero, Nat.or_zero, Nat.or_assoc, hsign, hJ1, hJ2,
    run_xorSign (.inl (by decide : 12 + 10 ≤ 22)) val,
    run_xorSign (.inl (by decide : 1 + 11 ≤ 22)) val]
  rfl

end Write

/-! ## Two halves of an instruction -/

def patchHalves (keepUpper : ℕ) (upper : List Piece) (keepLower : ℕ) (lower : List Piece)
    (mem : Memory) (loc val : ℕ) : Memory :=
  patchField 2 keepLower lower (patchField 2 keepUpper upper mem loc val) (loc + 2) val

section Halves

variable {keepUpper keepLower : ℕ} {upper lower : List Piece} {mem : Memory} {loc : ℕ}
  {f : SignedField}

theorem run_upper (hkeep : keepUpper ||| mask upper = 2 ^ (8 * 2) - 1)
    (hclear : keepUpper &&& mask upper = 0) (hapart : Apart upper) (val : ℕ) {p : Piece}
    (hp : p ∈ upper) :
    run (ul16 (patchHalves keepUpper upper keepLower lower mem loc val) loc) p.dst p.width =
      run val p.src p.width := by
  rw [ul16, patchHalves, patchField, loadField_storeField_of_apart _ (.inr (Nat.le_refl _)),
    loadField_patchField hkeep, run_patch hapart hclear hp]

theorem run_lower (hkeep : keepLower ||| mask lower = 2 ^ (8 * 2) - 1)
    (hclear : keepLower &&& mask lower = 0) (hapart : Apart lower) (val : ℕ) {p : Piece}
    (hp : p ∈ lower) :
    run (ul16 (patchHalves keepUpper upper keepLower lower mem loc val) (loc + 2)) p.dst p.width =
      run val p.src p.width := by
  rw [ul16, patchHalves, loadField_patchField hkeep, run_patch hapart hclear hp]

theorem memBit_patchHalves (hkeepUpper : keepUpper ||| mask upper = 2 ^ (8 * 2) - 1)
    (hkeepLower : keepLower ||| mask lower = 2 ^ (8 * 2) - 1)
    (hupper : ∀ p ∈ upper, (8 * 0 + p.dst, p.width) ∈ f.runs)
    (hlower : ∀ p ∈ lower, (8 * 2 + p.dst, p.width) ∈ f.runs) {k : ℕ} (hk : ¬f.Has loc k)
    (val : ℕ) :
    memBit (patchHalves keepUpper upper keepLower lower mem loc val) k = memBit mem k := by
  rw [patchHalves, SignedField.memBit_patchField 2 hkeepLower hlower hk]
  exact SignedField.memBit_patchField 0 hkeepUpper hupper hk val

end Halves

section Stores

variable {mem : Memory} {loc : ℕ} {a : ℤ}

theorem u32_ofInt_mod {m : ℕ} (h : m ≤ 32) (a : ℤ) :
    u32 (BitVec.ofInt 64 a) % 2 ^ m = (a % 2 ^ m).toNat := by
  rw [u32, Nat.mod_mod_of_dvd _ (Nat.pow_dvd_pow 2 h), toNat_ofInt_mod (by omega)]

theorem stores_word (h : wordField.Represents a) :
    wordField.Stores mem (storeField .little 4 mem loc (u32 (BitVec.ofInt 64 a))) loc
      (il32 · loc) a := by
  obtain ⟨-, hlow, hhigh⟩ := h.bounds
  have hlow' : -2 ^ 31 ≤ a := hlow
  have hhigh' : a < 2 ^ 31 := hhigh
  refine ⟨?_, fun k hk => ?_⟩
  · have hword : BitVec.ofNat 32
        (ul32 (storeField .little 4 mem loc (u32 (BitVec.ofInt 64 a))) loc) =
          BitVec.ofInt 32 a := by
      apply BitVec.eq_of_toNat_eq
      rw [BitVec.toNat_ofNat, ul32, loadField_storeField, BitVec.toNat_ofInt]
      exact (Nat.mod_mod _ _).trans (u32_ofInt_mod (Nat.le_refl _) a)
    apply BitVec.eq_of_toInt_eq
    dsimp only [il32]
    rw [hword, BitVec.toInt_signExtend_of_le (by decide), BitVec.toInt_ofInt, BitVec.toInt_ofInt,
      Int.bmod_eq_of_le hlow' hhigh', Int.bmod_eq_of_le (by omega) (by omega)]
  · exact SignedField.memBit_storeField (List.mem_singleton_self _) hk _

theorem signExtend_pieces {f : SignedField} (h : f.Represents a) (ps : List Piece) {size val : ℕ}
    (hsize : size = f.width - 1 + f.scale) (h32 : size < 32) (hfixed : ∀ p ∈ ps, p.dst = p.src)
    (hcover : ∀ i, (∃ p ∈ ps, InRun p.src p.width i) ↔ f.scale ≤ i ∧ i < size + 1)
    (hval : gather ps (u32 (BitVec.ofInt 64 a)) = val) :
    signExtend (BitVec.ofNat 64 val) size = BitVec.ofInt 64 a := by
  obtain ⟨hdvd, hlow, hhigh⟩ := h.bounds
  rw [← hsize] at hlow hhigh
  rw [← hval]
  exact signExtend_gather hfixed hcover (by omega) (by omega) hdvd hlow hhigh (u32_ofInt_mod h32 a)

theorem stores_mov (h : movField.Represents a) :
    movField.Stores mem (writeMovImm mem loc (u32 (BitVec.ofInt 64 a))) loc
      (readMovImm · loc) a := by
  have hkeep : 0xFFF0F000 ||| mask movPieces = 2 ^ (8 * 4) - 1 := by decide
  have hread {p : Piece} (hp : p ∈ movPieces) (val : ℕ) :
      run (ul32 (writeMovImm mem loc val) loc) p.dst p.width = run val p.src p.width := by
    rw [ul32, writeMovImm_eq, loadField_patchField hkeep]
    exact run_patch (by decide) (by decide) hp _ _
  refine ⟨?_, fun k hk => ?_⟩
  · dsimp only [readMovImm]
    rw [bits_eq_run rfl, bits_eq_run rfl, hread (p := ⟨12, 16, 4⟩) (by simp [movPieces]),
      hread (p := ⟨0, 0, 12⟩) (by simp [movPieces])]
    refine signExtend_pieces h [⟨12, 12, 4⟩, ⟨0, 0, 12⟩] rfl (by decide) (by decide)
      (fun i => ?_) ?_
    · simp [InRun, movField]
      omega
    · simp only [gather, Nat.shiftLeft_zero, Nat.or_zero]
  · rw [writeMovImm_eq]
    exact SignedField.memBit_patchField 0 hkeep (by decide) hk _

theorem stores_thmMov (h : thmMovField.Represents a) :
    thmMovField.Stores mem (writeThmMovImm mem loc (u32 (BitVec.ofInt 64 a))) loc
      (readThmMovImm · loc) a := by
  have hkeepUpper : 0b1111101111110000 ||| mask thmMovUpper = 2 ^ (8 * 2) - 1 := by decide
  have hkeepLower : 0b1000111100000000 ||| mask thmMovLower = 2 ^ (8 * 2) - 1 := by decide
  have hwrite (val : ℕ) : writeThmMovImm mem loc val =
      patchHalves 0b1111101111110000 thmMovUpper 0b1000111100000000 thmMovLower mem loc val :=
    writeThmMovImm_eq mem loc val
  have hupper {p : Piece} (hp : p ∈ thmMovUpper) (val : ℕ) :
      run (ul16 (writeThmMovImm mem loc val) loc) p.dst p.width = run val p.src p.width := by
    rw [hwrite]
    exact run_upper hkeepUpper (by decide) (by decide) val hp
  have hlower {p : Piece} (hp : p ∈ thmMovLower) (val : ℕ) :
      run (ul16 (writeThmMovImm mem loc val) (loc + 2)) p.dst p.width = run val p.src p.width := by
    rw [hwrite]
    exact run_lower hkeepLower (by decide) (by decide) val hp
  refine ⟨?_, fun k hk => ?_⟩
  · dsimp only [readThmMovImm]
    rw [bits_eq_run rfl, bits_eq_run rfl, bits_eq_run rfl, bit_eq_run,
      hupper (p := ⟨12, 0, 4⟩) (by simp [thmMovUpper]),
      hupper (p := ⟨11, 10, 1⟩) (by simp [thmMovUpper]),
      hlower (p := ⟨8, 12, 3⟩) (by simp [thmMovLower]),
      hlower (p := ⟨0, 0, 8⟩) (by simp [thmMovLower])]
    refine signExtend_pieces h [⟨12, 12, 4⟩, ⟨11, 11, 1⟩, ⟨8, 8, 3⟩, ⟨0, 0, 8⟩] rfl (by decide)
      (by decide) (fun i => ?_) ?_
    · simp [InRun, thmMovField]
      omega
    · simp only [gather, Nat.shiftLeft_zero, Nat.or_zero, Nat.or_assoc]
  · rw [hwrite]
    exact memBit_patchHalves hkeepUpper hkeepLower (by decide) (by decide) hk _

theorem stores_thmBranch (h : thmBranchField.Represents a) :
    thmBranchField.Stores mem (writeThmBImm mem loc (u32 (BitVec.ofInt 64 a))) loc
      (readThmBImm · loc) a := by
  have hkeepUpper : 0b1111100000000000 ||| mask thmBranchUpper = 2 ^ (8 * 2) - 1 := by decide
  have hkeepLower : 0b1101000000000000 ||| mask thmBranchLower = 2 ^ (8 * 2) - 1 := by decide
  have hwrite (val : ℕ) : writeThmBImm mem loc val = patchHalves 0b1111100000000000
      thmBranchUpper 0b1101000000000000 thmBranchLower mem loc (xorSign val) :=
    writeThmBImm_eq mem loc val
  have hupper {p : Piece} (hp : p ∈ thmBranchUpper) (val : ℕ) :
      run (ul16 (writeThmBImm mem loc val) loc) p.dst p.width =
        run (xorSign val) p.src p.width := by
    rw [hwrite]
    exact run_upper hkeepUpper (by decide) (by decide) _ hp
  have hlower {p : Piece} (hp : p ∈ thmBranchLower) (val : ℕ) :
      run (ul16 (writeThmBImm mem loc val) (loc + 2)) p.dst p.width =
        run (xorSign val) p.src p.width := by
    rw [hwrite]
    exact run_lower hkeepLower (by decide) (by decide) _ hp
  refine ⟨?_, fun k hk => ?_⟩
  · dsimp only [readThmBImm]
    rw [bits_eq_run rfl, bits_eq_run rfl, bit_eq_run, bit_eq_run, bit_eq_run,
      hupper (p := ⟨24, 10, 1⟩) (by simp [thmBranchUpper]),
      hupper (p := ⟨12, 0, 10⟩) (by simp [thmBranchUpper]),
      hlower (p := ⟨23, 13, 1⟩) (by simp [thmBranchLower]),
      hlower (p := ⟨22, 11, 1⟩) (by simp [thmBranchLower]),
      hlower (p := ⟨1, 0, 11⟩) (by simp [thmBranchLower]),
      run_xorSign (.inr (Nat.le_refl _)), run_xorSign (.inl (by decide : 12 + 10 ≤ 22)),
      run_xorSign (.inl (by decide : 1 + 11 ≤ 22)), ← bit_eq_run, ← bit_eq_run, ← bit_eq_run,
      lnot_xor_xorSign (.inr rfl), lnot_xor_xorSign (.inl rfl)]
    refine signExtend_pieces h
      [⟨24, 24, 1⟩, ⟨23, 23, 1⟩, ⟨22, 22, 1⟩, ⟨12, 12, 10⟩, ⟨1, 1, 11⟩] rfl (by decide)
      (by decide) (fun i => ?_) ?_
    · simp [InRun, thmBranchField]
      omega
    · simp only [gather, Nat.or_zero, Nat.or_assoc, bit_eq_run]
  · rw [hwrite]
    exact memBit_patchHalves hkeepUpper hkeepLower (by decide) (by decide) hk _

theorem patchField_low (n keep scale width val : ℕ) :
    patchField n keep [⟨scale, 0, width⟩] mem loc val =
      storeField .little n mem loc
        ((loadField .little n mem loc &&& keep) ||| run val scale width) := by
  rw [patchField, patch, scatter, scatter, Nat.shiftLeft_zero, Nat.or_zero]

theorem stores_thmJump11 (h : thmJump11Field.Represents a) :
    thmJump11Field.Stores mem (storeField .little 2 mem loc
        ((ul16 mem loc &&& 0xF800) ||| bits (BitVec.ofInt 64 a).toNat 11 1)) loc
      (fun mem' => signExtend (BitVec.ofNat 64 (ul16 mem' loc)) 10 <<< 1) a := by
  rw [bits_eq_run rfl, ul16, ← patchField_low]
  exact SignedField.stores_low (by decide) (by decide) (by decide) (by decide) h

theorem stores_branch (h : branchField.Represents a) :
    branchField.Stores mem (storeField .little 4 mem loc
        ((ul32 mem loc &&& 0xFF000000) ||| bits (BitVec.ofInt 64 a).toNat 25 2)) loc
      (fun mem' => signExtend (BitVec.ofNat 64 (ul32 mem' loc)) 23 <<< 2) a := by
  rw [bits_eq_run rfl, ul32, ← patchField_low]
  exact SignedField.stores_low (by decide) (by decide) (by decide) (by decide) h

theorem stores_prel31 (h : prel31Field.Represents a) :
    prel31Field.Stores mem (storeField .little 4 mem loc
        ((ul32 mem loc &&& 0x80000000) ||| ((BitVec.ofInt 64 a).toNat &&& 0x7FFFFFFF))) loc
      (fun mem' => signExtend (BitVec.ofNat 64 (ul32 mem' loc)) 30) a := by
  have hrun : (BitVec.ofInt 64 a).toNat &&& 0x7FFFFFFF = run (BitVec.ofInt 64 a).toNat 0 31 := rfl
  have hlow : prel31Field.Stores mem
      (patchField 4 0x80000000 [⟨0, 0, 31⟩] mem loc (BitVec.ofInt 64 a).toNat) loc _ a :=
    SignedField.stores_low (by decide) (by decide) (by decide) (by decide) h
  rw [hrun, ul32, ← patchField_low]
  exact ⟨(BitVec.shiftLeft_zero _).symm.trans hlow.read_eq, hlow.others⟩

theorem exists_stores {rType : RelType} {f : SignedField} (hf : rType.field = some f)
    (hne : rType ≠ .tlsCall) (h : f.Represents a) (mem : Memory) (loc : ℕ) :
    ∃ mem', writeAddend mem loc (BitVec.ofInt 64 a) rType = some mem' ∧
      f.Stores mem mem' loc (getAddend · loc rType) a := by
  cases rType with
  | abs32 | rel32 | target1 | basePrel | gotoff32 | gotPrel | gotBrel | tlsGd32 | tlsLdm32
  | tlsLdo32 | tlsIe32 | tlsLe32 | tlsGotdesc | target2 =>
    obtain rfl := Option.some_inj.mp hf
    exact ⟨_, rfl, stores_word h⟩
  | thmJump11 =>
    obtain rfl := Option.some_inj.mp hf
    exact ⟨_, rfl, stores_thmJump11 h⟩
  | thmCall | thmJump24 | thmTlsCall =>
    obtain rfl := Option.some_inj.mp hf
    exact ⟨_, rfl, stores_thmBranch h⟩
  | call | jump24 | plt32 =>
    obtain rfl := Option.some_inj.mp hf
    exact ⟨_, rfl, stores_branch h⟩
  | movwPrelNc | movwAbsNc | movtPrel | movtAbs =>
    obtain rfl := Option.some_inj.mp hf
    exact ⟨_, rfl, stores_mov h⟩
  | prel31 =>
    obtain rfl := Option.some_inj.mp hf
    exact ⟨_, rfl, stores_prel31 h⟩
  | thmMovwPrelNc | thmMovwAbsNc | thmMovtPrel | thmMovtAbs =>
    obtain rfl := Option.some_inj.mp hf
    exact ⟨_, rfl, stores_thmMov h⟩
  | tlsCall => exact absurd rfl hne
  | none | other => cases hf

end Stores

end Mold.Elf.Arm32
