import Mathlib.Tactic.IntervalCases
import Mold.Lib.Displacement
import Mold.Lib.Rv64

/-!
# RISC-V immediates

`arch-riscv.cc` puts displacements and addresses into instructions.  Each case of
`apply_reloc_alloc` checks the range of a value before it writes it.

The checks compare the value with the bounds of a signed number of the width of the field,
so they let odd displacements pass, which no instruction has.  A pair of instructions holds
a number of 32 bits that is moved by `0x800`, and its check is not moved.  `set_rs1`
clears the sign bit of the immediate beside the register.
-/

namespace Mold.Elf.Riscv

open Mold.Lib Mold.Lib.Rv64 Mold.Lib.BitField Mold.Lib.BitScatter

/-! ## Fields -/

/-- `bit` of `common.h` -/
def bit (val pos : ℕ) : ℕ := (val >>> pos) &&& 1

/-- `bits` of `common.h` -/
def bits (val hi lo : ℕ) : ℕ := (val >>> lo) &&& (1 <<< (hi - lo + 1) - 1)

/-- A value that is converted to `u32`. -/
def u32 (val : ℤ) : ℕ := (val % 2 ^ 32).toNat

def itype (val : ℕ) : ℕ := (val <<< 20) % 2 ^ 32

def stype (val : ℕ) : ℕ := bits val 11 5 <<< 25 ||| bits val 4 0 <<< 7

def btype (val : ℕ) : ℕ :=
  bit val 12 <<< 31 ||| bits val 10 5 <<< 25 ||| bits val 4 1 <<< 8 ||| bit val 11 <<< 7

def utype (val : ℕ) : ℕ := ((val + 0x800) % 2 ^ 32) &&& 0xFFFFF000

def jtype (val : ℕ) : ℕ :=
  bit val 20 <<< 31 ||| bits val 10 1 <<< 21 ||| bit val 11 <<< 20 ||| bits val 19 12 <<< 12

def cbtype (val : ℕ) : ℕ :=
  bit val 8 <<< 12 ||| bit val 4 <<< 11 ||| bit val 3 <<< 10 ||| bit val 7 <<< 6 |||
    bit val 6 <<< 5 ||| bit val 2 <<< 4 ||| bit val 1 <<< 3 ||| bit val 5 <<< 2

def cjtype (val : ℕ) : ℕ :=
  bit val 11 <<< 12 ||| bit val 4 <<< 11 ||| bit val 9 <<< 10 ||| bit val 8 <<< 9 |||
    bit val 10 <<< 8 ||| bit val 6 <<< 7 ||| bit val 7 <<< 6 ||| bit val 3 <<< 5 |||
    bit val 2 <<< 4 ||| bit val 1 <<< 3 ||| bit val 5 <<< 2

def writeItype (loc val : ℕ) : ℕ :=
  (loc &&& 0b000000_00000_11111_111_11111_1111111) ||| itype val

def writeStype (loc val : ℕ) : ℕ :=
  (loc &&& 0b000000_11111_11111_111_00000_1111111) ||| stype val

def writeBtype (loc val : ℕ) : ℕ :=
  (loc &&& 0b000000_11111_11111_111_00000_1111111) ||| btype val

def writeUtype (loc val : ℕ) : ℕ :=
  (loc &&& 0b000000_00000_00000_000_11111_1111111) ||| utype val

def writeJtype (loc val : ℕ) : ℕ :=
  (loc &&& 0b000000_00000_00000_000_11111_1111111) ||| jtype val

def writeCbtype (loc val : ℕ) : ℕ := (loc &&& 0b111_000_111_00000_11) ||| cbtype val

def writeCjtype (loc val : ℕ) : ℕ := (loc &&& 0b111_00000000000_11) ||| cjtype val

def setRs1 (loc rs1 : ℕ) : ℕ :=
  (loc &&& 0b111111_11111_00000_111_11111_1111111) ||| rs1 <<< 15

def isInt12 (val : ℤ) : Bool :=
  signExtend (BitVec.ofInt 64 val) 11 == BitVec.ofInt 64 val

/-! ## They are the immediates of the instruction set -/

theorem itype_eq (val : ℕ) : itype val = scatter immI val := by
  simp only [itype, scatter, immI, run, Nat.shiftRight_zero, Nat.or_zero]
  rw [Nat.and_two_pow_sub_one_eq_mod, Nat.shiftLeft_eq, Nat.shiftLeft_eq]
  omega

theorem utype_eq (val : ℕ) : utype val = scatter immU ((val + 0x800) % 2 ^ 32) := by
  simp only [utype, scatter, immU, run, Nat.or_zero]
  apply Nat.eq_of_testBit_eq
  intro i
  have hmask : (0xFFFFF000 : ℕ) = (2 ^ 20 - 1) <<< 12 := by decide
  rw [hmask, Nat.testBit_and, Nat.testBit_shiftLeft, Nat.testBit_shiftLeft, Nat.testBit_and,
    Nat.testBit_shiftRight, Nat.testBit_two_pow_sub_one]
  by_cases hi : 12 ≤ i
  · rw [Nat.add_sub_cancel' hi]
    simp [hi]
  · simp [hi]

theorem stype_eq (val : ℕ) : stype val = scatter immS val := by
  simp only [stype, scatter, immS, run, bits, Nat.or_zero]
  rfl

theorem btype_eq (val : ℕ) : btype val = scatter immB val := by
  simp only [btype, scatter, immB, run, bit, bits, Nat.or_zero, Nat.or_assoc]
  rfl

theorem jtype_eq (val : ℕ) : jtype val = scatter immJ val := by
  simp only [jtype, scatter, immJ, run, bit, bits, Nat.or_zero, Nat.or_assoc]
  rfl

theorem cbtype_eq (val : ℕ) : cbtype val = scatter immCB val := by
  simp only [cbtype, scatter, immCB, run, bit, Nat.or_zero, Nat.or_assoc]
  rfl

theorem cjtype_eq (val : ℕ) : cjtype val = scatter immCJ val := by
  simp only [cjtype, scatter, immCJ, run, bit, Nat.or_zero, Nat.or_assoc]
  rfl

/-! ## Relocated places -/

/-- A place whose relocation has its range checked: a branch or a jump, or the first and the
second instruction of a pair that is connected by a register. -/
inductive Site where
  | branch (loc : ℕ) (hloc : opcode loc = 0x63)
  | jal (loc : ℕ) (hloc : opcode loc = 0x6F)
  | call (loc next : ℕ) (hloc : opcode loc = 0x17)
      (hnext : opcode next = 0x67 ∧ funct3 next = 0) (hreg : rs1 next = rd loc ∧ rd loc ≠ 0)
  | rvcBranch (loc : ℕ) (hloc : opcode16 loc = 1)
      (hfunct : funct3of16 loc = 6 ∨ funct3of16 loc = 7)
  | rvcJump (loc : ℕ) (hloc : opcode16 loc = 1) (hfunct : funct3of16 loc = 5)
  | hi20I (loc next : ℕ) (hloc : opcode loc = 0x37) (hnext : IsItype next)
      (hreg : rs1 next = rd loc ∧ rd loc ≠ 0)
  | hi20S (loc next : ℕ) (hloc : opcode loc = 0x37) (hnext : IsStype next)
      (hreg : rs1 next = rd loc ∧ rd loc ≠ 0)

/-- The lambda `check` of `apply_reloc_alloc` reports no error. -/
def Check (val lo hi : ℤ) : Prop := lo ≤ val ∧ val < hi

def Site.Check (site : Site) (val : ℤ) : Prop :=
  match site with
  | .branch .. => Riscv.Check val (-2 ^ 12) (2 ^ 12)
  | .jal .. => Riscv.Check val (-2 ^ 20) (2 ^ 20)
  | .call .. => Riscv.Check val (-2 ^ 31) (2 ^ 31)
  | .rvcBranch .. => Riscv.Check val (-2 ^ 8) (2 ^ 8)
  | .rvcJump .. => Riscv.Check val (-2 ^ 11) (2 ^ 11)
  | .hi20I .. | .hi20S .. => Riscv.Check val (-2 ^ 31) (2 ^ 31)

/-- The case of `R_RISCV_LO12_I`. -/
def lo12I (loc : ℕ) (val : ℤ) : ℕ :=
  let loc := writeItype loc (u32 val)
  if isInt12 val then setRs1 loc 0 else loc

/-- The case of `R_RISCV_LO12_S`. -/
def lo12S (loc : ℕ) (val : ℤ) : ℕ :=
  let loc := writeStype loc (u32 val)
  if isInt12 val then setRs1 loc 0 else loc

/-- The base register that is left in the second instruction of a pair. -/
def baseOf (next : ℕ) (val : ℤ) : ℕ := if isInt12 val then 0 else rs1 next

/-- The instructions that are written have the opcodes and registers that were there, and
together they compute the value, or the address that lies so far from the first one.  A
second instruction of a pair uses register 0 if the value is a number of twelve bits. -/
def Site.Yields (site : Site) (val : ℤ) : Prop :=
  match site with
  | .branch loc _ => ∃ imm,
      decode (writeBtype loc (u32 val)) = some (.branch (funct3 loc) (rs1 loc) (rs2 loc) imm) ∧
        ∀ s : State, (Instr.branch (funct3 loc) (rs1 loc) (rs2 loc) imm).result s =
          s.pc + BitVec.ofInt 64 val
  | .jal loc _ => ∃ imm,
      decode (writeJtype loc (u32 val)) = some (.jal (rd loc) imm) ∧
        ∀ s : State, (Instr.jal (rd loc) imm).result s = s.pc + BitVec.ofInt 64 val
  | .call loc next _ _ _ => ∃ hi lo,
      decode (writeUtype loc (u32 val)) = some (.auipc (rd loc) hi) ∧
        decode (writeItype next (u32 val)) = some (.jalr (rd next) (rs1 next) lo) ∧
        ∀ s : State,
          pairResult s (rd loc) (.auipc (rd loc) hi) (.jalr (rd next) (rs1 next) lo) =
            s.pc + BitVec.ofInt 64 val
  | .rvcBranch loc _ _ => ∃ imm,
      decode16 (writeCbtype loc (u32 val)) = some (.cbranch (funct3of16 loc) (rs1of16 loc) imm) ∧
        ∀ s : State, (CInstr.cbranch (funct3of16 loc) (rs1of16 loc) imm).result s =
          s.pc + BitVec.ofInt 64 val
  | .rvcJump loc _ _ => ∃ imm,
      decode16 (writeCjtype loc (u32 val)) = some (.cj imm) ∧
        ∀ s : State, (CInstr.cj imm).result s = s.pc + BitVec.ofInt 64 val
  | .hi20I loc next _ _ _ => ∃ hi lo,
      decode (writeUtype loc (u32 val)) = some (.lui (rd loc) hi) ∧
        decode (lo12I next val) =
          some (.itype (opcode next) (funct3 next) (rd next) (baseOf next val) lo) ∧
        ∀ s : State,
          pairResult s (rd loc) (.lui (rd loc) hi)
              (.itype (opcode next) (funct3 next) (rd next) (baseOf next val) lo) =
            BitVec.ofInt 64 val
  | .hi20S loc next _ _ _ => ∃ hi lo,
      decode (writeUtype loc (u32 val)) = some (.lui (rd loc) hi) ∧
        decode (lo12S next val) =
          some (.stype (opcode next) (funct3 next) (baseOf next val) (rs2 next) lo) ∧
        ∀ s : State,
          pairResult s (rd loc) (.lui (rd loc) hi)
              (.stype (opcode next) (funct3 next) (baseOf next val) (rs2 next) lo) =
            BitVec.ofInt 64 val

/-- The values that can be written: displacements of jumps are even, a pair reaches `0x800`
less far up, and no negative number of twelve bits survives `set_rs1`. -/
def Site.Encodable (site : Site) (val : ℤ) : Prop :=
  match site with
  | .branch .. | .jal .. | .rvcBranch .. | .rvcJump .. => 2 ∣ val
  | .call .. => 2 ∣ val ∧ val < 2 ^ 31 - 2 ^ 11
  | .hi20I .. | .hi20S .. => val < 2 ^ 31 - 2 ^ 11 ∧ ¬(-2 ^ 11 ≤ val ∧ val < 0)

/-! ## Numbers -/

variable {width : ℕ}

theorem u32_emod (h : width ≤ 32) (val : ℤ) : u32 val % 2 ^ width = (val % 2 ^ width).toNat :=
  toNat_emod_mod h val

theorem toSigned_even_iff (hwidth : 1 < width) (h32 : width ≤ 32) {val : ℤ}
    (hlow : -2 ^ (width - 1) ≤ val) (hhigh : val < 2 ^ (width - 1)) :
    toSigned width (u32 val % 2 ^ width / 2 ^ 1 * 2 ^ 1) = val ↔ 2 ∣ val := by
  obtain ⟨n, rfl⟩ : ∃ n, width = n + 2 := ⟨width - 2, by omega⟩
  have hval := toSigned_emod (by omega) hlow hhigh
  rw [u32_emod h32]
  have hpow : (2 : ℤ) ^ (n + 2) = 4 * 2 ^ n := by rw [pow_add]; ring
  have hpow' : (2 : ℕ) ^ (n + 2) = 4 * 2 ^ n := by rw [pow_add]; ring
  have heven : 2 ∣ val ↔ 2 ∣ (val % 2 ^ (n + 2)).toNat := by
    have hnonneg := Int.emod_nonneg val (show (2 : ℤ) ^ (n + 2) ≠ 0 by positivity)
    have hdiv := Int.emod_add_mul_ediv val (2 ^ (n + 2))
    rw [hpow, mul_assoc] at hdiv
    rw [hpow] at hnonneg ⊢
    generalize (2 : ℤ) ^ n * (val / (4 * 2 ^ n)) = k at hdiv
    omega
  constructor
  · intro h
    rw [toSigned, hpow] at h
    rw [← h]
    split <;> omega
  · intro h
    have hrest := heven.mp h
    rwa [pow_one, Nat.div_mul_cancel hrest]

section Fields

variable {loc val low width : ℕ}

theorem writeItype_field (hn : low + width ≤ 32)
    (hmask : mask immI &&& (2 ^ width - 1) <<< low = 0) :
    writeItype loc val / 2 ^ low % 2 ^ width = loc / 2 ^ low % 2 ^ width := by
  rw [writeItype, itype_eq]
  exact field_patch (by decide) hn hmask loc val

theorem gather_writeItype : gather immI (writeItype loc val) = val % 2 ^ 12 := by
  have h : gather immI (writeItype loc val) = val % 2 ^ 12 / 2 ^ 0 * 2 ^ 0 := by
    rw [writeItype, itype_eq]
    apply gather_patch (by decide) (by decide)
    intro i
    simp only [immI, List.mem_singleton, exists_eq_left, InRun]
  rwa [pow_zero, Nat.div_one, Nat.mul_one] at h

theorem writeStype_field (hn : low + width ≤ 32)
    (hmask : mask immS &&& (2 ^ width - 1) <<< low = 0) :
    writeStype loc val / 2 ^ low % 2 ^ width = loc / 2 ^ low % 2 ^ width := by
  rw [writeStype, stype_eq]
  exact field_patch (by decide) hn hmask loc val

theorem gather_writeStype : gather immS (writeStype loc val) = val % 2 ^ 12 := by
  have h : gather immS (writeStype loc val) = val % 2 ^ 12 / 2 ^ 0 * 2 ^ 0 := by
    rw [writeStype, stype_eq]
    apply gather_patch (by decide) (by decide)
    intro i
    simp only [immS, List.mem_cons, List.not_mem_nil, or_false, exists_eq_or_imp,
      exists_eq_left, InRun]
    omega
  rwa [pow_zero, Nat.div_one, Nat.mul_one] at h

theorem writeBtype_field (hn : low + width ≤ 32)
    (hmask : mask immB &&& (2 ^ width - 1) <<< low = 0) :
    writeBtype loc val / 2 ^ low % 2 ^ width = loc / 2 ^ low % 2 ^ width := by
  rw [writeBtype, btype_eq]
  exact field_patch (by decide) hn hmask loc val

theorem gather_writeBtype : gather immB (writeBtype loc val) = val % 2 ^ 13 / 2 ^ 1 * 2 ^ 1 := by
  rw [writeBtype, btype_eq]
  apply gather_patch (by decide) (by decide)
  intro i
  simp only [immB, List.mem_cons, List.not_mem_nil, or_false, exists_eq_or_imp,
    exists_eq_left, InRun]
  omega

theorem writeUtype_field (hn : low + width ≤ 32)
    (hmask : mask immU &&& (2 ^ width - 1) <<< low = 0) :
    writeUtype loc val / 2 ^ low % 2 ^ width = loc / 2 ^ low % 2 ^ width := by
  rw [writeUtype, utype_eq]
  exact field_patch (by decide) hn hmask loc _

theorem gather_writeUtype :
    gather immU (writeUtype loc val) = (val + 0x800) % 2 ^ 32 / 2 ^ 12 * 2 ^ 12 := by
  rw [writeUtype, utype_eq]
  refine (gather_patch (by decide) (by decide) ?_ loc _).trans (by rw [Nat.mod_mod])
  intro i
  simp only [immU, List.mem_singleton, exists_eq_left, InRun]

theorem writeJtype_field (hn : low + width ≤ 32)
    (hmask : mask immJ &&& (2 ^ width - 1) <<< low = 0) :
    writeJtype loc val / 2 ^ low % 2 ^ width = loc / 2 ^ low % 2 ^ width := by
  rw [writeJtype, jtype_eq]
  exact field_patch (by decide) hn hmask loc val

theorem gather_writeJtype : gather immJ (writeJtype loc val) = val % 2 ^ 21 / 2 ^ 1 * 2 ^ 1 := by
  rw [writeJtype, jtype_eq]
  apply gather_patch (by decide) (by decide)
  intro i
  simp only [immJ, List.mem_cons, List.not_mem_nil, or_false, exists_eq_or_imp,
    exists_eq_left, InRun]
  omega

theorem writeCbtype_field (hn : low + width ≤ 16)
    (hmask : mask immCB &&& (2 ^ width - 1) <<< low = 0) :
    writeCbtype loc val / 2 ^ low % 2 ^ width = loc / 2 ^ low % 2 ^ width := by
  rw [writeCbtype, cbtype_eq]
  exact field_patch (by decide) hn hmask loc val

theorem gather_writeCbtype : gather immCB (writeCbtype loc val) = val % 2 ^ 9 / 2 ^ 1 * 2 ^ 1 := by
  rw [writeCbtype, cbtype_eq]
  apply gather_patch (by decide) (by decide)
  intro i
  simp only [immCB, List.mem_cons, List.not_mem_nil, or_false, exists_eq_or_imp,
    exists_eq_left, InRun]
  omega

theorem writeCjtype_field (hn : low + width ≤ 16)
    (hmask : mask immCJ &&& (2 ^ width - 1) <<< low = 0) :
    writeCjtype loc val / 2 ^ low % 2 ^ width = loc / 2 ^ low % 2 ^ width := by
  rw [writeCjtype, cjtype_eq]
  exact field_patch (by decide) hn hmask loc val

theorem gather_writeCjtype :
    gather immCJ (writeCjtype loc val) = val % 2 ^ 12 / 2 ^ 1 * 2 ^ 1 := by
  rw [writeCjtype, cjtype_eq]
  apply gather_patch (by decide) (by decide)
  intro i
  simp only [immCJ, List.mem_cons, List.not_mem_nil, or_false, exists_eq_or_imp,
    exists_eq_left, InRun]
  omega

end Fields

section Single

variable {loc : ℕ} {val : ℤ}

theorem decode_writeBtype (h : opcode loc = 0x63) :
    decode (writeBtype loc (u32 val)) =
      some (.branch (funct3 loc) (rs1 loc) (rs2 loc)
        (toSigned 13 (u32 val % 2 ^ 13 / 2 ^ 1 * 2 ^ 1))) := by
  have hopcode : opcode (writeBtype loc (u32 val)) = opcode loc :=
    writeBtype_field (by decide) (by decide)
  have hfunct : funct3 (writeBtype loc (u32 val)) = funct3 loc :=
    writeBtype_field (by decide) (by decide)
  have hrs1 : rs1 (writeBtype loc (u32 val)) = rs1 loc :=
    writeBtype_field (by decide) (by decide)
  have hrs2 : rs2 (writeBtype loc (u32 val)) = rs2 loc :=
    writeBtype_field (by decide) (by decide)
  rw [decode_branch (hopcode.trans h), hfunct, hrs1, hrs2, gather_writeBtype]

theorem decode_writeJtype (h : opcode loc = 0x6F) :
    decode (writeJtype loc (u32 val)) =
      some (.jal (rd loc) (toSigned 21 (u32 val % 2 ^ 21 / 2 ^ 1 * 2 ^ 1))) := by
  have hopcode : opcode (writeJtype loc (u32 val)) = opcode loc :=
    writeJtype_field (by decide) (by decide)
  have hrd : rd (writeJtype loc (u32 val)) = rd loc :=
    writeJtype_field (by decide) (by decide)
  rw [decode_jal (hopcode.trans h), hrd, gather_writeJtype]

theorem decode16_writeCbtype (h : opcode16 loc = 1)
    (hfunct : funct3of16 loc = 6 ∨ funct3of16 loc = 7) :
    decode16 (writeCbtype loc (u32 val)) =
      some (.cbranch (funct3of16 loc) (rs1of16 loc)
        (toSigned 9 (u32 val % 2 ^ 9 / 2 ^ 1 * 2 ^ 1))) := by
  have hopcode : opcode16 (writeCbtype loc (u32 val)) = opcode16 loc :=
    writeCbtype_field (by decide) (by decide)
  have hfunct' : funct3of16 (writeCbtype loc (u32 val)) = funct3of16 loc :=
    writeCbtype_field (by decide) (by decide)
  have hrs1 : rs1of16 (writeCbtype loc (u32 val)) = rs1of16 loc :=
    writeCbtype_field (by decide) (by decide)
  rw [decode16_cbranch (hopcode.trans h) (by rwa [hfunct']), hfunct', hrs1, gather_writeCbtype]

theorem decode16_writeCjtype (h : opcode16 loc = 1) (hfunct : funct3of16 loc = 5) :
    decode16 (writeCjtype loc (u32 val)) =
      some (.cj (toSigned 12 (u32 val % 2 ^ 12 / 2 ^ 1 * 2 ^ 1))) := by
  have hopcode : opcode16 (writeCjtype loc (u32 val)) = opcode16 loc :=
    writeCjtype_field (by decide) (by decide)
  have hfunct' : funct3of16 (writeCjtype loc (u32 val)) = funct3of16 loc :=
    writeCjtype_field (by decide) (by decide)
  rw [decode16_cj (hopcode.trans h) (hfunct'.trans hfunct), gather_writeCjtype]

theorem jump_iff (hwidth : 1 < width) (h32 : width ≤ 32)
    (h : Check val (-2 ^ (width - 1)) (2 ^ (width - 1))) :
    (∀ s : State,
        s.pc + BitVec.ofInt 64 (toSigned width (u32 val % 2 ^ width / 2 ^ 1 * 2 ^ 1)) =
          s.pc + BitVec.ofInt 64 val) ↔ 2 ∣ val := by
  have heven := toSigned_even_iff hwidth h32 h.1 h.2
  constructor
  · intro hall
    have hmod : u32 val % 2 ^ width < 2 ^ width := Nat.mod_lt _ (Nat.two_pow_pos width)
    have hpow : (2 : ℕ) ^ width ≤ 2 ^ 32 := Nat.pow_le_pow_right (by decide) h32
    have hpow' : (2 : ℤ) ^ width ≤ 2 ^ 32 := pow_le_pow_right₀ (by decide) h32
    have hhalf : (2 : ℤ) ^ (width - 1) ≤ 2 ^ 32 := pow_le_pow_right₀ (by decide) (by omega)
    have hpos : (0 : ℤ) < 2 ^ width := by positivity
    have hbound : -2 ^ 32 ≤ toSigned width (u32 val % 2 ^ width / 2 ^ 1 * 2 ^ 1) ∧
        toSigned width (u32 val % 2 ^ width / 2 ^ 1 * 2 ^ 1) ≤ 2 ^ 32 := by
      unfold toSigned
      generalize u32 val % 2 ^ width = m at *
      split <;> omega
    obtain ⟨hlow, hhigh⟩ := h
    have hzero := (BitVec.add_right_inj 0).mp (hall ⟨0, fun _ => 0, rfl⟩)
    exact heven.mp ((ofInt_inj (by omega) (by omega)).mp hzero)
  · intro hdvd s
    rw [heven.mpr hdvd]

end Single

section SetRs1

variable {loc : ℕ}

theorem testBit_setRs1 {j : ℕ} (hj : j < 31) (hrs1 : ¬(15 ≤ j ∧ j < 20)) :
    (setRs1 loc 0).testBit j = loc.testBit j := by
  have hkeep : (0b111111_11111_00000_111_11111_1111111 : ℕ).testBit j = true := by
    interval_cases j <;> first | rfl | omega
  rw [setRs1, Nat.testBit_or, Nat.testBit_and, hkeep, Nat.zero_shiftLeft, Nat.zero_testBit,
    Bool.and_true, Bool.or_false]

theorem testBit_setRs1_clear {j : ℕ} (hj : 31 ≤ j ∨ 15 ≤ j ∧ j < 20) :
    (setRs1 loc 0).testBit j = false := by
  have hkeep : (0b111111_11111_00000_111_11111_1111111 : ℕ).testBit j = false := by
    rcases hj with hj | ⟨hlow, hhigh⟩
    · apply Nat.testBit_lt_two_pow
      exact lt_of_lt_of_le (by decide) (Nat.pow_le_pow_right (by decide) hj)
    · interval_cases j <;> rfl
  rw [setRs1, Nat.testBit_or, Nat.testBit_and, hkeep, Nat.zero_shiftLeft, Nat.zero_testBit,
    Bool.and_false, Bool.or_false]

theorem setRs1_field {low width : ℕ} (hn : low + width ≤ 31) (hrs1 : low + width ≤ 15 ∨ 20 ≤ low) :
    setRs1 loc 0 / 2 ^ low % 2 ^ width = loc / 2 ^ low % 2 ^ width := by
  apply field_congr
  rintro j ⟨hlow, hhigh⟩
  exact testBit_setRs1 (by omega) (by omega)

theorem rs1_setRs1 : rs1 (setRs1 loc 0) = 0 := by
  apply Nat.eq_of_testBit_eq
  intro i
  rw [rs1, Nat.testBit_mod_two_pow, Nat.testBit_div_two_pow, Nat.zero_testBit]
  by_cases hi : i < 5
  · rw [testBit_setRs1_clear (by omega), Bool.and_false]
  · rw [decide_eq_false hi, Bool.false_and]

theorem gather_immI_setRs1 : gather immI (setRs1 loc 0) = gather immI loc % 2 ^ 11 := by
  apply Nat.eq_of_testBit_eq
  intro i
  rw [Nat.testBit_mod_two_pow, testBit_gather, testBit_gather]
  simp only [immI, List.any_cons, List.any_nil, Bool.or_false, InRun]
  by_cases hi : i < 11
  · rw [testBit_setRs1 (by omega) (by omega), decide_eq_true hi, Bool.true_and]
  · rw [testBit_setRs1_clear (by omega), decide_eq_false hi, Bool.and_false, Bool.false_and]

theorem gather_immS_setRs1 : gather immS (setRs1 loc 0) = gather immS loc % 2 ^ 11 := by
  apply Nat.eq_of_testBit_eq
  intro i
  rw [Nat.testBit_mod_two_pow, testBit_gather, testBit_gather, Bool.eq_iff_iff]
  simp only [immS, List.any_cons, List.any_nil, Bool.or_false, Bool.or_eq_true,
    Bool.and_eq_true, decide_eq_true_eq]
  unfold InRun
  constructor
  · rintro (⟨hi, hbit⟩ | ⟨hi, hbit⟩)
    · by_cases h11 : i < 11
      · rw [testBit_setRs1 (by omega) (by omega)] at hbit
        exact ⟨h11, Or.inl ⟨hi, hbit⟩⟩
      · rw [testBit_setRs1_clear (by omega)] at hbit
        exact absurd hbit Bool.false_ne_true
    · rw [testBit_setRs1 (by omega) (by omega)] at hbit
      exact ⟨by omega, Or.inr ⟨hi, hbit⟩⟩
  · rintro ⟨h11, ⟨hi, hbit⟩ | ⟨hi, hbit⟩⟩
    · exact Or.inl ⟨hi, by rwa [testBit_setRs1 (by omega) (by omega)]⟩
    · exact Or.inr ⟨hi, by rwa [testBit_setRs1 (by omega) (by omega)]⟩

end SetRs1

/-! ## Pairs of instructions -/

/-- The upper part that `write_utype` leaves. -/
def upper (val : ℤ) : ℤ := toSigned 32 ((u32 val + 0x800) % 2 ^ 32 / 2 ^ 12 * 2 ^ 12)

/-- The lower part that `write_itype` and `write_stype` leave. -/
def lower (val : ℤ) : ℤ := toSigned 12 (u32 val % 2 ^ 12)

def lowerCleared (val : ℤ) : ℤ := toSigned 12 (u32 val % 2 ^ 12 % 2 ^ 11)

/-- The immediate of the second instruction after `set_rs1`. -/
def lo12Imm (val : ℤ) : ℤ := if isInt12 val then lowerCleared val else lower val

section Pair

variable {loc next : ℕ} {val : ℤ}

theorem isInt12_iff (h : Check val (-2 ^ 31) (2 ^ 31)) :
    isInt12 val = true ↔ -2 ^ 11 ≤ val ∧ val < 2 ^ 11 := by
  obtain ⟨hlow, hhigh⟩ := h
  have hint : (BitVec.ofInt 64 val).toInt = val := by
    rw [BitVec.toInt_ofInt, Int.bmod_eq_of_le] <;> omega
  rw [isInt12, beq_iff_eq, signExtend_eq_iff (by decide), hint]

theorem upper_add_lower (h : Check val (-2 ^ 31) (2 ^ 31)) :
    upper val + lower val = if val < 2 ^ 31 - 2 ^ 11 then val else val - 2 ^ 32 := by
  obtain ⟨hlow, hhigh⟩ := h
  unfold upper lower toSigned u32
  split_ifs <;> omega

theorem lowerCleared_eq_iff (h : -2 ^ 11 ≤ val ∧ val < 2 ^ 11) :
    lowerCleared val = val ↔ ¬val < 0 := by
  unfold lowerCleared toSigned u32
  split_ifs <;> omega

theorem decode_auipc_writeUtype (h : opcode loc = 0x17) :
    decode (writeUtype loc (u32 val)) = some (.auipc (rd loc) (upper val)) := by
  have hopcode : opcode (writeUtype loc (u32 val)) = opcode loc :=
    writeUtype_field (by decide) (by decide)
  have hrd : rd (writeUtype loc (u32 val)) = rd loc :=
    writeUtype_field (by decide) (by decide)
  rw [decode_auipc (hopcode.trans h), hrd, gather_writeUtype, upper]

theorem decode_lui_writeUtype (h : opcode loc = 0x37) :
    decode (writeUtype loc (u32 val)) = some (.lui (rd loc) (upper val)) := by
  have hopcode : opcode (writeUtype loc (u32 val)) = opcode loc :=
    writeUtype_field (by decide) (by decide)
  have hrd : rd (writeUtype loc (u32 val)) = rd loc :=
    writeUtype_field (by decide) (by decide)
  rw [decode_lui (hopcode.trans h), hrd, gather_writeUtype, upper]

theorem decode_jalr_writeItype (h : opcode next = 0x67 ∧ funct3 next = 0) :
    decode (writeItype next (u32 val)) = some (.jalr (rd next) (rs1 next) (lower val)) := by
  have hopcode : opcode (writeItype next (u32 val)) = opcode next :=
    writeItype_field (by decide) (by decide)
  have hfunct : funct3 (writeItype next (u32 val)) = funct3 next :=
    writeItype_field (by decide) (by decide)
  have hrd : rd (writeItype next (u32 val)) = rd next :=
    writeItype_field (by decide) (by decide)
  have hrs1 : rs1 (writeItype next (u32 val)) = rs1 next :=
    writeItype_field (by decide) (by decide)
  rw [decode_jalr (hopcode.trans h.1) (hfunct.trans h.2), hrd, hrs1, gather_writeItype, lower]

theorem lo12I_field {low width : ℕ} (hn : low + width ≤ 15)
    (hmask : mask immI &&& (2 ^ width - 1) <<< low = 0) :
    lo12I next val / 2 ^ low % 2 ^ width = next / 2 ^ low % 2 ^ width := by
  simp only [lo12I]
  split
  · rw [setRs1_field (by omega) (by omega)]
    exact writeItype_field (by omega) hmask
  · exact writeItype_field (by omega) hmask

theorem lo12S_field {low width : ℕ} (hn : low + width ≤ 31) (hrs1 : low + width ≤ 15 ∨ 20 ≤ low)
    (hmask : mask immS &&& (2 ^ width - 1) <<< low = 0) :
    lo12S next val / 2 ^ low % 2 ^ width = next / 2 ^ low % 2 ^ width := by
  simp only [lo12S]
  split
  · rw [setRs1_field hn hrs1]
    exact writeStype_field (by omega) hmask
  · exact writeStype_field (by omega) hmask

theorem rs1_lo12I : rs1 (lo12I next val) = baseOf next val := by
  simp only [lo12I, baseOf]
  split
  · exact rs1_setRs1
  · exact writeItype_field (by decide) (by decide)

theorem rs1_lo12S : rs1 (lo12S next val) = baseOf next val := by
  simp only [lo12S, baseOf]
  split
  · exact rs1_setRs1
  · exact writeStype_field (by decide) (by decide)

theorem gather_lo12I : toSigned 12 (gather immI (lo12I next val)) = lo12Imm val := by
  simp only [lo12I, lo12Imm, lowerCleared, lower]
  split
  · rw [gather_immI_setRs1, gather_writeItype]
  · rw [gather_writeItype]

theorem gather_lo12S : toSigned 12 (gather immS (lo12S next val)) = lo12Imm val := by
  simp only [lo12S, lo12Imm, lowerCleared, lower]
  split
  · rw [gather_immS_setRs1, gather_writeStype]
  · rw [gather_writeStype]

theorem decode_lo12I (h : IsItype next) :
    decode (lo12I next val) =
      some (.itype (opcode next) (funct3 next) (rd next) (baseOf next val) (lo12Imm val)) := by
  have hopcode : opcode (lo12I next val) = opcode next := lo12I_field (by decide) (by decide)
  have hfunct : funct3 (lo12I next val) = funct3 next := lo12I_field (by decide) (by decide)
  have hrd : rd (lo12I next val) = rd next := lo12I_field (by decide) (by decide)
  have hitype : IsItype (lo12I next val) := by rwa [IsItype, hopcode, hfunct]
  rw [decode_itype hitype, hopcode, hfunct, hrd, rs1_lo12I, gather_lo12I]

theorem decode_lo12S (h : IsStype next) :
    decode (lo12S next val) =
      some (.stype (opcode next) (funct3 next) (baseOf next val) (rs2 next) (lo12Imm val)) := by
  have hopcode : opcode (lo12S next val) = opcode next :=
    lo12S_field (by decide) (by decide) (by decide)
  have hfunct : funct3 (lo12S next val) = funct3 next :=
    lo12S_field (by decide) (by decide) (by decide)
  have hrs2 : rs2 (lo12S next val) = rs2 next :=
    lo12S_field (by decide) (by decide) (by decide)
  have hstype : IsStype (lo12S next val) := by rwa [IsStype, hopcode]
  rw [decode_stype hstype, hopcode, hfunct, rs1_lo12S, hrs2, gather_lo12S]

theorem lo12_result_iff (h : Check val (-2 ^ 31) (2 ^ 31)) (hreg : rs1 next = rd loc)
    (hrd : rd loc ≠ 0) :
    (∀ s : State, (s.set (rd loc) (BitVec.ofInt 64 (upper val))).read (baseOf next val) +
        BitVec.ofInt 64 (lo12Imm val) = BitVec.ofInt 64 val) ↔
      val < 2 ^ 31 - 2 ^ 11 ∧ ¬(-2 ^ 11 ≤ val ∧ val < 0) := by
  have hsum := upper_add_lower h
  obtain ⟨hlow, hhigh⟩ := h
  cases hint : isInt12 val with
  | true =>
    have hrange := (isInt12_iff ⟨hlow, hhigh⟩).mp hint
    have hcleared := lowerCleared_eq_iff hrange
    have hlt : val < 2 ^ 31 - 2 ^ 11 := by omega
    have hsmall : lowerCleared val < 2 ^ 11 ∧ -2 ^ 11 ≤ lowerCleared val := by
      unfold lowerCleared toSigned
      split <;> omega
    have hread : ∀ s : State, ∀ v, (s.set (rd loc) v).read (baseOf next val) = 0 := by
      intro s v
      rw [baseOf, hint, if_pos rfl, State.read, if_pos rfl]
    simp only [hread, lo12Imm, hint, if_true, zero_add]
    constructor
    · intro hall
      have heq := (ofInt_inj (by omega) (by omega)).mp (hall ⟨0, fun _ => 0, rfl⟩)
      have hpos := hcleared.mp heq
      exact ⟨hlt, fun hneg => hpos hneg.2⟩
    · rintro ⟨-, hneg⟩ s
      rw [hcleared.mpr fun hlt => hneg ⟨hrange.1, hlt⟩]
  | false =>
    have hrange : ¬(-2 ^ 11 ≤ val ∧ val < 2 ^ 11) := by
      rw [← isInt12_iff ⟨hlow, hhigh⟩, hint]
      exact Bool.false_ne_true
    have hread : ∀ s : State, ∀ v, (s.set (rd loc) v).read (baseOf next val) = v := by
      intro s v
      rw [baseOf, hint, if_neg Bool.false_ne_true, hreg, State.read_set hrd]
    simp only [hread, lo12Imm, hint, Bool.false_eq_true, if_false, ← BitVec.ofInt_add, hsum]
    constructor
    · intro hall
      have heq := (ofInt_inj (by split <;> omega) (by split <;> omega)).mp
        (hall ⟨0, fun _ => 0, rfl⟩)
      split at heq
      · exact ⟨by assumption, by omega⟩
      · omega
    · rintro ⟨hlt, -⟩ s
      rw [if_pos hlt]

theorem toNat_and_not_one (x : BitVec 64) : (x &&& ~~~1#64).toNat = x.toNat / 2 * 2 := by
  have hone : ∀ i : Fin 64, (~~~1#64).getLsbD i = decide (1 ≤ i.val) := by decide
  have hshift : x &&& ~~~1#64 = (x >>> 1) <<< 1 := by
    apply BitVec.eq_of_getLsbD_eq
    intro i hi
    rw [BitVec.getLsbD_and, hone ⟨i, hi⟩, BitVec.getLsbD_shiftLeft, BitVec.getLsbD_ushiftRight]
    by_cases h1 : 1 ≤ i
    · have h0 : ¬i < 1 := by omega
      rw [Nat.add_sub_cancel' h1]
      simp only [h1, hi, h0, decide_true, decide_false, Bool.not_false, Bool.and_true,
        Bool.true_and]
    · have h0 : i < 1 := by omega
      simp only [h1, h0, decide_true, decide_false, Bool.not_true, Bool.and_false, Bool.false_and]
  have hlt := x.isLt
  rw [hshift, BitVec.toNat_shiftLeft, BitVec.toNat_ushiftRight, Nat.shiftRight_eq_div_pow,
    Nat.shiftLeft_eq]
  omega

theorem pc_toNat (s : State) : s.pc.toNat % 2 = 0 := by
  have heven := s.pc_even
  rw [BitVec.getLsbD, Nat.testBit_zero, decide_eq_false_iff_not] at heven
  omega

theorem call_result_iff (h : Check val (-2 ^ 31) (2 ^ 31)) (hreg : rs1 next = rd loc)
    (hrd : rd loc ≠ 0) :
    (∀ s : State, ((s.set (rd loc) (s.pc + BitVec.ofInt 64 (upper val))).read (rs1 next) +
        BitVec.ofInt 64 (lower val)) &&& ~~~1#64 = s.pc + BitVec.ofInt 64 val) ↔
      2 ∣ val ∧ val < 2 ^ 31 - 2 ^ 11 := by
  have hsum := upper_add_lower h
  obtain ⟨hlow, hhigh⟩ := h
  simp only [hreg, State.read_set hrd, BitVec.add_assoc, ← BitVec.ofInt_add, hsum,
    ← BitVec.toNat_inj, toNat_and_not_one, BitVec.toNat_add, BitVec.toNat_ofInt]
  constructor
  · intro hall
    have hzero := hall ⟨0, fun _ => 0, rfl⟩
    have hpc : (0 : BitVec 64).toNat = 0 := rfl
    simp only [hpc, Nat.zero_add] at hzero
    split at hzero
    · exact ⟨by omega, by assumption⟩
    · omega
  · rintro ⟨heven, hlt⟩ s
    have hpc := pc_toNat s
    rw [if_pos hlt]
    omega

end Pair

section Sites

variable {loc next : ℕ} {val : ℤ}

theorem branch_yields_iff (hloc : opcode loc = 0x63) (h : Check val (-2 ^ 12) (2 ^ 12)) :
    (Site.branch loc hloc).Yields val ↔ 2 ∣ val := by
  have hdecode := @decode_writeBtype loc val hloc
  have hjump := jump_iff (by decide : 1 < 13) (by decide) h
  simp only [Site.Yields, hdecode, Option.some.injEq, Instr.branch.injEq, true_and, exists_eq_left']
  exact hjump

theorem jal_yields_iff (hloc : opcode loc = 0x6F) (h : Check val (-2 ^ 20) (2 ^ 20)) :
    (Site.jal loc hloc).Yields val ↔ 2 ∣ val := by
  have hdecode := @decode_writeJtype loc val hloc
  have hjump := jump_iff (by decide : 1 < 21) (by decide) h
  simp only [Site.Yields, hdecode, Option.some.injEq, Instr.jal.injEq, true_and, exists_eq_left']
  exact hjump

theorem rvcBranch_yields_iff (hloc : opcode16 loc = 1)
    (hfunct : funct3of16 loc = 6 ∨ funct3of16 loc = 7) (h : Check val (-2 ^ 8) (2 ^ 8)) :
    (Site.rvcBranch loc hloc hfunct).Yields val ↔ 2 ∣ val := by
  have hdecode := @decode16_writeCbtype loc val hloc hfunct
  have hjump := jump_iff (by decide : 1 < 9) (by decide) h
  simp only [Site.Yields, hdecode, Option.some.injEq, CInstr.cbranch.injEq, true_and, exists_eq_left']
  exact hjump

theorem rvcJump_yields_iff (hloc : opcode16 loc = 1) (hfunct : funct3of16 loc = 5)
    (h : Check val (-2 ^ 11) (2 ^ 11)) :
    (Site.rvcJump loc hloc hfunct).Yields val ↔ 2 ∣ val := by
  have hdecode := @decode16_writeCjtype loc val hloc hfunct
  have hjump := jump_iff (by decide : 1 < 12) (by decide) h
  simp only [Site.Yields, hdecode, Option.some.injEq, CInstr.cj.injEq, exists_eq_left']
  exact hjump

theorem call_yields_iff (hloc : opcode loc = 0x17) (hnext : opcode next = 0x67 ∧ funct3 next = 0)
    (hreg : rs1 next = rd loc ∧ rd loc ≠ 0) (h : Check val (-2 ^ 31) (2 ^ 31)) :
    (Site.call loc next hloc hnext hreg).Yields val ↔ 2 ∣ val ∧ val < 2 ^ 31 - 2 ^ 11 := by
  have hhi := @decode_auipc_writeUtype loc val hloc
  have hlo := @decode_jalr_writeItype next val hnext
  have hcall := call_result_iff h hreg.1 hreg.2
  simp only [Site.Yields, hhi, hlo, Option.some.injEq, Instr.auipc.injEq, Instr.jalr.injEq, true_and,
    exists_and_left, exists_eq_left']
  exact hcall

theorem hi20I_yields_iff (hloc : opcode loc = 0x37) (hnext : IsItype next)
    (hreg : rs1 next = rd loc ∧ rd loc ≠ 0) (h : Check val (-2 ^ 31) (2 ^ 31)) :
    (Site.hi20I loc next hloc hnext hreg).Yields val ↔
      val < 2 ^ 31 - 2 ^ 11 ∧ ¬(-2 ^ 11 ≤ val ∧ val < 0) := by
  have hhi := @decode_lui_writeUtype loc val hloc
  have hlo := @decode_lo12I next val hnext
  have hpair := lo12_result_iff h hreg.1 hreg.2
  simp only [Site.Yields, hhi, hlo, Option.some.injEq, Instr.lui.injEq, Instr.itype.injEq, true_and,
    exists_and_left, exists_eq_left']
  exact hpair

theorem hi20S_yields_iff (hloc : opcode loc = 0x37) (hnext : IsStype next)
    (hreg : rs1 next = rd loc ∧ rd loc ≠ 0) (h : Check val (-2 ^ 31) (2 ^ 31)) :
    (Site.hi20S loc next hloc hnext hreg).Yields val ↔
      val < 2 ^ 31 - 2 ^ 11 ∧ ¬(-2 ^ 11 ≤ val ∧ val < 0) := by
  have hhi := @decode_lui_writeUtype loc val hloc
  have hlo := @decode_lo12S next val hnext
  have hpair := lo12_result_iff h hreg.1 hreg.2
  simp only [Site.Yields, hhi, hlo, Option.some.injEq, Instr.lui.injEq, Instr.stype.injEq, true_and,
    exists_and_left, exists_eq_left']
  exact hpair

end Sites

/-- For every place and every value that passes the check of its case: the instructions that
are written compute the value, with the opcodes and registers that were there, exactly if
the value can be written. -/
theorem yields_iff (site : Site) (val : ℤ) (h : site.Check val) :
    site.Yields val ↔ site.Encodable val := by
  cases site with
  | branch loc hloc => exact branch_yields_iff hloc h
  | jal loc hloc => exact jal_yields_iff hloc h
  | call loc next hloc hnext hreg => exact call_yields_iff hloc hnext hreg h
  | rvcBranch loc hloc hfunct => exact rvcBranch_yields_iff hloc hfunct h
  | rvcJump loc hloc hfunct => exact rvcJump_yields_iff hloc hfunct h
  | hi20I loc next hloc hnext hreg => exact hi20I_yields_iff hloc hnext hreg h
  | hi20S loc next hloc hnext hreg => exact hi20S_yields_iff hloc hnext hreg h

/-- A branch eight bytes back, and `lui t0; addi t0, t0` for `0x12fff`, which is rounded up. -/
theorem yields_branch_pair :
    (Site.branch 0x63 rfl).Yields (-8) ∧
      (Site.hi20I 0x2B7 0x28293 rfl (.inr (.inr ⟨rfl, rfl⟩)) ⟨rfl, by decide⟩).Yields 0x12FFF :=
  ⟨(yields_iff (.branch 0x63 rfl) (-8) (And.intro (by decide) (by decide))).mpr
      (by decide : (2 : ℤ) ∣ -8),
    (yields_iff (.hi20I 0x2B7 0x28293 rfl (.inr (.inr ⟨rfl, rfl⟩)) ⟨rfl, by decide⟩) 0x12FFF
      (And.intro (by decide) (by decide))).mpr (And.intro (by decide) (by decide))⟩

/-- A call through `auipc t1; jalr ra, t1` whose target is `0x7ffff800` ahead, and a store
to the address `-4` through `lui t0`, pass their checks and go elsewhere. -/
theorem not_yields :
    ((Site.call 0x317 0x300E7 rfl ⟨rfl, rfl⟩ ⟨rfl, by decide⟩).Check 0x7FFFF800 ∧
        ¬(Site.call 0x317 0x300E7 rfl ⟨rfl, rfl⟩ ⟨rfl, by decide⟩).Yields 0x7FFFF800) ∧
      (Site.hi20S 0x2B7 0x62A023 rfl (Or.inl rfl) ⟨rfl, by decide⟩).Check (-4) ∧
        ¬(Site.hi20S 0x2B7 0x62A023 rfl (Or.inl rfl) ⟨rfl, by decide⟩).Yields (-4) := by
  have hcall : Check 0x7FFFF800 (-2 ^ 31) (2 ^ 31) := And.intro (by decide) (by decide)
  have hstore : Check (-4) (-2 ^ 31) (2 ^ 31) := And.intro (by decide) (by decide)
  refine ⟨⟨hcall, fun hyields => ?_⟩, hstore, fun hyields => ?_⟩
  · have hlt := ((call_yields_iff rfl ⟨rfl, rfl⟩ ⟨rfl, by decide⟩ hcall).mp hyields).2
    exact absurd hlt (by decide)
  · have hneg := ((hi20S_yields_iff rfl (Or.inl rfl) ⟨rfl, by decide⟩ hstore).mp hyields).2
    exact hneg (by decide)

end Mold.Elf.Riscv
