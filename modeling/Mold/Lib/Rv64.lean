import Mathlib.Data.BitVec
import Mold.Lib.BitField

/-!
# Addresses in RV64

The instructions of the 64-bit RISC-V instruction set that hold a displacement or an
address: jumps and branches, the two that load the upper bits of a register, and those that
add twelve bits to a base register.  `result` is the value, the target or the address that
an instruction computes.
-/

namespace Mold.Lib.Rv64

open BitField BitScatter

/-! ## The places of immediates -/

def immI : List Piece := [⟨0, 20, 12⟩]

def immS : List Piece := [⟨5, 25, 7⟩, ⟨0, 7, 5⟩]

def immB : List Piece := [⟨12, 31, 1⟩, ⟨5, 25, 6⟩, ⟨1, 8, 4⟩, ⟨11, 7, 1⟩]

def immU : List Piece := [⟨12, 12, 20⟩]

def immJ : List Piece := [⟨20, 31, 1⟩, ⟨1, 21, 10⟩, ⟨11, 20, 1⟩, ⟨12, 12, 8⟩]

def immCB : List Piece :=
  [⟨8, 12, 1⟩, ⟨4, 11, 1⟩, ⟨3, 10, 1⟩, ⟨7, 6, 1⟩, ⟨6, 5, 1⟩, ⟨2, 4, 1⟩, ⟨1, 3, 1⟩, ⟨5, 2, 1⟩]

def immCJ : List Piece :=
  [⟨11, 12, 1⟩, ⟨4, 11, 1⟩, ⟨9, 10, 1⟩, ⟨8, 9, 1⟩, ⟨10, 8, 1⟩, ⟨6, 7, 1⟩, ⟨7, 6, 1⟩,
    ⟨3, 5, 1⟩, ⟨2, 4, 1⟩, ⟨1, 3, 1⟩, ⟨5, 2, 1⟩]

/-! ## Instructions -/

/-- `itype` are the loads and the addition of an immediate, `stype` the stores. -/
inductive Instr where
  | lui (rd : ℕ) (imm : ℤ)
  | auipc (rd : ℕ) (imm : ℤ)
  | jal (rd : ℕ) (imm : ℤ)
  | jalr (rd rs1 : ℕ) (imm : ℤ)
  | branch (cond rs1 rs2 : ℕ) (imm : ℤ)
  | itype (opcode funct3 rd rs1 : ℕ) (imm : ℤ)
  | stype (opcode funct3 rs1 rs2 : ℕ) (imm : ℤ)
  deriving DecidableEq

/-- Jumps and branches of 16 bits.  The register is one of the eight that can be named. -/
inductive CInstr where
  | cj (imm : ℤ)
  | cbranch (funct3 rs1 : ℕ) (imm : ℤ)
  deriving DecidableEq

def opcode (w : ℕ) : ℕ := w / 2 ^ 0 % 2 ^ 7

def rd (w : ℕ) : ℕ := w / 2 ^ 7 % 2 ^ 5

def funct3 (w : ℕ) : ℕ := w / 2 ^ 12 % 2 ^ 3

def rs1 (w : ℕ) : ℕ := w / 2 ^ 15 % 2 ^ 5

def rs2 (w : ℕ) : ℕ := w / 2 ^ 20 % 2 ^ 5

/-- The instruction of 32 bits that a word encodes, if it is one of these. -/
def decode (w : ℕ) : Option Instr :=
  match opcode w with
  | 0x37 => some (.lui (rd w) (toSigned 32 (gather immU w)))
  | 0x17 => some (.auipc (rd w) (toSigned 32 (gather immU w)))
  | 0x6F => some (.jal (rd w) (toSigned 21 (gather immJ w)))
  | 0x67 =>
    if funct3 w = 0 then some (.jalr (rd w) (rs1 w) (toSigned 12 (gather immI w))) else none
  | 0x63 => some (.branch (funct3 w) (rs1 w) (rs2 w) (toSigned 13 (gather immB w)))
  | 0x03 | 0x07 =>
    some (.itype (opcode w) (funct3 w) (rd w) (rs1 w) (toSigned 12 (gather immI w)))
  | 0x13 =>
    if funct3 w = 0 then
      some (.itype (opcode w) (funct3 w) (rd w) (rs1 w) (toSigned 12 (gather immI w)))
    else none
  | 0x23 | 0x27 =>
    some (.stype (opcode w) (funct3 w) (rs1 w) (rs2 w) (toSigned 12 (gather immS w)))
  | _ => none

section Decode

variable {w : ℕ}

theorem decode_lui (h : opcode w = 0x37) :
    decode w = some (.lui (rd w) (toSigned 32 (gather immU w))) := by
  simp only [decode, h]

theorem decode_auipc (h : opcode w = 0x17) :
    decode w = some (.auipc (rd w) (toSigned 32 (gather immU w))) := by
  simp only [decode, h]

theorem decode_jal (h : opcode w = 0x6F) :
    decode w = some (.jal (rd w) (toSigned 21 (gather immJ w))) := by
  simp only [decode, h]

theorem decode_jalr (h : opcode w = 0x67) (hfunct : funct3 w = 0) :
    decode w = some (.jalr (rd w) (rs1 w) (toSigned 12 (gather immI w))) := by
  simp only [decode, h, hfunct, if_true]

theorem decode_branch (h : opcode w = 0x63) :
    decode w = some (.branch (funct3 w) (rs1 w) (rs2 w) (toSigned 13 (gather immB w))) := by
  simp only [decode, h]

def IsItype (w : ℕ) : Prop :=
  opcode w = 0x03 ∨ opcode w = 0x07 ∨ opcode w = 0x13 ∧ funct3 w = 0

def IsStype (w : ℕ) : Prop := opcode w = 0x23 ∨ opcode w = 0x27

theorem decode_itype (h : IsItype w) :
    decode w =
      some (.itype (opcode w) (funct3 w) (rd w) (rs1 w) (toSigned 12 (gather immI w))) := by
  rcases h with h | h | ⟨h, hfunct⟩
  · simp only [decode, h]
  · simp only [decode, h]
  · simp only [decode, h, hfunct, if_true]

theorem decode_stype (h : IsStype w) :
    decode w =
      some (.stype (opcode w) (funct3 w) (rs1 w) (rs2 w) (toSigned 12 (gather immS w))) := by
  rcases h with h | h <;> simp only [decode, h]

end Decode

def opcode16 (w : ℕ) : ℕ := w / 2 ^ 0 % 2 ^ 2

def funct3of16 (w : ℕ) : ℕ := w / 2 ^ 13 % 2 ^ 3

def rs1of16 (w : ℕ) : ℕ := w / 2 ^ 7 % 2 ^ 3

/-- The instruction of 16 bits that a word encodes, if it is one of these. -/
def decode16 (w : ℕ) : Option CInstr :=
  if opcode16 w = 1 then
    match funct3of16 w with
    | 5 => some (.cj (toSigned 12 (gather immCJ w)))
    | 6 | 7 => some (.cbranch (funct3of16 w) (rs1of16 w) (toSigned 9 (gather immCB w)))
    | _ => none
  else none

theorem decode16_cj {w : ℕ} (h : opcode16 w = 1) (hfunct : funct3of16 w = 5) :
    decode16 w = some (.cj (toSigned 12 (gather immCJ w))) := by
  simp only [decode16, h, hfunct, if_true]

theorem decode16_cbranch {w : ℕ} (h : opcode16 w = 1)
    (hfunct : funct3of16 w = 6 ∨ funct3of16 w = 7) :
    decode16 w = some (.cbranch (funct3of16 w) (rs1of16 w) (toSigned 9 (gather immCB w))) := by
  rcases hfunct with hfunct | hfunct <;> simp only [decode16, h, hfunct, if_true]

/-! ## What they compute -/

/-- The program counter, which is even, and the registers.  Register 0 reads as zero. -/
structure State where
  pc : BitVec 64
  reg : ℕ → BitVec 64
  pc_even : pc.getLsbD 0 = false

namespace State

def read (s : State) (r : ℕ) : BitVec 64 := if r = 0 then 0 else s.reg r

end State

/-- The value of a register, the target of a jump or the address of an access. -/
def Instr.result (s : State) : Instr → BitVec 64
  | .lui _ imm => BitVec.ofInt 64 imm
  | .auipc _ imm | .jal _ imm | .branch _ _ _ imm => s.pc + BitVec.ofInt 64 imm
  | .jalr _ rs1 imm => (s.read rs1 + BitVec.ofInt 64 imm) &&& ~~~1#64
  | .itype _ _ _ rs1 imm | .stype _ _ rs1 _ imm => s.read rs1 + BitVec.ofInt 64 imm

def CInstr.result (s : State) : CInstr → BitVec 64
  | .cj imm | .cbranch _ _ imm => s.pc + BitVec.ofInt 64 imm

/-- The state after an instruction of 32 bits that sets a register. -/
def State.set (s : State) (rd : ℕ) (val : BitVec 64) : State where
  pc := s.pc + 4
  reg := Function.update s.reg rd val
  pc_even := by
    have hfour : (4 : BitVec 64).getLsbD 0 = false := rfl
    rw [BitVec.getLsbD_add (by decide), s.pc_even, hfour, BitVec.carry_zero]
    rfl

/-- What the second of two instructions computes if the first one sets the register `rd`. -/
def pairResult (s : State) (rd : ℕ) (first second : Instr) : BitVec 64 :=
  second.result (s.set rd (first.result s))

theorem State.read_set {s : State} {r : ℕ} (h : r ≠ 0) (val : BitVec 64) :
    (s.set r val).read r = val := by
  rw [read, if_neg h]
  exact Function.update_self r val s.reg

/-! ## Numbers of 64 bits -/

theorem ofInt_inj {a b : ℤ} (h : a - b < 2 ^ 64) (h' : b - a < 2 ^ 64) :
    BitVec.ofInt 64 a = BitVec.ofInt 64 b ↔ a = b := by
  refine ⟨fun heq => ?_, fun heq => by rw [heq]⟩
  have hnat := congrArg BitVec.toNat heq
  rw [BitVec.toNat_ofInt, BitVec.toNat_ofInt] at hnat
  omega

/-- A two's complement number is read back if it has the bits for it. -/
theorem toSigned_emod {width : ℕ} (hwidth : 0 < width) {val : ℤ}
    (hlow : -2 ^ (width - 1) ≤ val) (hhigh : val < 2 ^ (width - 1)) :
    toSigned width (val % 2 ^ width).toNat = val := by
  obtain ⟨n, rfl⟩ : ∃ n, width = n + 1 := ⟨width - 1, by omega⟩
  rw [Nat.add_sub_cancel] at hlow hhigh
  have hpow : (2 : ℤ) ^ (n + 1) = 2 ^ n + 2 ^ n := by rw [pow_succ]; omega
  have hcast : ((2 ^ n : ℕ) : ℤ) = 2 ^ n := by push_cast; rfl
  rw [toSigned, Nat.add_sub_cancel, hpow]
  generalize (2 : ℤ) ^ n = p at *
  generalize 2 ^ n = q at *
  subst hcast
  by_cases hneg : val < 0
  · have hmod : val % (q + q : ℤ) = val + (q + q) := by
      rw [← Int.add_emod_right, Int.emod_eq_of_lt (by omega) (by omega)]
    rw [hmod, if_neg (by omega)]
    omega
  · rw [Int.emod_eq_of_lt (by omega) (by omega), if_pos (by omega)]
    omega

end Mold.Lib.Rv64
