import Mold.Lib.WordMemory

/-!
# Some instructions of i386

Instructions that compute an address or load a word, and the instructions with `%eax` that
sequences for thread-local storage are made of.  Bytes are executed one instruction after the
other until none is left.
-/

namespace Mold.Lib.I386

scoped instance instNeZeroReg : NeZero 8 := ⟨by decide⟩

/-- `%eax` is register zero. -/
abbrev Reg := Fin 8

/-- A base register.  The number of `%esp` stands for something else. -/
abbrev BaseReg := { r : Reg // r ≠ 4 }

/-- `movGs` loads from `%gs:disp`, and the three instructions after it change `%eax`. -/
inductive Instr where
  | lea (dst : Reg) (base : Option Reg) (disp : BitVec 32)
  | mov (dst : Reg) (base : Option Reg) (disp : BitVec 32)
  | movGs (disp : BitVec 32)
  | addImm (imm : BitVec 32)
  | subImm (imm : BitVec 32)
  | nop
  deriving DecidableEq

/-! ## Bytes -/

def imm (bytes : List Byte) : BitVec 32 := BitVec.ofNat 32 (readLe bytes)

def le32 (val : BitVec 32) : List Byte := le 4 val.toNat

/-- The second byte of an instruction with a register and an address of four bytes. -/
def modRM (reg : Reg) : Option BaseReg → Byte
  | some base => ⟨0x80 + 8 * reg.val + base.val.val, by omega⟩
  | none => ⟨8 * reg.val + 5, by omega⟩

def baseOf (m : Byte) : Option (Option Reg) :=
  if m.val / 64 = 2 ∧ m.val % 8 ≠ 4 then some (some (Fin.ofNat 8 m.val))
  else if m.val / 64 = 0 ∧ m.val % 8 = 5 then some none
  else none

def regOf (m : Byte) : Reg := Fin.ofNat 8 (m.val / 8)

/-- The first instruction, and what is behind it. -/
def decode : List Byte → Option (Instr × List Byte)
  | 0x65 :: 0xa1 :: a :: b :: c :: d :: code => some (.movGs (imm [a, b, c, d]), code)
  | 0x81 :: 0xc0 :: a :: b :: c :: d :: code => some (.addImm (imm [a, b, c, d]), code)
  | 0x2d :: a :: b :: c :: d :: code => some (.subImm (imm [a, b, c, d]), code)
  | 0x66 :: 0x90 :: code => some (.nop, code)
  | 0x90 :: code => some (.nop, code)
  | 0x8d :: m :: a :: b :: c :: d :: code =>
    (baseOf m).map fun base => (.lea (regOf m) base (imm [a, b, c, d]), code)
  | 0x8b :: m :: a :: b :: c :: d :: code =>
    (baseOf m).map fun base => (.mov (regOf m) base (imm [a, b, c, d]), code)
  | _ => none

/-! ## Execution -/

/-- The words of the memory, and those of the segment `%gs`. -/
structure Machine where
  load : BitVec 32 → BitVec 32
  gs : BitVec 32 → BitVec 32

abbrev Regs := Reg → BitVec 32

def address (regs : Regs) (base : Option Reg) (disp : BitVec 32) : BitVec 32 :=
  match base with
  | some r => regs r + disp
  | none => disp

def exec (m : Machine) (regs : Regs) : Instr → Regs
  | .lea dst base disp => Function.update regs dst (address regs base disp)
  | .mov dst base disp => Function.update regs dst (m.load (address regs base disp))
  | .movGs disp => Function.update regs 0 (m.gs disp)
  | .addImm x => Function.update regs 0 (regs 0 + x)
  | .subImm x => Function.update regs 0 (regs 0 - x)
  | .nop => regs

/-- At most `n` instructions, which have to be all of the code. -/
def runTo (m : Machine) : ℕ → List Byte → Regs → Option Regs
  | _, [], regs => some regs
  | 0, _ :: _, _ => none
  | n + 1, code, regs => (decode code).bind fun (i, rest) => runTo m n rest (exec m regs i)

def run (m : Machine) (code : List Byte) (regs : Regs) : Option Regs :=
  runTo m code.length code regs

section Decode

variable {n : ℕ} {m : Machine} {regs : Regs} {code : List Byte}

theorem imm_le32 (val : BitVec 32) : imm (le32 val) = val := by
  have hlt : val.toNat < 256 ^ 4 := val.isLt
  rw [imm, le32, readLe_le_of_lt hlt, BitVec.ofNat_toNat, BitVec.setWidth_eq]

theorem baseOf_modRM (reg : Reg) (base : Option BaseReg) :
    baseOf (modRM reg base) = some (base.map Subtype.val) := by
  cases base with
  | none =>
    revert reg
    decide
  | some base =>
    obtain ⟨r, hr⟩ := base
    revert reg r hr
    decide

theorem regOf_modRM (reg : Reg) (base : Option BaseReg) : regOf (modRM reg base) = reg := by
  cases base with
  | none =>
    revert reg
    decide
  | some base =>
    obtain ⟨r, hr⟩ := base
    revert reg r hr
    decide

@[simp] theorem runTo_nil : runTo m n [] regs = some regs := by
  cases n <;> rfl

theorem runTo_lea (dst : Reg) (base : Option BaseReg) (val : BitVec 32) :
    runTo m (n + 1) (0x8d :: modRM dst base :: (le32 val ++ code)) regs =
      runTo m n code (Function.update regs dst (address regs (base.map Subtype.val) val)) := by
  have hdecode : decode (0x8d :: modRM dst base :: (le32 val ++ code)) =
      some (.lea dst (base.map Subtype.val) val, code) := by
    change (baseOf (modRM dst base)).map
      (fun b => (Instr.lea (regOf (modRM dst base)) b (imm (le32 val)), code)) = _
    rw [baseOf_modRM, regOf_modRM, imm_le32, Option.map_some]
  rw [runTo, hdecode]
  · rfl
  · simp

theorem runTo_mov (dst : Reg) (base : Option BaseReg) (val : BitVec 32) :
    runTo m (n + 1) (0x8b :: modRM dst base :: (le32 val ++ code)) regs =
      runTo m n code
        (Function.update regs dst (m.load (address regs (base.map Subtype.val) val))) := by
  have hdecode : decode (0x8b :: modRM dst base :: (le32 val ++ code)) =
      some (.mov dst (base.map Subtype.val) val, code) := by
    change (baseOf (modRM dst base)).map
      (fun b => (Instr.mov (regOf (modRM dst base)) b (imm (le32 val)), code)) = _
    rw [baseOf_modRM, regOf_modRM, imm_le32, Option.map_some]
  rw [runTo, hdecode]
  · rfl
  · simp

theorem runTo_addImm (val : BitVec 32) :
    runTo m (n + 1) (0x81 :: 0xc0 :: (le32 val ++ code)) regs =
      runTo m n code (Function.update regs 0 (regs 0 + val)) := by
  change runTo m n code (Function.update regs 0 (regs 0 + imm (le32 val))) = _
  rw [imm_le32]

theorem runTo_subImm (val : BitVec 32) :
    runTo m (n + 1) (0x2d :: (le32 val ++ code)) regs =
      runTo m n code (Function.update regs 0 (regs 0 - val)) := by
  change runTo m n code (Function.update regs 0 (regs 0 - imm (le32 val))) = _
  rw [imm_le32]

theorem runTo_nop : runTo m (n + 1) (0x90 :: code) regs = runTo m n code regs := rfl

theorem runTo_nop2 : runTo m (n + 1) (0x66 :: 0x90 :: code) regs = runTo m n code regs := rfl

end Decode

end Mold.Lib.I386
