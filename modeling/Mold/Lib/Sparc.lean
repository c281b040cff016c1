import Mold.Lib.BitField

/-!
# Constants of SPARC V9

The instructions with which a 64-bit SPARC makes a constant: `sethi` sets bits 31 to 10 of a
register and clears the others, and `add`, `or` and `xor` take a signed number of 13 bits.  So
`sethi` and `or` make a number of 32 bits, and `sethi` and `xor` with a negative number make a
negative one.
-/

namespace Mold.Lib.Sparc

open BitField

inductive Op where
  | add
  | or
  | xor
  deriving DecidableEq

def Op.code : Op → ℕ
  | .add => 0
  | .or => 2
  | .xor => 3

def Op.eval : Op → ℕ → ℕ → ℕ
  | .add, a, b => (a + b) % 2 ^ 64
  | .or, a, b => a ||| b
  | .xor, a, b => a ^^^ b

inductive Instr where
  | sethi (rd imm : ℕ)
  | alu (op : Op) (rd rs₁ imm : ℕ)
  | aluReg (op : Op) (rd rs₁ rs₂ : ℕ)
  | sllx (rd rs₁ count : ℕ)
  | ldx (rd rs₁ rs₂ : ℕ)
  deriving DecidableEq

/-! ## Decoding -/

def rd (w : ℕ) : ℕ := w / 2 ^ 25 % 32

def op3 (w : ℕ) : ℕ := w / 2 ^ 19 % 64

def rs1 (w : ℕ) : ℕ := w / 2 ^ 14 % 32

def rs2 (w : ℕ) : ℕ := w % 32

def op? : ℕ → Option Op
  | 0 => some .add
  | 2 => some .or
  | 3 => some .xor
  | _ => none

/-- The instruction that a word encodes, if it is one of these. -/
def decode (w : ℕ) : Option Instr :=
  if w / 2 ^ 30 = 0 ∧ w / 2 ^ 22 % 8 = 4 then some (.sethi (rd w) (w % 2 ^ 22))
  else if w / 2 ^ 30 = 2 ∧ op3 w = 0x25 ∧ w / 2 ^ 12 % 4 = 3 then
    some (.sllx (rd w) (rs1 w) (w % 64))
  else if w / 2 ^ 30 = 2 ∧ w / 2 ^ 13 % 2 = 1 then
    (op? (op3 w)).map fun op => .alu op (rd w) (rs1 w) (w % 2 ^ 13)
  else if w / 2 ^ 30 = 2 ∧ w / 2 ^ 5 % 2 ^ 9 = 0 then
    (op? (op3 w)).map fun op => .aluReg op (rd w) (rs1 w) (rs2 w)
  else if w / 2 ^ 30 = 3 ∧ op3 w = 0xb ∧ w / 2 ^ 5 % 2 ^ 9 = 0 then
    some (.ldx (rd w) (rs1 w) (rs2 w))
  else none

/-- `sethi` with an empty immediate number. -/
def sethiWord (d : ℕ) : ℕ := d * 2 ^ 25 + 4 * 2 ^ 22

def aluWord (op : Op) (d s : ℕ) : ℕ :=
  2 * 2 ^ 30 + d * 2 ^ 25 + op.code * 2 ^ 19 + s * 2 ^ 14 + 2 ^ 13

def sllxWord (d s count : ℕ) : ℕ :=
  2 * 2 ^ 30 + d * 2 ^ 25 + 0x25 * 2 ^ 19 + s * 2 ^ 14 + 3 * 2 ^ 12 + count

def ldxWord (d s t : ℕ) : ℕ :=
  3 * 2 ^ 30 + d * 2 ^ 25 + 0xb * 2 ^ 19 + s * 2 ^ 14 + t

def addWord (d s t : ℕ) : ℕ := 2 * 2 ^ 30 + d * 2 ^ 25 + s * 2 ^ 14 + t

section Decode

variable {d s t x : ℕ} {op : Op}

theorem decode_sethi (hd : d < 32) (hx : x < 2 ^ 22) :
    decode (sethiWord d ||| x) = some (.sethi d x) := by
  rw [or_low (by rw [sethiWord]; omega) hx, sethiWord, decode, rd, if_pos (by omega)]
  congr 2 <;> omega

theorem op?_code (op : Op) : op? op.code = some op := by
  cases op <;> rfl

theorem decode_alu (hd : d < 32) (hs : s < 32) (hx : x < 2 ^ 13) :
    decode (aluWord op d s ||| x) = some (.alu op d s x) := by
  have hcode : op.code < 4 := by
    cases op <;> decide
  rw [or_low (by rw [aluWord]; omega) hx, aluWord, decode]
  generalize hc : op.code = c at hcode
  have hop : op3 (2 * 2 ^ 30 + d * 2 ^ 25 + c * 2 ^ 19 + s * 2 ^ 14 + 2 ^ 13 + x) = c := by
    rw [op3]
    omega
  have himm : (2 * 2 ^ 30 + d * 2 ^ 25 + c * 2 ^ 19 + s * 2 ^ 14 + 2 ^ 13 + x) % 2 ^ 13 = x := by
    omega
  have hd' : rd (2 * 2 ^ 30 + d * 2 ^ 25 + c * 2 ^ 19 + s * 2 ^ 14 + 2 ^ 13 + x) = d := by
    rw [rd]
    omega
  have hs' : rs1 (2 * 2 ^ 30 + d * 2 ^ 25 + c * 2 ^ 19 + s * 2 ^ 14 + 2 ^ 13 + x) = s := by
    rw [rs1]
    omega
  rw [if_neg (by omega), if_neg (by rw [hop]; omega), if_pos (by omega), hop, himm, hd', hs', ← hc,
    op?_code, Option.map_some]

theorem decode_sllx (hd : d < 32) (hs : s < 32) (hx : x < 64) :
    decode (sllxWord d s x) = some (.sllx d s x) := by
  have hop : op3 (sllxWord d s x) = 0x25 := by
    rw [op3, sllxWord]
    omega
  rw [decode, hop, sllxWord, if_neg (by omega), if_pos (by omega), rd, rs1]
  congr 2 <;> omega

theorem decode_add (hd : d < 32) (hs : s < 32) (ht : t < 32) :
    decode (addWord d s t) = some (.aluReg .add d s t) := by
  have htop : addWord d s t / 2 ^ 30 = 2 := by
    rw [addWord]
    omega
  have hop : op3 (addWord d s t) = 0 := by
    rw [op3, addWord]
    omega
  have hbit : addWord d s t / 2 ^ 13 % 2 = 0 := by
    have hdiv : addWord d s t / 2 ^ 13 = 2 * (2 ^ 17 + d * 2 ^ 11 + s) := by
      rw [addWord]
      omega
    rw [hdiv, Nat.mul_mod_right]
  have hlow : addWord d s t / 2 ^ 5 % 2 ^ 9 = 0 := by
    rw [addWord]
    omega
  have hd' : rd (addWord d s t) = d := by
    rw [rd, addWord]
    omega
  have hs' : rs1 (addWord d s t) = s := by
    rw [rs1, addWord]
    omega
  have ht' : rs2 (addWord d s t) = t := by
    rw [rs2, addWord]
    omega
  rw [decode, htop, hop, hbit, hlow, hd', hs', ht']
  rfl

theorem decode_ldx (hd : d < 32) (hs : s < 32) (ht : t < 32) :
    decode (ldxWord d s t) = some (.ldx d s t) := by
  have hop : op3 (ldxWord d s t) = 0xb := by
    rw [op3, ldxWord]
    omega
  rw [decode, hop, ldxWord, if_neg (by omega), if_neg (by omega), if_neg (by omega),
    if_neg (by omega), if_pos (by omega), rd, rs1, rs2]
  congr 2 <;> omega

end Decode

/-! ## Execution -/

def simm13 (imm : ℕ) : ℕ := if imm < 2 ^ 12 then imm else 2 ^ 64 - 2 ^ 13 + imm

/-- The content of a register.  Register zero is zero. -/
def get (reg : ℕ → ℕ) (r : ℕ) : ℕ := if r = 0 then 0 else reg r

structure Register where
  num : ℕ
  lt : num < 32
  ne_zero : num ≠ 0

variable (load : ℕ → ℕ)

/-- The registers after an instruction, where `load a` is what a load at an address gives. -/
def exec (reg : ℕ → ℕ) : Instr → ℕ → ℕ
  | .sethi d imm => Function.update reg d (imm * 2 ^ 10)
  | .alu op d s imm => Function.update reg d (op.eval (get reg s) (simm13 imm))
  | .aluReg op d s t => Function.update reg d (op.eval (get reg s) (get reg t))
  | .sllx d s count => Function.update reg d (get reg s * 2 ^ count % 2 ^ 64)
  | .ldx d s t => Function.update reg d (load ((get reg s + get reg t) % 2 ^ 64))

/-- The registers after the words of a straight piece of code. -/
def run : (ℕ → ℕ) → List ℕ → Option (ℕ → ℕ)
  | reg, [] => some reg
  | reg, w :: ws => (decode w).bind fun i => run (exec load reg i) ws

variable {load} {reg : ℕ → ℕ}

theorem run_cons {w : ℕ} {i : Instr} (h : decode w = some i) (ws : List ℕ) :
    run load reg (w :: ws) = run load (exec load reg i) ws := by
  rw [run, h, Option.bind_some]

theorem get_update (reg : ℕ → ℕ) (r : Register) (x : ℕ) :
    get (Function.update reg r.num x) r.num = x := by
  rw [get, if_neg r.ne_zero, Function.update_self]

theorem get_update_of_ne {d r : ℕ} (h : r ≠ d) (x : ℕ) :
    get (Function.update reg d x) r = get reg r := by
  rw [get, get, Function.update_of_ne h]

theorem run_sethi_alu (r d : Register) (op : Op) {a x : ℕ} (ha : a < 2 ^ 22)
    (hx : x < 2 ^ 13) (ws : List ℕ) :
    run load reg ((sethiWord r.num ||| a) :: (aluWord op d.num r.num ||| x) :: ws) =
      run load (Function.update (Function.update reg r.num (a * 2 ^ 10)) d.num
        (op.eval (a * 2 ^ 10) (simm13 x))) ws := by
  rw [run_cons (decode_sethi r.lt ha), run_cons (decode_alu d.lt r.lt hx), exec, exec, get_update]

/-! ## Constants -/

theorem simm13_of_lt {x : ℕ} (hx : x < 2 ^ 12) : simm13 x = x := if_pos hx

theorem eval_low (op : Op) {w k x : ℕ} (hw : w % 2 ^ k = 0) (hx : x < 2 ^ k)
    (h64 : w + x < 2 ^ 64) : op.eval w x = w + x := by
  cases op with
  | add => exact Nat.mod_eq_of_lt h64
  | or => exact or_low hw hx
  | xor => exact xor_low hw hx

theorem xor_ones {y : ℕ} (hy : y < 2 ^ 64) : y ^^^ (2 ^ 64 - 1) = 2 ^ 64 - 1 - y := by
  rw [Nat.xor_comm]
  apply Nat.eq_of_testBit_eq
  intro i
  have hsub : 2 ^ 64 - 1 - y = 2 ^ 64 - (y + 1) := by omega
  rw [hsub, Nat.testBit_two_pow_sub_succ hy, Nat.testBit_xor, Nat.testBit_two_pow_sub_one]
  by_cases hi : i < 64
  · rw [decide_eq_true hi, Bool.true_xor, Bool.true_and]
  · have hlt : y < 2 ^ i :=
      hy.trans_le (Nat.pow_le_pow_right (by decide) (Nat.not_lt.mp hi))
    rw [decide_eq_false hi, Nat.testBit_lt_two_pow hlt, Bool.false_xor, Bool.false_and]

theorem eval_xor_negative {a x : ℕ} (ha : a < 2 ^ 22) (hx : x < 2 ^ 10) :
    Op.xor.eval (a * 2 ^ 10) (simm13 (0x1c00 + x)) = 2 ^ 64 - 2 ^ 10 - a * 2 ^ 10 + x := by
  have hnot : 2 ^ 10 - 1 - x < 2 ^ 10 := by omega
  have hneg : simm13 (0x1c00 + x) = (2 ^ 10 - 1 - x) ^^^ (2 ^ 64 - 1) := by
    rw [xor_ones (by omega), simm13, if_neg (by omega)]
    omega
  rw [Op.eval, hneg, ← Nat.xor_assoc, xor_low (Nat.mul_mod_left _ _) hnot, xor_ones (by omega)]
  omega

end Mold.Lib.Sparc
