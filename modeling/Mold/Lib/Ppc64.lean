import Mold.Lib.StoredBits

/-!
# Calls on 64-bit PowerPC

The little-endian instructions of calls and of the code that calls go through: a branch that
sets the link register, loads and stores of doublewords, the computation of addresses from a
register or from the program counter, and the branch to the count register.  Instructions with
a prefix have two words, which may not be in two blocks of 64 bytes.
-/

namespace Mold.Lib.Ppc64

open BitField

inductive Instr where
  | bl (disp : BitVec 64)
  | std (rs ra : ℕ) (disp : BitVec 64)
  | ld (rt ra : ℕ) (disp : BitVec 64)
  | addi (rt ra : ℕ) (imm : BitVec 64)
  | addis (rt ra : ℕ) (imm : BitVec 64)
  | mtctr (rs : ℕ)
  | bctr
  | nop
  | pld (rt : ℕ) (disp : BitVec 64)
  | pla (rt : ℕ) (disp : BitVec 64)
  deriving DecidableEq

/-! ## Decoding -/

def rt (w : ℕ) : ℕ := w / 2 ^ 21 % 32

def ra (w : ℕ) : ℕ := w / 2 ^ 16 % 32

def imm16 (w : ℕ) : BitVec 64 := signExtend (BitVec.ofNat 64 (w % 2 ^ 16)) 15

def decode (w : ℕ) : Option Instr :=
  if w / 2 ^ 26 = 18 ∧ w % 4 = 1 then
    some (.bl (signExtend (BitVec.ofNat 64 (w / 4 % 2 ^ 24 * 4)) 25))
  else if w / 2 ^ 26 = 62 ∧ w % 4 = 0 then some (.std (rt w) (ra w) (imm16 w))
  else if w / 2 ^ 26 = 58 ∧ w % 4 = 0 then some (.ld (rt w) (ra w) (imm16 w))
  else if w / 2 ^ 26 = 14 then some (.addi (rt w) (ra w) (imm16 w))
  else if w / 2 ^ 26 = 15 then some (.addis (rt w) (ra w) (imm16 w))
  else if w / 2 ^ 26 = 31 ∧ w % 2 ^ 21 = 0x903a6 then some (.mtctr (rt w))
  else if w = 0x4e800420 then some .bctr
  else if w = 0x60000000 then some .nop
  else none

/-- The signed number of 34 bits in the two words of an instruction with a prefix. -/
def imm34 (p w : ℕ) : BitVec 64 :=
  signExtend (BitVec.ofNat 64 (p % 2 ^ 18 * 2 ^ 16 + w % 2 ^ 16)) 33

/-- The instruction of a prefix and a word.  The address is relative to the instruction. -/
def decodePrefixed (p w : ℕ) : Option Instr :=
  if p / 2 ^ 18 = 0x104 ∧ w / 2 ^ 26 = 57 ∧ ra w = 0 then some (.pld (rt w) (imm34 p w))
  else if p / 2 ^ 18 = 0x184 ∧ w / 2 ^ 26 = 14 ∧ ra w = 0 then some (.pla (rt w) (imm34 p w))
  else none

/-! ## Execution -/

structure State where
  pc : BitVec 64
  gpr : ℕ → BitVec 64
  lr : BitVec 64
  ctr : BitVec 64
  mem : Memory

def load64 (mem : Memory) (a : BitVec 64) : BitVec 64 :=
  BitVec.ofNat 64 (loadField .little 8 mem a.toNat)

def store64 (mem : Memory) (a v : BitVec 64) : Memory :=
  storeField .little 8 mem a.toNat v.toNat

theorem load64_store64 (mem : Memory) (a v : BitVec 64) : load64 (store64 mem a v) a = v := by
  have hlt : v.toNat < 256 ^ 8 := v.isLt
  rw [load64, store64, loadField_storeField, Nat.mod_eq_of_lt hlt, BitVec.ofNat_toNat,
    BitVec.setWidth_eq]

/-- A base register.  Register zero stands for zero. -/
def State.base (s : State) (r : ℕ) : BitVec 64 := if r = 0 then 0 else s.gpr r

def State.set (s : State) (r : ℕ) (v : BitVec 64) : State :=
  { s with gpr := Function.update s.gpr r v }

/-- The state after an instruction, but for the program counter of one that does not branch. -/
def exec (s : State) : Instr → State
  | .bl d => { s with pc := s.pc + d, lr := s.pc + 4 }
  | .std r b d => { s with pc := s.pc + 4, mem := store64 s.mem (s.base b + d) (s.gpr r) }
  | .ld r b d => { s.set r (load64 s.mem (s.base b + d)) with pc := s.pc + 4 }
  | .addi r b d => { s.set r (s.base b + d) with pc := s.pc + 4 }
  | .addis r b d => { s.set r (s.base b + d <<< 16) with pc := s.pc + 4 }
  | .mtctr r => { s with pc := s.pc + 4, ctr := s.gpr r }
  | .bctr => { s with pc := s.ctr }
  | .nop => { s with pc := s.pc + 4 }
  | .pld r d => { s.set r (load64 s.mem (s.pc + d)) with pc := s.pc + 8 }
  | .pla r d => { s.set r (s.pc + d) with pc := s.pc + 8 }

def fetch (code : Memory) (a : BitVec 64) : ℕ := loadField .little 4 code a.toNat

/-- One instruction.  There is none at an address where a prefix may not be. -/
def step (code : Memory) (s : State) : Option State :=
  if fetch code s.pc / 2 ^ 26 = 1 then
    if s.pc.toNat % 64 = 60 then none
    else (decodePrefixed (fetch code s.pc) (fetch code (s.pc + 4))).map (exec s)
  else (decode (fetch code s.pc)).map (exec s)

def Runs (code : Memory) : State → State → Prop :=
  Relation.ReflTransGen fun s s' => step code s = some s'

theorem step_of_decode {code : Memory} {s : State} {i : Instr}
    (h : decode (fetch code s.pc) = some i) : step code s = some (exec s i) := by
  have hne : ¬fetch code s.pc / 2 ^ 26 = 1 := by
    intro hone
    rw [decode] at h
    rw [if_neg (by omega), if_neg (by omega), if_neg (by omega), if_neg (by omega),
      if_neg (by omega), if_neg (by omega), if_neg (by omega), if_neg (by omega)] at h
    cases h
  rw [step, if_neg hne, h, Option.map_some]

theorem step_of_decodePrefixed {code : Memory} {s : State} {i : Instr}
    (halign : s.pc.toNat % 64 ≠ 60)
    (h : decodePrefixed (fetch code s.pc) (fetch code (s.pc + 4)) = some i) :
    step code s = some (exec s i) := by
  have hone : fetch code s.pc / 2 ^ 26 = 1 := by
    rw [decodePrefixed] at h
    split at h
    · omega
    · split at h
      · omega
      · cases h
  rw [step, if_pos hone, if_neg halign, h, Option.map_some]

def HasWords (code : Memory) (a : BitVec 64) (ws : List ℕ) : Prop :=
  ∀ (k : ℕ) w, ws[k]? = some w → fetch code (a + BitVec.ofNat 64 (4 * k)) = w

section Words

variable {x y : ℕ}

theorem imm16_or {w : ℕ} (hw : w % 2 ^ 16 = 0) (hx : x < 2 ^ 16) :
    imm16 (w + x) = signExtend (BitVec.ofNat 64 x) 15 := by
  have hmod : (w + x) % 2 ^ 16 = x := by omega
  rw [imm16, hmod]

theorem decode_addis_r12_r2 (hx : x < 2 ^ 16) :
    decode (0x3d820000 ||| x) = some (.addis 12 2 (signExtend (BitVec.ofNat 64 x) 15)) := by
  have hrt : rt (0x3d820000 + x) = 12 := by
    rw [rt]
    omega
  have hra : ra (0x3d820000 + x) = 2 := by
    rw [ra]
    omega
  rw [@or_low _ 16 _ (by decide) hx, decode, if_neg (by omega), if_neg (by omega),
    if_neg (by omega), if_neg (by omega), if_pos (by omega), hrt, hra, imm16_or (by decide) hx]

theorem decode_addi_r12_r12 (hx : x < 2 ^ 16) :
    decode (0x398c0000 ||| x) = some (.addi 12 12 (signExtend (BitVec.ofNat 64 x) 15)) := by
  have hrt : rt (0x398c0000 + x) = 12 := by
    rw [rt]
    omega
  have hra : ra (0x398c0000 + x) = 12 := by
    rw [ra]
    omega
  rw [@or_low _ 16 _ (by decide) hx, decode, if_neg (by omega), if_neg (by omega),
    if_neg (by omega), if_pos (by omega), hrt, hra, imm16_or (by decide) hx]

theorem decode_ld_r12_r12 (hx : x < 2 ^ 16) (hfour : x % 4 = 0) :
    decode (0xe98c0000 ||| x) = some (.ld 12 12 (signExtend (BitVec.ofNat 64 x) 15)) := by
  have hrt : rt (0xe98c0000 + x) = 12 := by
    rw [rt]
    omega
  have hra : ra (0xe98c0000 + x) = 12 := by
    rw [ra]
    omega
  rw [@or_low _ 16 _ (by decide) hx, decode, if_neg (by omega), if_neg (by omega),
    if_pos (by omega), hrt, hra, imm16_or (by decide) hx]

theorem imm34_or {p w : ℕ} (hp : p % 2 ^ 18 = 0) (hx : x < 2 ^ 18) (hw : w % 2 ^ 16 = 0)
    (hy : y < 2 ^ 16) :
    imm34 (p + x) (w + y) = signExtend (BitVec.ofNat 64 (x * 2 ^ 16 + y)) 33 := by
  have hp' : (p + x) % 2 ^ 18 = x := by omega
  have hw' : (w + y) % 2 ^ 16 = y := by omega
  rw [imm34, hp', hw']

theorem decodePrefixed_pld_r12 (hx : x < 2 ^ 18) (hy : y < 2 ^ 16) :
    decodePrefixed (0x04100000 ||| x) (0xe5800000 ||| y) =
      some (.pld 12 (signExtend (BitVec.ofNat 64 (x * 2 ^ 16 + y)) 33)) := by
  have hrt : rt (0xe5800000 + y) = 12 := by
    rw [rt]
    omega
  have hra : ra (0xe5800000 + y) = 0 := by
    rw [ra]
    omega
  rw [@or_low _ 18 _ (by decide) hx, @or_low _ 16 _ (by decide) hy, decodePrefixed, hra,
    if_pos (by omega), hrt, imm34_or (by decide) hx (by decide) hy]

theorem decodePrefixed_pla_r12 (hx : x < 2 ^ 18) (hy : y < 2 ^ 16) :
    decodePrefixed (0x06100000 ||| x) (0x39800000 ||| y) =
      some (.pla 12 (signExtend (BitVec.ofNat 64 (x * 2 ^ 16 + y)) 33)) := by
  have hrt : rt (0x39800000 + y) = 12 := by
    rw [rt]
    omega
  have hra : ra (0x39800000 + y) = 0 := by
    rw [ra]
    omega
  rw [@or_low _ 18 _ (by decide) hx, @or_low _ 16 _ (by decide) hy, decodePrefixed, hra,
    if_neg (by omega), if_pos (by omega), hrt, imm34_or (by decide) hx (by decide) hy]

theorem decode_bl (hx : x < 2 ^ 26) (hfour : x % 4 = 0) :
    decode (0x48000001 ||| x) = some (.bl (signExtend (BitVec.ofNat 64 x) 25)) := by
  have hor : 0x48000001 ||| x = 0x48000001 + x := by
    have hone : x ||| 1 = x + 1 := @or_low _ 2 _ hfour (by decide)
    have hhigh : 0x48000000 ||| (x + 1) = 0x48000000 + (x + 1) :=
      @or_low _ 26 _ (by decide) (by omega)
    have hsplit : (0x48000001 : ℕ) = 0x48000000 ||| 1 := by decide
    rw [hsplit, Nat.or_assoc, Nat.or_comm 1, hone, hhigh]
    omega
  have hli : (0x48000001 + x) / 4 % 2 ^ 24 * 4 = x := by omega
  rw [hor, decode, if_pos (by omega), hli]

end Words

/-! ## Addresses in two parts -/

theorem signExtend_eq_ofInt {size n : ℕ} (hsize : size ≤ 63) {b : ℤ}
    (hlow : -(2 : ℤ) ^ size ≤ b) (hhigh : b < (2 : ℤ) ^ size)
    (h : (n : ℤ) % 2 ^ (size + 1) = b % 2 ^ (size + 1)) :
    signExtend (BitVec.ofNat 64 n) size = BitVec.ofInt 64 b := by
  refine signExtend_ofNat hsize hlow hhigh ?_
  rw [← h]
  have hcast : ((n % 2 ^ (size + 1) : ℕ) : ℤ) = (n : ℤ) % 2 ^ (size + 1) := by
    push_cast
    rfl
  rw [← hcast, Int.toNat_natCast]

theorem add_high_low {v base : BitVec 64} (hlow : -2 ^ 31 - 2 ^ 15 ≤ v.toInt)
    (hhigh : v.toInt < 2 ^ 31 - 2 ^ 15) {hi lo : ℕ}
    (hhi : hi = (v.toNat + 0x8000) % 2 ^ 64 / 2 ^ 16 % 2 ^ 16)
    (hlo : lo = v.toNat % 2 ^ 16) :
    base + signExtend (BitVec.ofNat 64 hi) 15 <<< 16 + signExtend (BitVec.ofNat 64 lo) 15 =
      base + v := by
  have hint : v.toInt = if 2 * v.toNat < 2 ^ 64 then (v.toNat : ℤ) else v.toNat - 2 ^ 64 := by
    rw [BitVec.toInt_eq_toNat_cond]
    rfl
  have hlt := v.isLt
  obtain ⟨b, hb⟩ : ∃ b : ℤ, b = (v.toInt + 2 ^ 15) / 2 ^ 16 := ⟨_, rfl⟩
  have hhi' : signExtend (BitVec.ofNat 64 hi) 15 = BitVec.ofInt 64 b := by
    refine signExtend_eq_ofInt (by decide) (by omega) (by omega) ?_
    rw [hhi]
    split at hint <;> omega
  have hlo' : signExtend (BitVec.ofNat 64 lo) 15 = BitVec.ofInt 64 (v.toInt - b * 2 ^ 16) := by
    refine signExtend_eq_ofInt (by decide) (by omega) (by omega) ?_
    rw [hlo]
    split at hint <;> omega
  have hsum : b * 2 ^ 16 + (v.toInt - b * 2 ^ 16) = v.toInt := by ring
  rw [hhi', hlo', ofInt_shiftLeft, BitVec.add_assoc, ← BitVec.ofInt_add, hsum, BitVec.ofInt_toInt]

end Mold.Lib.Ppc64
