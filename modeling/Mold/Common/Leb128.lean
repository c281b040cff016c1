import Mold.Lib.Uleb128

/-!
# ULEB128 in `common.h`

`writeUleb` produces the standard encoding of an unsigned number.  `ulebSize`
stops counting at nine bytes, although a number of 64 bits may need ten.
`readUleb` shifts the payload of a byte in the type `int`: the result is the
encoded number up to `2 ^ 31`, and it is right modulo `2 ^ 32` in any case.
-/

namespace Mold.Common

open Mold.Lib

def writeUleb (val : ℕ) : List Byte :=
  Uleb.encode val

/-- `encode_uleb` of an argument that is converted to 64 bits. -/
def encodeUleb (val : ℤ) : List Byte :=
  Uleb.encode (val % 2 ^ 64).toNat

def encodeSleb (val : ℤ) : List Byte :=
  Sleb.encode val

def ulebSize (val : ℕ) : ℕ :=
  ((List.range' 1 8).find? fun i => decide (val < 2 ^ (7 * i))).getD 9

/-- `(byte & 0x7f) << shift` in the type `int`, converted to 64 bits.  A shift
by 32 or more is undefined; no bit of the payload is kept here. -/
def shiftPayload (byte : Byte) (shift : ℕ) : ℕ :=
  let val := ((byte.val % 128) <<< shift) % 2 ^ 32
  if val < 2 ^ 31 then val else val + (2 ^ 64 - 2 ^ 32)

/-- The loop of `read_uleb`. -/
def readUlebFrom : ℕ → ℕ → List Byte → Option (ℕ × List Byte)
  | _, _, [] => none
  | shift, val, byte :: buf =>
    let val := val ||| shiftPayload byte shift
    if byte.val < 128 then some (val, buf)
    else readUlebFrom (shift + 7) val buf

/-- `read_uleb`: the value and the bytes after it. -/
def readUleb (buf : List Byte) : Option (ℕ × List Byte) :=
  readUlebFrom 0 0 buf

/-! ## The number of bytes -/

theorem ulebSize_eq (val : ℕ) : ulebSize val = min (Uleb.encode val).length 9 := by
  have hpos := Uleb.length_encode_pos val
  have h₁ := Uleb.length_encode_le_iff 0 val
  have h₂ := Uleb.length_encode_le_iff 1 val
  have h₃ := Uleb.length_encode_le_iff 2 val
  have h₄ := Uleb.length_encode_le_iff 3 val
  have h₅ := Uleb.length_encode_le_iff 4 val
  have h₆ := Uleb.length_encode_le_iff 5 val
  have h₇ := Uleb.length_encode_le_iff 6 val
  have h₈ := Uleb.length_encode_le_iff 7 val
  simp only [ulebSize, List.range', List.find?_cons, List.find?_nil]
  norm_num only at h₁ h₂ h₃ h₄ h₅ h₆ h₇ h₈ ⊢
  repeat' split
  all_goals simp_all
  all_goals omega

theorem ulebSize_pos (val : ℕ) : 0 < ulebSize val := by
  have hpos := Uleb.length_encode_pos val
  rw [ulebSize_eq]
  omega

theorem ulebSize_le (val : ℕ) : ulebSize val ≤ 9 := by
  rw [ulebSize_eq]
  exact min_le_right _ _

theorem ulebSize_mono {m n : ℕ} (h : m ≤ n) : ulebSize m ≤ ulebSize n := by
  have hlen := Uleb.length_encode_mono h
  rw [ulebSize_eq, ulebSize_eq]
  omega

theorem ulebSize_le_five {val : ℕ} (h : val < 2 ^ 32) : ulebSize val ≤ 5 := by
  have hlen := (Uleb.length_encode_le_iff 4 val).mpr (h.trans (by decide))
  rw [ulebSize_eq]
  omega

theorem length_writeUleb {val : ℕ} (h : val < 2 ^ 63) : (writeUleb val).length = ulebSize val := by
  have hlen := (Uleb.length_encode_le_iff 8 val).mpr h
  rw [writeUleb, ulebSize_eq]
  omega

theorem ulebSize_lt_length_writeUleb {val : ℕ} (h : 2 ^ 63 ≤ val) :
    ulebSize val < (writeUleb val).length := by
  have hlen := mt (Uleb.length_encode_le_iff 8 val).mp (by omega)
  rw [writeUleb, ulebSize_eq]
  omega

theorem shiftPayload_mod (byte : Byte) (shift : ℕ) :
    shiftPayload byte shift % 2 ^ 32 = ((byte.val % 128) <<< shift) % 2 ^ 32 := by
  simp only [shiftPayload]
  split <;> omega

theorem shiftPayload_of_lt {byte : Byte} {shift : ℕ} (h : (byte.val % 128) <<< shift < 2 ^ 31) :
    shiftPayload byte shift = (byte.val % 128) <<< shift := by
  have hmod : ((byte.val % 128) <<< shift) % 2 ^ 32 = (byte.val % 128) <<< shift :=
    Nat.mod_eq_of_lt (h.trans (by decide))
  rw [shiftPayload, hmod]
  exact if_pos h

theorem shiftLeft_eq_or (n shift : ℕ) :
    n <<< shift = ((n % 128) <<< shift) ||| ((n / 128) <<< (shift + 7)) := by
  have hsplit : n = (n % 128) ||| ((n / 128) <<< 7) := by
    have hor := Nat.two_pow_add_eq_or_of_lt (i := 7) (Nat.mod_lt n (by decide)) (n / 128)
    rw [Nat.shiftLeft_eq, Nat.or_comm, Nat.mul_comm, ← hor]
    omega
  conv_lhs => rw [hsplit]
  rw [Nat.shiftLeft_or_distrib, ← Nat.shiftLeft_add, Nat.add_comm 7]

theorem readUlebFrom_encode (n shift val : ℕ) (rest : List Byte) :
    ∃ result,
      readUlebFrom shift val (Uleb.encode n ++ rest) = some (result, rest) ∧
        result % 2 ^ 32 = (val ||| n <<< shift) % 2 ^ 32 ∧
        (n <<< shift < 2 ^ 31 → result = val ||| n <<< shift) := by
  induction n using Uleb.encode.induct generalizing shift val with
  | case1 n hlast =>
    have hlt : n < 128 := by omega
    have hbyte : (Fin.ofNat 256 n).val = n := by
      rw [Fin.val_ofNat]
      omega
    have hmod : (Fin.ofNat 256 n).val % 128 = n := by omega
    have hpayload := shiftPayload_mod (Fin.ofNat 256 n) shift
    rw [hmod] at hpayload
    refine ⟨val ||| shiftPayload (Fin.ofNat 256 n) shift, ?_, ?_, ?_⟩
    · rw [Uleb.encode_of_lt hlt, List.singleton_append, readUlebFrom, hbyte]
      exact if_pos hlt
    · rw [Nat.or_mod_two_pow, hpayload, ← Nat.or_mod_two_pow]
    · intro hsmall
      rw [shiftPayload_of_lt] <;> rw [hmod]
      exact hsmall
  | case2 n hmore ih =>
    have hval : (n % 128 + 128) % 128 = n % 128 := by omega
    have hpayload := shiftPayload_mod (Fin.ofNat 256 (n % 128 + 128)) shift
    rw [Uleb.val_more, hval] at hpayload
    obtain ⟨result, hread, hmod, hexact⟩ := ih (shift + 7)
      (val ||| shiftPayload (Fin.ofNat 256 (n % 128 + 128)) shift)
    refine ⟨result, ?_, ?_, ?_⟩
    · rw [Uleb.encode_more hmore, List.cons_append, readUlebFrom, Uleb.val_more]
      exact (if_neg (by omega)).trans hread
    · rw [hmod, shiftLeft_eq_or n shift, ← Nat.or_assoc, Nat.or_mod_two_pow,
        Nat.or_mod_two_pow (a := val), hpayload, ← Nat.or_mod_two_pow,
        ← Nat.or_mod_two_pow]
    · intro hlt
      rw [shiftLeft_eq_or n shift] at hlt
      have hlow : (n % 128) <<< shift < 2 ^ 31 :=
        Nat.left_le_or.trans_lt hlt
      have hhigh : (n / 128) <<< (shift + 7) < 2 ^ 31 :=
        Nat.right_le_or.trans_lt hlt
      rw [hexact hhigh, shiftLeft_eq_or n shift, ← Nat.or_assoc,
        shiftPayload_of_lt] <;> rw [Uleb.val_more, hval]
      exact hlow

theorem readUleb_writeUleb {n : ℕ} (h : n < 2 ^ 31) (rest : List Byte) :
    readUleb (writeUleb n ++ rest) = some (n, rest) := by
  obtain ⟨result, hread, -, hexact⟩ := readUlebFrom_encode n 0 0 rest
  rw [readUleb, writeUleb, hread, hexact (by simpa using h)]
  simp

theorem readUleb_writeUleb_mod (n : ℕ) (rest : List Byte) :
    ∃ result, readUleb (writeUleb n ++ rest) = some (result, rest) ∧
      result % 2 ^ 32 = n % 2 ^ 32 := by
  obtain ⟨result, hread, hmod, -⟩ := readUlebFrom_encode n 0 0 rest
  exact ⟨result, hread, by simpa using hmod⟩

end Mold.Common
