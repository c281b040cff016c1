import Mathlib.Data.Nat.Bitwise
import Mathlib.Data.Nat.Log
import Mathlib.Order.Fin.Basic
import Mathlib.Tactic.Ring

/-!
# LEB128

The little-endian base 128 encoding of the natural numbers: seven payload bits
in every byte, and the high bit set in every byte but the last.  The encoding of
an integer ends when the rest is the sign of the last payload.

An opcode is a byte with operands behind it.  An interpreter executes one opcode
after another, keeps registers between them and outputs events, until an opcode
stops it.  What pieces of a program do can be put together.
-/

namespace Mold.Lib

abbrev Byte := Fin 256

instance instNeZeroByte : NeZero 256 := ⟨by decide⟩

namespace Uleb

/-- The shortest encoding of `n`. -/
def encode (n : ℕ) : List Byte :=
  if n / 128 = 0 then [Fin.ofNat 256 (n % 128)]
  else Fin.ofNat 256 (n % 128 + 128) :: encode (n / 128)
termination_by n
decreasing_by omega

def decode : List Byte → Option (ℕ × List Byte)
  | [] => none
  | b :: bytes =>
    if b.val < 128 then
      some (b.val, bytes)
    else
      match decode bytes with
      | none => none
      | some (n, rest) => some (b.val % 128 + 128 * n, rest)

theorem encode_last {n : ℕ} (h : n / 128 = 0) : encode n = [Fin.ofNat 256 (n % 128)] := by
  rw [encode, if_pos h]

theorem encode_more {n : ℕ} (h : n / 128 ≠ 0) :
    encode n = Fin.ofNat 256 (n % 128 + 128) :: encode (n / 128) := by
  rw [encode, if_neg h]

@[simp] theorem val_last (n : ℕ) : (Fin.ofNat 256 (n % 128)).val = n % 128 := by
  rw [Fin.val_ofNat]
  omega

@[simp] theorem val_more (n : ℕ) : (Fin.ofNat 256 (n % 128 + 128)).val = n % 128 + 128 := by
  rw [Fin.val_ofNat]
  omega

theorem encode_ne_nil (n : ℕ) : encode n ≠ [] := by
  rw [encode]
  split <;> simp

theorem encode_of_lt {n : ℕ} (h : n < 128) : encode n = [Fin.ofNat 256 n] := by
  rw [encode_last (Nat.div_eq_of_lt h), Nat.mod_eq_of_lt h]

/-- Decoding gives back the number and the bytes after it. -/
theorem decode_encode_append (n : ℕ) (rest : List Byte) :
    decode (encode n ++ rest) = some (n, rest) := by
  induction n using encode.induct with
  | case1 n hlast =>
    rw [encode_last hlast, List.singleton_append, decode, val_last]
    have hmod : n % 128 = n := by omega
    simp only [hmod]
    rw [if_pos (by omega)]
  | case2 n hmore ih =>
    rw [encode_more hmore, List.cons_append, decode, val_more, ih, if_neg (by omega)]
    have hvalue : (n % 128 + 128) % 128 + 128 * (n / 128) = n := by omega
    simp only [hvalue]

/-! ## The length of an encoding -/

/-- `k` bytes hold the numbers of `7 * k` bits. -/
theorem length_encode_le_iff (k n : ℕ) : (encode n).length ≤ k + 1 ↔ n < 2 ^ (7 * (k + 1)) := by
  induction k generalizing n with
  | zero =>
    by_cases hlast : n / 128 = 0
    · rw [encode_last hlast]
      simp only [List.length_singleton, zero_add, le_refl, true_iff]
      omega
    · have hpos : 0 < (encode (n / 128)).length :=
        List.length_pos_iff.mpr (encode_ne_nil _)
      rw [encode_more hlast, List.length_cons]
      omega
  | succ k ih =>
    have hpow : 2 ^ (7 * (k + 1 + 1)) = 2 ^ (7 * (k + 1)) * 128 := by ring
    by_cases hlast : n / 128 = 0
    · have hpos : 0 < 2 ^ (7 * (k + 1)) := Nat.two_pow_pos _
      rw [encode_last hlast]
      simp only [List.length_singleton]
      omega
    · rw [encode_more hlast, List.length_cons, Nat.add_le_add_iff_right, ih,
        hpow, Nat.div_lt_iff_lt_mul (by decide)]

theorem length_encode_pos (n : ℕ) : 0 < (encode n).length :=
  List.length_pos_iff.mpr (encode_ne_nil n)

theorem length_encode_mono {m n : ℕ} (h : m ≤ n) : (encode m).length ≤ (encode n).length := by
  have hpos := length_encode_pos n
  obtain ⟨k, hk⟩ : ∃ k, (encode n).length = k + 1 := ⟨_, (by omega :
    (encode n).length = ((encode n).length - 1) + 1)⟩
  have hn := (length_encode_le_iff k n).mp hk.le
  rw [hk]
  exact (length_encode_le_iff k m).mpr (h.trans_lt hn)

end Uleb

/-! ## Signed numbers -/

namespace Sleb

/-- The rest `val` repeats the sign bit of the payload. -/
def IsSign (payload : ℕ) (val : ℤ) : Prop :=
  val = 0 ∧ payload < 64 ∨ val = -1 ∧ 64 ≤ payload

instance instDecidableIsSign (payload : ℕ) (val : ℤ) : Decidable (IsSign payload val) :=
  inferInstanceAs (Decidable (_ ∨ _))

/-- The shortest encoding of `z`. -/
def encode (z : ℤ) : List Byte :=
  if IsSign (z % 128).toNat (z / 128) then [Fin.ofNat 256 (z % 128).toNat]
  else Fin.ofNat 256 ((z % 128).toNat + 128) :: encode (z / 128)
termination_by z.natAbs
decreasing_by
  simp only [IsSign] at *
  omega

def decode : List Byte → Option (ℤ × List Byte)
  | [] => none
  | b :: bytes =>
    if b.val < 128 then
      some (if b.val < 64 then (b.val : ℤ) else b.val - 128, bytes)
    else
      match decode bytes with
      | none => none
      | some (n, rest) => some ((b.val % 128 : ℕ) + 128 * n, rest)

/-- Decoding gives back the number and the bytes after it. -/
theorem decode_encode_append (z : ℤ) (rest : List Byte) :
    decode (encode z ++ rest) = some (z, rest) := by
  induction z using encode.induct with
  | case1 z hsign =>
    have hval : (Fin.ofNat 256 (z % 128).toNat).val = (z % 128).toNat := by
      rw [Fin.val_ofNat]
      omega
    rw [encode, if_pos hsign, List.singleton_append, decode, hval, if_pos (by omega)]
    simp only [IsSign] at hsign
    simp only [Option.some.injEq, Prod.mk.injEq, and_true]
    split <;> omega
  | case2 z hmore ih =>
    have hval : (Fin.ofNat 256 ((z % 128).toNat + 128)).val = (z % 128).toNat + 128 := by
      rw [Fin.val_ofNat]
      omega
    rw [encode, if_neg hmore, List.cons_append, decode, hval, ih, if_neg (by omega)]
    simp only [Option.some.injEq, Prod.mk.injEq, and_true]
    omega

end Sleb

/-! ## Streams of opcodes -/

/-- An opcode stops the program or goes on with new registers and some events. -/
inductive Effect (σ ε : Type*) where
  | stop
  | next (st : σ) (out : List ε)

/-- Executing one opcode gives its effect and the bytes behind its operands. -/
structure Interpreter (σ ε : Type*) where
  exec : σ → Byte → List Byte → Option (Effect σ ε × List Byte)

namespace Interpreter

variable {σ ε : Type*} (m : Interpreter σ ε)

/-- The events of a program and the bytes behind the opcode that stops it. -/
def run : ℕ → σ → List Byte → Option (List ε × List Byte)
  | 0, _, _ => none
  | _ + 1, _, [] => none
  | fuel + 1, st, b :: bytes =>
    match m.exec st b bytes with
    | none => none
    | some (.stop, rest) => some ([], rest)
    | some (.next st' out, rest) =>
      (run fuel st' rest).map fun result => (out ++ result.1, result.2)

/-- Interpret a program.  Every opcode has at least one byte. -/
def interpret (st : σ) (bytes : List Byte) : Option (List ε × List Byte) :=
  m.run bytes.length st bytes

/-- The bytes `code` are executed completely, whatever is behind them. -/
def Executes (st : σ) (code : List Byte) (out : List ε) (st' : σ) : Prop :=
  ∃ k ≤ code.length, ∀ fuel rest, m.run (fuel + k) st (code ++ rest) =
    (m.run fuel st' rest).map fun result => (out ++ result.1, result.2)

variable {m}

theorem Executes.refl (st : σ) : m.Executes st [] [] st :=
  ⟨0, le_refl 0, fun fuel rest => by simp⟩

theorem Executes.trans {st st' st'' : σ} {code code' : List Byte} {out out' : List ε}
    (h : m.Executes st code out st') (h' : m.Executes st' code' out' st'') :
    m.Executes st (code ++ code') (out ++ out') st'' := by
  obtain ⟨k, hk, hrun⟩ := h
  obtain ⟨k', hk', hrun'⟩ := h'
  refine ⟨k' + k, ?_, fun fuel rest => ?_⟩
  · rw [List.length_append]
    omega
  · rw [List.append_assoc, ← Nat.add_assoc, hrun, hrun', Option.map_map]
    simp only [Function.comp_def, List.append_assoc]

variable {st st' : σ}

theorem Executes.of_exec {b : Byte} {operands : List Byte} {out : List ε}
    (h : ∀ rest, m.exec st b (operands ++ rest) = some (.next st' out, rest)) :
    m.Executes st (b :: operands) out st' := by
  refine ⟨1, ?_, fun fuel rest => ?_⟩
  · rw [List.length_cons]
    omega
  · rw [List.cons_append, run, h]

theorem Executes.of_ite {p : Prop} [Decidable p] {code : List Byte}
    (hskip : p → st = st') (hcode : ¬p → m.Executes st code [] st') :
    m.Executes st (if p then [] else code) [] st' := by
  split
  case isTrue h =>
    rw [hskip h]
    exact .refl st'
  case isFalse h => exact hcode h

/-- A program ends at the first opcode that stops it. -/
theorem Executes.interpret_eq {code rest : List Byte} {b : Byte}
    {out : List ε} (h : m.Executes st code out st')
    (hstop : m.exec st' b rest = some (.stop, rest)) :
    m.interpret st (code ++ b :: rest) = some (out, rest) := by
  obtain ⟨k, hk, hrun⟩ := h
  have hlen : (code ++ b :: rest).length = (code.length - k + rest.length) + 1 + k := by
    rw [List.length_append, List.length_cons]
    omega
  rw [interpret, hlen, hrun, run, hstop, Option.map_some, List.append_nil]

end Interpreter

theorem opcode_or {op k : ℕ} (hop : op < 16) (hk : k < 16) :
    (Fin.ofNat 256 (16 * op ||| k)).val / 16 = op ∧
      (Fin.ofNat 256 (16 * op ||| k)).val % 16 = k := by
  have hor : 2 ^ 4 * op + k = 2 ^ 4 * op ||| k := Nat.two_pow_add_eq_or_of_lt hk op
  rw [Fin.val_ofNat, show 16 * op ||| k = 16 * op + k from hor.symm]
  omega

end Mold.Lib
