import Mathlib.Data.BitVec
import Mold.Common.Leb128
import Mold.Lib.WordMemory

/-!
# The LEB128 codec of `common.h`

The two encoders, the size and the readers, with the machine integers of the source.  All
agree below `2 ^ 31`.  The unbounded reader shifts the payload of a byte as an `int`: from
`2 ^ 31` on the sign of that `int` spoils the result, and from the sixth byte on the shift is
undefined.  The bounded reader converts the payload first and has no such limit.
-/

namespace Mold.Leb128

open Mold.Lib
open Mold.Common (ulebSize shiftPayload shiftLeft_eq_or)

/-! ## Encoders -/

def nextByte (val : UInt64) : Byte :=
  let byte := val &&& 0x7f
  Fin.ofNat 256 (if val >>> 7 ≠ 0 then byte ||| 0x80 else byte).toNat

theorem toNat_shiftRight_seven (val : UInt64) : (val >>> 7).toNat = val.toNat / 128 := by
  rw [UInt64.toNat_shiftRight, Nat.shiftRight_eq_div_pow]
  rfl

variable {val : UInt64}

theorem shiftRight_seven_lt (h : val >>> 7 ≠ 0) : (val >>> 7).toNat < val.toNat := by
  have hne : (val >>> 7).toNat ≠ 0 := fun hzero => h (UInt64.toNat_inj.mp hzero)
  rw [toNat_shiftRight_seven] at hne ⊢
  omega

def encodeUleb (vec : List Byte) (val : UInt64) : List Byte :=
  let vec := vec ++ [nextByte val]
  if val >>> 7 ≠ 0 then encodeUleb vec (val >>> 7) else vec
termination_by val.toNat
decreasing_by exact shiftRight_seven_lt ‹_›

/-- The loop of `write_uleb`. -/
def writeUlebFrom (mem : Memory) (buf i : ℕ) (val : UInt64) : Memory × ℕ :=
  let mem := Function.update mem (buf + i) (nextByte val)
  if val >>> 7 ≠ 0 then writeUlebFrom mem buf (i + 1) (val >>> 7) else (mem, i + 1)
termination_by val.toNat
decreasing_by exact shiftRight_seven_lt ‹_›

def writeUleb (mem : Memory) (buf : ℕ) (val : UInt64) : Memory × ℕ :=
  writeUlebFrom mem buf 0 val

theorem toInt_sshiftRight_seven (val : BitVec 64) :
    (val.sshiftRight 7).toInt = val.toInt / 128 := by
  rw [BitVec.toInt_sshiftRight, Int.shiftRight_eq_div_pow]
  rfl

/-- `encode_sleb` ends at this byte. -/
def endsSleb (val : BitVec 64) : Prop :=
  let neg := (val &&& 0x40) ≠ 0
  val.sshiftRight 7 = 0 ∧ ¬neg ∨ val.sshiftRight 7 = -1 ∧ neg

instance instDecidableEndsSleb (val : BitVec 64) : Decidable (endsSleb val) :=
  inferInstanceAs (Decidable (_ ∨ _))

theorem toNat_mod_eq_toInt_mod (val : BitVec 64) : val.toNat % 128 = (val.toInt % 128).toNat := by
  rw [BitVec.toInt_eq_toNat_cond]
  split <;> omega

theorem and_forty_ne_zero_iff (val : BitVec 64) :
    val &&& 0x40 ≠ 0 ↔ 64 ≤ (val.toInt % 128).toNat := by
  have hbit : (val &&& 0x40).toNat = val.toNat / 2 ^ 6 % 2 * 2 ^ 6 := by
    rw [BitVec.toNat_and, ← Nat.toNat_testBit]
    exact Nat.and_two_pow _ 6
  rw [← toNat_mod_eq_toInt_mod, ne_eq, ← BitVec.toNat_inj, hbit]
  change ¬_ = 0 ↔ _
  omega

theorem endsSleb_iff (val : BitVec 64) :
    endsSleb val ↔ Sleb.IsSign (val.toInt % 128).toNat (val.toInt / 128) := by
  have hzero : val.sshiftRight 7 = 0 ↔ val.toInt / 128 = 0 := by
    rw [← BitVec.toInt_inj, toInt_sshiftRight_seven]
    rfl
  have hone : val.sshiftRight 7 = -1 ↔ val.toInt / 128 = -1 := by
    rw [← BitVec.toInt_inj, toInt_sshiftRight_seven]
    rfl
  rw [endsSleb, Sleb.IsSign, hzero, hone, and_forty_ne_zero_iff, Nat.not_le]

theorem natAbs_sshiftRight_lt {val : BitVec 64} (h : ¬endsSleb val) :
    (val.sshiftRight 7).toInt.natAbs < val.toInt.natAbs := by
  rw [endsSleb_iff, Sleb.IsSign] at h
  rw [toInt_sshiftRight_seven]
  omega

def encodeSleb (vec : List Byte) (val : BitVec 64) : List Byte :=
  let byte := val &&& 0x7f
  if endsSleb val then vec ++ [Fin.ofNat 256 byte.toNat]
  else encodeSleb (vec ++ [Fin.ofNat 256 (byte ||| 0x80).toNat]) (val.sshiftRight 7)
termination_by val.toInt.natAbs
decreasing_by exact natAbs_sshiftRight_lt ‹_›

/-- The loop of `read_uleb`.  There is no result if it leaves the buffer or the shift is
undefined, as `byte & 0x7f` is an `int`. -/
def readUlebFrom : ℕ → ℕ → List Byte → Option (ℕ × List Byte)
  | _, _, [] => none
  | shift, val, byte :: buf =>
    if 32 ≤ shift then none
    else
      let val := val ||| shiftPayload byte shift
      if byte.val &&& 0x80 ≠ 0 then readUlebFrom (shift + 7) val buf else some (val, buf)

/-- `read_uleb` without an end: the value, and the buffer behind it. -/
def readUleb (buf : List Byte) : Option (ℕ × List Byte) := readUlebFrom 0 0 buf

/-- The loop of `read_uleb` with an end. -/
def readUlebBoundedFrom : ℕ → ℕ → List Byte → Bool × ℕ × List Byte
  | _, val, [] => (false, val, [])
  | i, val, byte :: buf =>
    if 10 ≤ i then (false, val, byte :: buf)
    else if i = 9 ∧ byte.val &&& 0xfe ≠ 0 then (false, val, buf)
    else
      let val := val ||| ((byte.val &&& 0x7f) <<< (i * 7)) % 2 ^ 64
      if byte.val &&& 0x80 = 0 then (true, val, buf) else readUlebBoundedFrom (i + 1) val buf

/-- `read_uleb` with an end: whether it succeeds, the value, and the buffer behind it. -/
def readUlebBounded (buf : List Byte) : Bool × ℕ × List Byte := readUlebBoundedFrom 0 0 buf

/-! ## The encoders write the shortest encoding -/

theorem toNat_and_seven (val : UInt64) : (val &&& 0x7f).toNat = val.toNat % 128 := by
  rw [UInt64.toNat_and]
  exact Nat.and_two_pow_sub_one_eq_mod _ 7

theorem or_mark {n : ℕ} (h : n < 128) : n ||| 128 = n + 128 := by
  have hor : 2 ^ 7 * 1 + n = 2 ^ 7 * 1 ||| n := Nat.two_pow_add_eq_or_of_lt h 1
  rw [Nat.or_comm, Nat.add_comm]
  exact hor.symm

theorem nextByte_last (h : val >>> 7 = 0) : nextByte val = Fin.ofNat 256 (val.toNat % 128) := by
  simp only [nextByte, h, ne_eq, not_true_eq_false, if_false, toNat_and_seven]

theorem nextByte_more (h : val >>> 7 ≠ 0) :
    nextByte val = Fin.ofNat 256 (val.toNat % 128 + 128) := by
  have hlt : val.toNat % 128 < 128 := Nat.mod_lt _ (by decide)
  simp only [nextByte, ne_eq, h, not_false_eq_true, if_true, UInt64.toNat_or, toNat_and_seven]
  exact congrArg _ (or_mark hlt)

theorem shiftRight_seven_eq_zero_iff (val : UInt64) : val >>> 7 = 0 ↔ val.toNat / 128 = 0 := by
  rw [← UInt64.toNat_inj, toNat_shiftRight_seven]
  rfl

theorem encode_toNat (val : UInt64) :
    Uleb.encode val.toNat =
      nextByte val :: if val >>> 7 = 0 then [] else Uleb.encode (val >>> 7).toNat := by
  by_cases h : val >>> 7 = 0
  · have hdiv := (shiftRight_seven_eq_zero_iff val).mp h
    rw [if_pos h, nextByte_last h, Uleb.encode_last hdiv]
  · have hdiv := mt (shiftRight_seven_eq_zero_iff val).mpr h
    rw [if_neg h, nextByte_more h, Uleb.encode_more hdiv, toNat_shiftRight_seven]

theorem encodeUleb_eq (vec : List Byte) (val : UInt64) :
    encodeUleb vec val = vec ++ Uleb.encode val.toNat := by
  induction vec, val using encodeUleb.induct with
  | case1 vec val _ hmore ih =>
    rw [encodeUleb, encode_toNat, if_neg hmore]
    simp only [hmore, ne_eq, not_false_eq_true, if_true]
    rw [ih, List.append_assoc, List.singleton_append]
  | case2 vec val hlast =>
    rw [ne_eq, Classical.not_not] at hlast
    rw [encodeUleb, encode_toNat, if_pos hlast]
    simp only [hlast, ne_eq, not_true_eq_false, if_false]

theorem storeBytes_nil (mem : Memory) (loc : ℕ) : storeBytes mem loc [] = mem := by
  funext k
  rw [storeBytes, List.getD_nil, ite_self]

theorem storeBytes_cons (mem : Memory) (loc : ℕ) (b : Byte) (bytes : List Byte) :
    storeBytes mem loc (b :: bytes) = storeBytes (Function.update mem loc b) (loc + 1) bytes := by
  funext k
  rcases Nat.lt_trichotomy k loc with hlt | rfl | hlt
  · rw [storeBytes_of_lt hlt, storeBytes_of_lt (by omega),
      Function.update_of_ne (Nat.ne_of_lt hlt)]
  · rw [storeBytes_of_lt (Nat.lt_succ_self k), Function.update_self, storeBytes,
      if_pos (Nat.le_refl k), Nat.sub_self, List.getD_cons_zero]
  · obtain ⟨i, rfl⟩ := Nat.exists_eq_add_of_lt hlt
    have hi : loc + i + 1 - loc = i + 1 := by omega
    have hi' : loc + i + 1 - (loc + 1) = i := by omega
    rw [storeBytes, storeBytes, if_pos (by omega), if_pos (by omega), hi, hi',
      List.getD_cons_succ, Function.update_of_ne (by omega)]

theorem writeUlebFrom_eq (mem : Memory) (buf i : ℕ) (val : UInt64) :
    writeUlebFrom mem buf i val =
      (storeBytes mem (buf + i) (Uleb.encode val.toNat), i + (Uleb.encode val.toNat).length) := by
  induction mem, i, val using writeUlebFrom.induct buf with
  | case1 mem i val _ hmore ih =>
    rw [writeUlebFrom, encode_toNat, if_neg hmore]
    simp only [hmore, ne_eq, not_false_eq_true, if_true]
    rw [ih, storeBytes_cons, List.length_cons, Nat.add_assoc, Nat.add_assoc,
      Nat.add_comm 1 (Uleb.encode _).length]
  | case2 mem i val hlast =>
    rw [ne_eq, Classical.not_not] at hlast
    rw [writeUlebFrom, encode_toNat, if_pos hlast]
    simp only [hlast, ne_eq, not_true_eq_false, if_false, List.length_singleton]
    rw [storeBytes_cons, storeBytes_nil]

theorem writeUleb_eq (mem : Memory) (buf : ℕ) (val : UInt64) :
    writeUleb mem buf val =
      (storeBytes mem buf (encodeUleb [] val), (encodeUleb [] val).length) := by
  rw [writeUleb, writeUlebFrom_eq, encodeUleb_eq, List.nil_append, Nat.zero_add, Nat.add_zero]

theorem toNat_and_payload (val : BitVec 64) : (val &&& 0x7f).toNat = (val.toInt % 128).toNat := by
  rw [BitVec.toNat_and, ← toNat_mod_eq_toInt_mod]
  exact Nat.and_two_pow_sub_one_eq_mod _ 7

theorem encodeSleb_eq (vec : List Byte) (val : BitVec 64) :
    encodeSleb vec val = vec ++ Sleb.encode val.toInt := by
  induction vec, val using encodeSleb.induct with
  | case1 vec val hlast =>
    have hsign := (endsSleb_iff val).mp hlast
    rw [encodeSleb, Sleb.encode, if_pos hsign, if_pos hlast, toNat_and_payload]
  | case2 vec val byte hmore ih =>
    have hsign := mt (endsSleb_iff val).mpr hmore
    have hlt : (val.toInt % 128).toNat < 128 := by omega
    rw [encodeSleb, Sleb.encode, if_neg hsign, if_neg hmore, ih, toInt_sshiftRight_seven,
      List.append_assoc, List.singleton_append, BitVec.toNat_or, toNat_and_payload]
    exact congrArg (vec ++ Fin.ofNat 256 · :: _) (or_mark hlt)

/-! ## The unbounded reader -/

/-- The payload of a byte as an `int` with its sign is small or close to `2 ^ 64`. -/
def IsInt (val : ℕ) : Prop := val < 2 ^ 31 ∨ 2 ^ 64 - 2 ^ 31 ≤ val ∧ val < 2 ^ 64

theorem isInt_shiftPayload (byte : Byte) (shift : ℕ) : IsInt (shiftPayload byte shift) := by
  simp only [shiftPayload, IsInt]
  split <;> omega

theorem IsInt.or {m n : ℕ} (hm : IsInt m) (hn : IsInt n) : IsInt (m ||| n) := by
  rcases hm with hm | ⟨hm, hlt⟩
  · rcases hn with hn | ⟨hn, hlt'⟩
    · exact .inl (Nat.or_lt_two_pow hm hn)
    · exact .inr ⟨hn.trans Nat.right_le_or, Nat.or_lt_two_pow (hm.trans (by decide)) hlt'⟩
  · have hlt' : n < 2 ^ 64 := by
      rcases hn with hn | ⟨-, hn⟩
      · exact hn.trans (by decide)
      · exact hn
    exact .inr ⟨hm.trans Nat.left_le_or, Nat.or_lt_two_pow hlt hlt'⟩

theorem and_mark_eq_zero_iff (byte : Byte) : byte.val &&& 0x80 = 0 ↔ byte.val < 128 := by
  have hand : byte.val &&& 0x80 = (byte.val.testBit 7).toNat * 2 ^ 7 := Nat.and_two_pow _ 7
  rw [hand, Nat.toNat_testBit]
  omega

theorem readUlebFrom_cons (shift val : ℕ) (byte : Byte) (buf : List Byte) :
    readUlebFrom shift val (byte :: buf) =
      if 32 ≤ shift then none
      else if byte.val < 128 then some (val ||| shiftPayload byte shift, buf)
      else readUlebFrom (shift + 7) (val ||| shiftPayload byte shift) buf := by
  simp only [readUlebFrom, ne_eq, and_mark_eq_zero_iff, ite_not]

theorem isInt_of_readUlebFrom {shift val result : ℕ} {buf rest : List Byte} (hval : IsInt val)
    (h : readUlebFrom shift val buf = some (result, rest)) : IsInt result := by
  induction buf generalizing shift val with
  | nil => cases h
  | cons byte buf ih =>
    have hor := hval.or (isInt_shiftPayload byte shift)
    rw [readUlebFrom_cons] at h
    split at h
    · cases h
    · split at h
      · cases h
        exact hor
      · exact ih hor h

theorem common_of_readUlebFrom {shift val : ℕ} {buf : List Byte} {result : ℕ × List Byte}
    (h : readUlebFrom shift val buf = some result) :
    Common.readUlebFrom shift val buf = some result := by
  induction buf generalizing shift val with
  | nil => cases h
  | cons byte buf ih =>
    rw [readUlebFrom_cons] at h
    rw [Common.readUlebFrom]
    split at h
    · cases h
    · split at h
      case isTrue hlast => exact (if_pos hlast).trans h
      case isFalse hmore => exact (if_neg hmore).trans (ih h)

theorem readUlebFrom_encode_isSome (n shift val : ℕ) (rest : List Byte)
    (h : shift + 7 * (Uleb.encode n).length ≤ 38) :
    (readUlebFrom shift val (Uleb.encode n ++ rest)).isSome := by
  induction n using Uleb.encode.induct generalizing shift val with
  | case1 n hlast =>
    rw [Uleb.encode_last hlast, List.length_singleton] at h
    rw [Uleb.encode_last hlast, List.singleton_append, readUlebFrom_cons, Uleb.val_last,
      if_neg (by omega), if_pos (by omega)]
    rfl
  | case2 n hmore ih =>
    rw [Uleb.encode_more hmore, List.length_cons] at h
    have hpos := Uleb.length_encode_pos (n / 128)
    rw [Uleb.encode_more hmore, List.cons_append, readUlebFrom_cons, Uleb.val_more,
      if_neg (by omega), if_neg (by omega)]
    exact ih (shift + 7) _ (by omega)

theorem readUlebFrom_encode_eq_none (n shift val : ℕ) (rest : List Byte)
    (h : 39 ≤ shift + 7 * (Uleb.encode n).length) :
    readUlebFrom shift val (Uleb.encode n ++ rest) = none := by
  induction n using Uleb.encode.induct generalizing shift val with
  | case1 n hlast =>
    rw [Uleb.encode_last hlast, List.length_singleton] at h
    rw [Uleb.encode_last hlast, List.singleton_append, readUlebFrom_cons, if_pos (by omega)]
  | case2 n hmore ih =>
    rw [Uleb.encode_more hmore, List.length_cons] at h
    rw [Uleb.encode_more hmore, List.cons_append, readUlebFrom_cons, Uleb.val_more]
    split
    · rfl
    · rw [if_neg (by omega)]
      exact ih (shift + 7) _ (by omega)

theorem readUleb_encode_iff {n : ℕ} (rest : List Byte) :
    readUleb (Uleb.encode n ++ rest) = some (n, rest) ↔ n < 2 ^ 31 := by
  have hfive : (Uleb.encode n).length ≤ 5 ↔ n < 2 ^ 35 := Uleb.length_encode_le_iff 4 n
  constructor
  · intro h
    have hint : IsInt n := isInt_of_readUlebFrom (.inl (by decide)) h
    rcases hint with hlt | ⟨hle, -⟩
    · exact hlt
    · have hnone := readUlebFrom_encode_eq_none n 0 0 rest (by omega)
      rw [readUleb, hnone] at h
      cases h
  · intro h
    have hlen := hfive.mpr (h.trans (by decide))
    have hsome := readUlebFrom_encode_isSome n 0 0 rest (by omega)
    obtain ⟨result, hresult⟩ := Option.isSome_iff_exists.mp hsome
    have hcommon := common_of_readUlebFrom hresult
    have hwritten := Common.readUleb_writeUleb h rest
    rw [Common.readUleb, Common.writeUleb, hcommon] at hwritten
    rw [readUleb, hresult, hwritten]

set_option maxRecDepth 2000 in
theorem and_fe_eq_zero_iff (byte : Byte) : byte.val &&& 0xfe = 0 ↔ byte.val < 2 := by
  revert byte
  decide

theorem shiftLeft_mod {i n : ℕ} (h : n < 2 ^ (64 - 7 * i)) (hi : i < 10) :
    n <<< (i * 7) % 2 ^ 64 = n <<< (7 * i) := by
  have hpow : 2 ^ (64 - 7 * i) * 2 ^ (7 * i) = 2 ^ 64 := by
    rw [← pow_add, Nat.sub_add_cancel (by omega)]
  rw [Nat.mul_comm i, Nat.shiftLeft_eq, Nat.mod_eq_of_lt]
  rw [← hpow]
  exact Nat.mul_lt_mul_of_pos_right h (Nat.two_pow_pos _)

theorem seven_bits_lt {i : ℕ} (hi : i < 9) (n : ℕ) : n % 128 < 2 ^ (64 - 7 * i) :=
  (Nat.mod_lt n (by decide)).trans_le
    (Nat.pow_le_pow_right (by decide) (by omega) : 2 ^ 7 ≤ 2 ^ (64 - 7 * i))

theorem readUlebBoundedFrom_cons {i : ℕ} (hi : i < 10) (val : ℕ) (byte : Byte) (buf : List Byte) :
    readUlebBoundedFrom i val (byte :: buf) =
      if i = 9 ∧ 2 ≤ byte.val then (false, val, buf)
      else if byte.val < 128 then (true, val ||| (byte.val % 128) <<< (7 * i), buf)
      else readUlebBoundedFrom (i + 1) (val ||| (byte.val % 128) <<< (7 * i)) buf := by
  have hpayload : byte.val &&& 0x7f = byte.val % 128 := Nat.and_two_pow_sub_one_eq_mod _ 7
  simp only [readUlebBoundedFrom, if_neg (Nat.not_le.mpr hi), ne_eq, and_mark_eq_zero_iff,
    and_fe_eq_zero_iff, Nat.not_lt, hpayload]
  by_cases hlast : i = 9 ∧ 2 ≤ byte.val
  · rw [if_pos hlast, if_pos hlast]
  · have hlt : byte.val % 128 < 2 ^ (64 - 7 * i) := by
      by_cases hnine : i = 9
      · rw [hnine]
        omega
      · exact seven_bits_lt (by omega) _
    rw [if_neg hlast, if_neg hlast, shiftLeft_mod hlt hi]

theorem of_readUlebBoundedFrom {i val result : ℕ} {buf rest : List Byte}
    (h : readUlebBoundedFrom i val buf = (true, result, rest)) :
    ∃ n, Uleb.decode buf = some (n, rest) ∧ n < 2 ^ (64 - 7 * i) ∧
      result = val ||| n <<< (7 * i) := by
  induction buf generalizing i val with
  | nil => cases h
  | cons byte buf ih =>
    by_cases hi : i < 10
    · rw [readUlebBoundedFrom_cons hi] at h
      split at h
      · cases h
      case isFalse hroom =>
        split at h
        case isTrue hlast =>
          cases h
          refine ⟨byte.val, ?_, ?_, ?_⟩
          · rw [Uleb.decode, if_pos hlast]
          · by_cases hnine : i = 9
            · rw [hnine]
              omega
            · rw [← Nat.mod_eq_of_lt hlast]
              exact seven_bits_lt (by omega) _
          · rw [Nat.mod_eq_of_lt hlast]
        case isFalse hmore =>
          obtain ⟨n, hdecode, hlt, hresult⟩ := ih h
          have hpow : 2 ^ (64 - 7 * i) = 2 ^ (64 - 7 * (i + 1)) * 128 := by
            rw [← (by decide : 2 ^ 7 = 128), ← pow_add]
            congr 1
            omega
          refine ⟨byte.val % 128 + 128 * n, ?_, by omega, ?_⟩
          · rw [Uleb.decode, if_neg hmore, hdecode]
          · have hmod : (byte.val % 128 + 128 * n) % 128 = byte.val % 128 := by omega
            have hdiv : (byte.val % 128 + 128 * n) / 128 = n := by omega
            rw [hresult, shiftLeft_eq_or (byte.val % 128 + 128 * n), hmod, hdiv, Nat.or_assoc]
            rfl
    · simp only [readUlebBoundedFrom, if_pos (Nat.not_lt.mp hi), Prod.mk.injEq,
        Bool.false_eq_true, false_and] at h

theorem readUlebBoundedFrom_encode (n i val : ℕ) (rest : List Byte) (hi : i < 10)
    (h : n < 2 ^ (64 - 7 * i)) :
    readUlebBoundedFrom i val (Uleb.encode n ++ rest) = (true, val ||| n <<< (7 * i), rest) := by
  induction n using Uleb.encode.induct generalizing i val with
  | case1 n hlast =>
    have hroom : ¬(i = 9 ∧ 2 ≤ n % 128) := by
      rintro ⟨rfl, hle⟩
      omega
    have hmod : n % 128 = n := by omega
    rw [Uleb.encode_last hlast, List.singleton_append, readUlebBoundedFrom_cons hi,
      Uleb.val_last, if_neg hroom, if_pos (by omega), Nat.mod_mod, hmod]
  | case2 n hmore ih =>
    have hnine : i ≠ 9 := by
      rintro rfl
      omega
    have hpow : 2 ^ (64 - 7 * i) = 2 ^ (64 - 7 * (i + 1)) * 128 := by
      rw [← (by decide : 2 ^ 7 = 128), ← pow_add]
      congr 1
      omega
    have hval : (n % 128 + 128) % 128 = n % 128 := by omega
    rw [Uleb.encode_more hmore, List.cons_append, readUlebBoundedFrom_cons hi, Uleb.val_more,
      if_neg (by omega), if_neg (by omega), ih (i + 1) _ (by omega) (by omega), hval,
      shiftLeft_eq_or n, Nat.or_assoc]
    rfl

/-! ## The codec -/

/-- The encoders agree, the size is that of the encoding, and both readers give the number
back and are then behind the encoding. -/
structure RoundTrips (val : UInt64) : Prop where
  write : ∀ (vec : List Byte) (mem : Memory) (buf : ℕ), ∃ bytes,
    encodeUleb vec val = vec ++ bytes ∧
      writeUleb mem buf val = (storeBytes mem buf bytes, bytes.length)
  size : ulebSize val.toNat = (encodeUleb [] val).length
  unbounded : ∀ rest, readUleb (encodeUleb [] val ++ rest) = some (val.toNat, rest)
  bounded : ∀ rest, readUlebBounded (encodeUleb [] val ++ rest) = (true, val.toNat, rest)

/-- The bytes end before a terminating byte, or the number has more than 64 bits. -/
def Malformed (bytes : List Byte) : Prop :=
  ∀ n rest, Uleb.decode bytes = some (n, rest) → 2 ^ 64 ≤ n

theorem readUlebBounded_of_malformed {bytes : List Byte} (h : Malformed bytes) :
    (readUlebBounded bytes).1 = false := by
  rw [Bool.eq_false_iff]
  intro hread
  have hresult : readUlebBoundedFrom 0 0 bytes =
      (true, (readUlebBounded bytes).2.1, (readUlebBounded bytes).2.2) := Prod.ext hread rfl
  obtain ⟨n, hdecode, hlt, -⟩ := of_readUlebBoundedFrom hresult
  have hle := h n _ hdecode
  omega

theorem decode_encodeSleb (val : BitVec 64) (rest : List Byte) :
    Sleb.decode (encodeSleb [] val ++ rest) = some (val.toInt, rest) := by
  rw [encodeSleb_eq, List.nil_append, Sleb.decode_encode_append]

theorem roundTrips_iff_lt (val : UInt64) : RoundTrips val ↔ val < 0x80000000 := by
  have henc : encodeUleb [] val = Uleb.encode val.toNat := by
    rw [encodeUleb_eq, List.nil_append]
  have hlt : val < 0x80000000 ↔ val.toNat < 2 ^ 31 := UInt64.lt_iff_toNat_lt
  rw [hlt]
  constructor
  · intro h
    have hread := h.unbounded []
    rw [henc] at hread
    exact (readUleb_encode_iff []).mp hread
  · intro h
    refine ⟨fun vec mem buf => ⟨encodeUleb [] val, ?_, writeUleb_eq mem buf val⟩, ?_, ?_, ?_⟩
    · rw [encodeUleb_eq, encodeUleb_eq, List.nil_append]
    · rw [henc]
      exact (Common.length_writeUleb (h.trans (by decide))).symm
    · intro rest
      rw [henc]
      exact (readUleb_encode_iff rest).mpr h
    · intro rest
      rw [henc, readUlebBounded, readUlebBoundedFrom_encode _ 0 0 rest (by decide) val.toNat_lt]
      simp

/-- The codec is right for a number exactly if it is less than `2 ^ 31`.  The bounded reader
refuses all malformed input, and the encoding of a signed number stands for it. -/
theorem codec_correct_iff (val : UInt64) (signed : BitVec 64) (bytes rest : List Byte) :
    (RoundTrips val ↔ val < 0x80000000) ∧ (Malformed bytes → (readUlebBounded bytes).1 = false) ∧
      Sleb.decode (encodeSleb [] signed ++ rest) = some (signed.toInt, rest) :=
  ⟨roundTrips_iff_lt val, readUlebBounded_of_malformed, decode_encodeSleb signed rest⟩

/-- The sign of the fifth payload comes into the number. -/
theorem not_roundTrips_signBit : ¬RoundTrips 0x80000000 := by
  rw [roundTrips_iff_lt]
  decide

end Mold.Leb128
