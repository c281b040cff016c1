import Mold.Lib.StoredBits

/-!
# Numbers in instructions

An instruction holds a number in some bits of a word, which is stored in either byte order.
The number may be signed, and it may count multiples of a power of two.  A number is read back
exactly if it has such a representation and its bits are the ones that stand in the word.  So
whether a patched instruction is right depends on the bits that the patch leaves there.
-/

namespace Mold.Lib

open BitField BitScatter

/-- A number in the `pieces` of a word of `bytes` bytes. -/
structure ImmField where
  bytes : ℕ
  pieces : List Piece
  width : ℕ
  signed : Bool
  scale : ℕ
  apart : Apart pieces
  inside : ∀ p ∈ pieces, p.dst + p.width ≤ 8 * bytes
  within : ∀ p ∈ pieces, p.src + p.width ≤ width
  covered : ∀ i < width, ∃ p ∈ pieces, InRun p.src p.width i
  pos : 0 < width

def ImmField.low (bytes width : ℕ) (signed : Bool) (scale : ℕ) (hpos : 0 < width)
    (hwidth : width ≤ 8 * bytes) : ImmField where
  bytes := bytes
  pieces := [⟨0, 0, width⟩]
  width := width
  signed := signed
  scale := scale
  apart := List.pairwise_singleton _ _
  inside p hp := by
    rw [List.mem_singleton.mp hp, Nat.zero_add]
    exact hwidth
  within p hp := by
    rw [List.mem_singleton.mp hp, Nat.zero_add]
  covered i hi := ⟨_, List.mem_singleton_self _, Nat.zero_le i, by rwa [Nat.zero_add]⟩
  pos := hpos

def ImmField.whole (bytes : ℕ) (signed : Bool) (scale : ℕ) (h : 0 < bytes) : ImmField :=
  .low bytes (8 * bytes) signed scale (Nat.mul_pos (by decide) h) (Nat.le_refl _)

/-- All bits of `m` are bits of `n`. -/
def BitsIn (m n : ℕ) : Prop := m ||| n = n

instance instDecidableBitsIn (m n : ℕ) : Decidable (BitsIn m n) :=
  inferInstanceAs (Decidable (_ = _))

namespace ImmField

variable (f : ImmField)

def raw (word : ℕ) : ℕ := gather f.pieces word

def value (x : ℕ) : ℤ := (if f.signed then toSigned f.width x else (x : ℤ)) * 2 ^ f.scale

def Represents (v : ℤ) : Prop :=
  2 ^ f.scale ∣ v ∧
    if f.signed then
      -2 ^ (f.width - 1) ≤ v / 2 ^ f.scale ∧ v / 2 ^ f.scale < 2 ^ (f.width - 1)
    else 0 ≤ v / 2 ^ f.scale ∧ v / 2 ^ f.scale < 2 ^ f.width

def encode (v : ℤ) : ℕ := (v / 2 ^ f.scale % 2 ^ f.width).toNat

variable {f}

/-- The bits of a word of 64 bits from some bit on are the encoding of its number. -/
theorem encode_toInt (h : f.scale + f.width ≤ 64) (val : BitVec 64) :
    val.toNat / 2 ^ f.scale % 2 ^ f.width = f.encode val.toInt := by
  obtain ⟨k, hk⟩ : ∃ k, 64 = f.scale + f.width + k := ⟨_, (Nat.add_sub_cancel' h).symm⟩
  have hpos : (2 : ℤ) ^ f.scale ≠ 0 := by positivity
  have hpow : (2 : ℤ) ^ 64 = 2 ^ f.scale * (2 ^ f.width * 2 ^ k) := by
    rw [← pow_add, ← pow_add, ← Nat.add_assoc, ← hk]
  obtain ⟨c, hc⟩ : ∃ c : ℤ, val.toInt = val.toNat + 2 ^ f.scale * (2 ^ f.width * c) := by
    rw [BitVec.toInt_eq_toNat_cond]
    split
    · exact ⟨0, by rw [mul_zero, mul_zero, add_zero]⟩
    · have hcast : ((2 ^ 64 : ℕ) : ℤ) = 2 ^ 64 := Nat.cast_pow 2 64
      refine ⟨-2 ^ k, ?_⟩
      rw [hcast, hpow, mul_neg, mul_neg, sub_eq_add_neg]
  rw [encode, hc, Int.add_mul_ediv_left _ _ hpos, Int.add_mul_emod_self_left]
  norm_cast

theorem run_eq_encode {lo width : ℕ} (hlo : f.scale = lo) (hwidth : f.width = width)
    (h : f.scale + f.width ≤ 64) (val : BitVec 64) :
    run val.toNat lo width = f.encode val.toInt := by
  rw [← encode_toInt h, hlo, hwidth, run_eq]

theorem encode_lt (v : ℤ) : f.encode v < 2 ^ f.width := by
  have hlt := Int.emod_lt_of_pos (v / 2 ^ f.scale) (show (0 : ℤ) < 2 ^ f.width by positivity)
  have hnonneg :=
    Int.emod_nonneg (v / 2 ^ f.scale) (show (2 : ℤ) ^ f.width ≠ 0 by positivity)
  rw [encode]
  zify
  rwa [Int.toNat_of_nonneg hnonneg]

theorem testBit_raw (word i : ℕ) :
    (f.raw word).testBit i =
      f.pieces.any fun p => decide (InRun p.src p.width i) && word.testBit (p.dst + (i - p.src)) :=
  testBit_gather _ _ _

theorem raw_lt (word : ℕ) : f.raw word < 2 ^ f.width := by
  apply Nat.lt_pow_two_of_testBit
  intro i hi
  rw [testBit_raw, List.any_eq_false]
  intro p hp
  have hwithin := f.within p hp
  rw [decide_eq_false (by rw [InRun]; omega), Bool.false_and]
  exact Bool.false_ne_true

theorem toSigned_eq_iff {width x : ℕ} (hwidth : 0 < width) (hx : x < 2 ^ width) {b : ℤ} :
    toSigned width x = b ↔
      (-2 ^ (width - 1) ≤ b ∧ b < 2 ^ (width - 1)) ∧ x = (b % 2 ^ width).toNat := by
  obtain ⟨n, rfl⟩ : ∃ n, width = n + 1 := ⟨width - 1, by omega⟩
  have hpow : (2 : ℤ) ^ (n + 1) = 2 * 2 ^ n := pow_succ' 2 n
  have hx' : (x : ℤ) < 2 ^ (n + 1) := by exact_mod_cast hx
  have hpos : (0 : ℤ) < 2 ^ n := by positivity
  have hcast : (x < 2 ^ n) ↔ (x : ℤ) < 2 ^ n := by
    constructor
    · intro h
      exact_mod_cast h
    · intro h
      exact_mod_cast h
  rw [toSigned, Nat.add_sub_cancel, hpow]
  rw [hpow] at hx'
  generalize (2 : ℤ) ^ n = m at *
  constructor
  · intro h
    split at h
    case isTrue hlt =>
      have hlt' := hcast.mp hlt
      refine ⟨by omega, ?_⟩
      rw [Int.emod_eq_of_lt (by omega) (by omega)]
      omega
    case isFalse hge =>
      have hge' := mt hcast.mpr hge
      refine ⟨by omega, ?_⟩
      rw [← h, Int.sub_emod_right, Int.emod_eq_of_lt (by omega) (by omega)]
      omega
  · rintro ⟨⟨hlow, hhigh⟩, hbits⟩
    rcases lt_or_ge b 0 with hneg | hnonneg
    · have hemod : b % (2 * m) = b + 2 * m := by
        rw [← Int.add_emod_right, Int.emod_eq_of_lt (by omega) (by omega)]
      rw [hemod] at hbits
      have hge : ¬x < 2 ^ n := by
        rw [hcast]
        omega
      rw [if_neg hge]
      omega
    · have hemod : b % (2 * m) = b := Int.emod_eq_of_lt hnonneg (by omega)
      rw [hemod] at hbits
      have hlt : x < 2 ^ n := by
        rw [hcast]
        omega
      rw [if_pos hlt]
      omega

/-- Bits stand for a number exactly if they are its encoding. -/
theorem value_eq_iff {x : ℕ} (hx : x < 2 ^ f.width) {v : ℤ} :
    f.value x = v ↔ f.Represents v ∧ x = f.encode v := by
  have hpos : (0 : ℤ) < 2 ^ f.scale := by positivity
  have hscale (a : ℤ) : a * 2 ^ f.scale = v ↔ 2 ^ f.scale ∣ v ∧ a = v / 2 ^ f.scale := by
    constructor
    · rintro rfl
      exact ⟨Dvd.intro_left a rfl, (Int.mul_ediv_cancel a hpos.ne').symm⟩
    · rintro ⟨hdvd, rfl⟩
      exact Int.ediv_mul_cancel hdvd
  rw [value, hscale, Represents, encode]
  cases f.signed with
  | true =>
    rw [if_pos rfl, if_pos rfl, toSigned_eq_iff f.pos hx, ← and_assoc]
  | false =>
    rw [if_neg Bool.false_ne_true, if_neg Bool.false_ne_true, and_assoc (a := 2 ^ f.scale ∣ v)]
    refine and_congr_right fun _ => ?_
    have hx' : (x : ℤ) < 2 ^ f.width := by exact_mod_cast hx
    constructor
    · intro h
      rw [← h, Int.emod_eq_of_lt (by omega) hx']
      exact ⟨⟨by omega, hx'⟩, (Int.toNat_natCast x).symm⟩
    · rintro ⟨⟨hlow, hhigh⟩, hbits⟩
      rw [Int.emod_eq_of_lt hlow hhigh] at hbits
      omega

/-! ## Patched words -/

def SameOutside (f : ImmField) (word word' : ℕ) : Prop :=
  ∀ i < 8 * f.bytes, (mask f.pieces).testBit i = false → word'.testBit i = word.testBit i

theorem scatter_lt (val : ℕ) : scatter f.pieces val < 2 ^ (8 * f.bytes) := by
  apply Nat.lt_pow_two_of_testBit
  intro i hi
  rw [testBit_scatter, List.any_eq_false]
  intro p hp
  have hinside := f.inside p hp
  rw [decide_eq_false (by rw [InRun]; omega), Bool.false_and]
  exact Bool.false_ne_true

/-- Bits that are set in the field are those of the number and the old ones. -/
theorem raw_or_scatter (word val : ℕ) :
    f.raw (word ||| scatter f.pieces val) = f.raw word ||| val % 2 ^ f.width := by
  apply Nat.eq_of_testBit_eq
  intro i
  rw [Nat.testBit_or, testBit_raw, testBit_raw, Nat.testBit_mod_two_pow]
  by_cases hi : i < f.width
  · obtain ⟨p, hp, hrun⟩ := f.covered i hi
    have hplace : ∀ q ∈ f.pieces, InRun q.src q.width i →
        (scatter f.pieces val).testBit (q.dst + (i - q.src)) = val.testBit i := by
      intro q hq hqi
      have hdst : InRun q.dst q.width (q.dst + (i - q.src)) := by
        rw [InRun] at hqi ⊢
        omega
      rw [testBit_scatter_of_mem f.apart hq hdst, Nat.add_sub_cancel_left,
        Nat.add_sub_cancel' hqi.1]
    rw [decide_eq_true hi, Bool.true_and, Bool.eq_iff_iff, Bool.or_eq_true, List.any_eq_true,
      List.any_eq_true]
    simp only [Nat.testBit_or, Bool.and_eq_true, Bool.or_eq_true, decide_eq_true_eq]
    constructor
    · rintro ⟨q, hq, hqi, hbit | hbit⟩
      · exact .inl ⟨q, hq, hqi, hbit⟩
      · exact .inr ((hplace q hq hqi) ▸ hbit)
    · rintro (⟨q, hq, hqi, hbit⟩ | hbit)
      · exact ⟨q, hq, hqi, .inl hbit⟩
      · exact ⟨p, hp, hrun, .inr ((hplace p hp hrun).trans hbit)⟩
  · have hnone (w : ℕ) : (f.pieces.any fun p =>
        decide (InRun p.src p.width i) && w.testBit (p.dst + (i - p.src))) = false := by
      rw [List.any_eq_false]
      intro p hp
      have hwithin := f.within p hp
      rw [decide_eq_false (by rw [InRun]; omega), Bool.false_and]
      exact Bool.false_ne_true
    rw [hnone, hnone, decide_eq_false hi, Bool.false_and, Bool.or_false]

theorem sameOutside_or_scatter (word val : ℕ) :
    f.SameOutside word (word ||| scatter f.pieces val) := by
  intro i _ hmask
  have hscatter : (scatter f.pieces val).testBit i = false := by
    rw [testBit_mask, List.any_eq_false] at hmask
    rw [testBit_scatter, List.any_eq_false]
    intro p hp hbit
    exact hmask p hp (Bool.and_eq_true_iff.mp hbit).1
  rw [Nat.testBit_or, hscatter, Bool.or_false]

theorem raw_low (hpieces : f.pieces = [⟨0, 0, f.width⟩]) (word : ℕ) :
    f.raw word = word % 2 ^ f.width := by
  rw [raw, hpieces, gather, gather, Nat.or_zero, Nat.shiftLeft_zero, run_eq, pow_zero, Nat.div_one]

theorem sameOutside_low_iff (hpieces : f.pieces = [⟨0, 0, f.width⟩]) {word word' : ℕ}
    (hword : word < 2 ^ (8 * f.bytes)) (hword' : word' < 2 ^ (8 * f.bytes)) :
    f.SameOutside word word' ↔ word' / 2 ^ f.width = word / 2 ^ f.width := by
  have hmask (i : ℕ) : (mask f.pieces).testBit i = false ↔ f.width ≤ i := by
    rw [hpieces, testBit_mask, List.any_cons, List.any_nil, Bool.or_false,
      decide_eq_false_iff_not, InRun]
    simp only
    omega
  constructor
  · intro h
    apply Nat.eq_of_testBit_eq
    intro i
    rw [Nat.testBit_div_two_pow, Nat.testBit_div_two_pow]
    by_cases hi : i + f.width < 8 * f.bytes
    · exact h _ hi ((hmask _).mpr (Nat.le_add_left _ _))
    · have hpow : 2 ^ (8 * f.bytes) ≤ 2 ^ (i + f.width) :=
        Nat.pow_le_pow_right (by decide) (Nat.not_lt.mp hi)
      rw [Nat.testBit_lt_two_pow (hword.trans_le hpow),
        Nat.testBit_lt_two_pow (hword'.trans_le hpow)]
  · intro h i _ hi
    have hbit := congrArg (Nat.testBit · (i - f.width)) h
    simpa only [Nat.testBit_div_two_pow, Nat.sub_add_cancel ((hmask i).mp hi)] using hbit

theorem raw_whole {bytes : ℕ} {signed : Bool} {scale : ℕ} (h : 0 < bytes) (word : ℕ) :
    (whole bytes signed scale h).raw word = word % 2 ^ (8 * bytes) :=
  raw_low rfl word

theorem sameOutside_whole {bytes : ℕ} {signed : Bool} {scale : ℕ} (h : 0 < bytes)
    (word word' : ℕ) : (whole bytes signed scale h).SameOutside word word' := by
  intro i hi hmask
  rw [testBit_mask, List.any_eq_false] at hmask
  exact absurd (decide_eq_true ⟨Nat.zero_le i, by rwa [Nat.zero_add]⟩)
    (hmask ⟨0, 0, 8 * bytes⟩ List.mem_cons_self)

end ImmField

/-! ## Fields in memory -/

namespace ImmField

variable (f : ImmField) (e : Endian)

def read (mem : Memory) (loc : ℕ) : ℤ := f.value (f.raw (loadField e f.bytes mem loc))

/-- The instruction at a location reads as the number, and all other bits are as before. -/
structure Holds (mem mem' : Memory) (loc : ℕ) (v : ℤ) : Prop where
  read_eq : f.read e mem' loc = v
  outside : f.SameOutside (loadField e f.bytes mem loc) (loadField e f.bytes mem' loc)
  elsewhere : ∀ k, k < loc ∨ loc + f.bytes ≤ k → mem' k = mem k

variable {f e} {mem : Memory} {loc : ℕ} {v : ℤ}

theorem read_eq_iff : f.read e mem loc = v ↔
    f.Represents v ∧ f.raw (loadField e f.bytes mem loc) = f.encode v :=
  value_eq_iff (raw_lt _)

theorem two_pow_bytes (n : ℕ) : 256 ^ n = 2 ^ (8 * n) := (pow_mul 2 8 n).symm

theorem loadField_div_mod {n i : ℕ} (hi : i < n) :
    loadField e n mem loc / 256 ^ i % 256 = (mem (loc + e.place n i)).val := by
  have hmod (x : ℕ) : x % 256 = x % 2 ^ 8 := rfl
  apply Nat.eq_of_testBit_eq
  intro j
  rw [two_pow_bytes, hmod, Nat.testBit_mod_two_pow, Nat.testBit_div_two_pow, loadField,
    testBit_readLe]
  by_cases hj : j < 8
  · have hdiv : (j + 8 * i) / 8 = i := by omega
    have hmod : (j + 8 * i) % 8 = j := by omega
    rw [decide_eq_true hj, Bool.true_and, hdiv, hmod,
      List.getD_eq_getElem _ _ (by rwa [List.length_map, List.length_range]),
      List.getElem_map, List.getElem_range]
  · have hlt : (mem (loc + e.place n i)).val < 2 ^ j :=
      (mem (loc + e.place n i)).isLt.trans_le
        (Nat.pow_le_pow_right (by decide) (Nat.not_lt.mp hj) : 2 ^ 8 ≤ 2 ^ j)
    rw [decide_eq_false hj, Bool.false_and, Nat.testBit_lt_two_pow hlt]

/-- The bytes after bits are set in a word. -/
theorem val_storeField_or {n i : ℕ} (hi : i < n) (x : ℕ) :
    (storeField e n mem loc (loadField e n mem loc ||| x) (loc + e.place n i)).val =
      (mem (loc + e.place n i)).val ||| x / 256 ^ i % 256 := by
  have hplace := e.place_lt hi
  have hpow : 256 ^ i = 2 ^ (8 * i) := two_pow_bytes i
  have hval (y : ℕ) : (Fin.ofNat 256 y : Byte).val = y % 2 ^ 8 := rfl
  rw [storeField, if_pos (by omega), Nat.add_sub_cancel_left, e.place_place hi, hval, hpow,
    Nat.or_div_two_pow, Nat.or_mod_two_pow, ← hpow]
  exact congrArg (· ||| _) (loadField_div_mod hi)

/-- Setting bits in a field is right if the old bits are among those of the number. -/
theorem holds_or_iff {val : ℕ} (hval : val % 2 ^ f.width = f.encode v) :
    f.Holds e mem (storeField e f.bytes mem loc
        (loadField e f.bytes mem loc ||| scatter f.pieces val)) loc v ↔
      f.Represents v ∧ BitsIn (f.raw (loadField e f.bytes mem loc)) (f.encode v) := by
  have hlt : loadField e f.bytes mem loc ||| scatter f.pieces val < 256 ^ f.bytes := by
    rw [two_pow_bytes]
    refine Nat.or_lt_two_pow ?_ (scatter_lt val)
    rw [← two_pow_bytes]
    exact loadField_lt
  have hload : loadField e f.bytes (storeField e f.bytes mem loc
      (loadField e f.bytes mem loc ||| scatter f.pieces val)) loc =
        loadField e f.bytes mem loc ||| scatter f.pieces val := by
    rw [loadField_storeField, Nat.mod_eq_of_lt hlt]
  have hraw : f.raw (loadField e f.bytes (storeField e f.bytes mem loc
      (loadField e f.bytes mem loc ||| scatter f.pieces val)) loc) =
        f.raw (loadField e f.bytes mem loc) ||| f.encode v := by
    rw [hload, raw_or_scatter, hval]
  rw [BitsIn, ← hraw]
  constructor
  · intro h
    exact read_eq_iff.mp h.read_eq
  · intro h
    refine ⟨read_eq_iff.mpr h, ?_, fun k hk => storeField_of_not_mem hk⟩
    rw [hload]
    exact sameOutside_or_scatter _ _

variable {signed : Bool} {scale : ℕ}

theorem holds_or_low_iff {bytes width : ℕ} {hpos : 0 < width}
    {hwidth : width ≤ 8 * bytes} {x : ℕ} (hx : x = (low bytes width signed scale hpos hwidth).encode v) :
    (low bytes width signed scale hpos hwidth).Holds e mem
        (storeField e bytes mem loc (loadField e bytes mem loc ||| x)) loc v ↔
      (low bytes width signed scale hpos hwidth).Represents v ∧
        BitsIn (loadField e bytes mem loc % 2 ^ width) x := by
  have hlt : x < 2 ^ width := by
    rw [hx]
    exact encode_lt v
  have hscatter : x = scatter [⟨0, 0, width⟩] x := by
    rw [scatter, scatter, Nat.or_zero, Nat.shiftLeft_zero, run_eq, pow_zero, Nat.div_one,
      Nat.mod_eq_of_lt hlt]
  have hraw : (low bytes width signed scale hpos hwidth).raw (loadField e bytes mem loc) =
      loadField e bytes mem loc % 2 ^ width :=
    raw_low rfl _
  have hholds : (low bytes width signed scale hpos hwidth).Holds e mem (storeField e bytes mem loc
      (loadField e bytes mem loc ||| scatter [⟨0, 0, width⟩] x)) loc v ↔ _ :=
    holds_or_iff ((Nat.mod_eq_of_lt hlt).trans hx)
  rw [← hscatter] at hholds
  rw [hholds, ← hraw, hx]
  rfl

/-- Storing a word is right for every number that it can hold. -/
theorem holds_whole_iff {bytes : ℕ} (h : 0 < bytes) {val : ℕ}
    (hval : val % 2 ^ (8 * bytes) = (whole bytes signed scale h).encode v) :
    (whole bytes signed scale h).Holds e mem (storeField e bytes mem loc val) loc v ↔
      (whole bytes signed scale h).Represents v := by
  have hraw : (whole bytes signed scale h).raw
      (loadField e bytes (storeField e bytes mem loc val) loc) =
        (whole bytes signed scale h).encode v := by
    rw [loadField_storeField, two_pow_bytes, raw_whole, Nat.mod_mod, hval]
  constructor
  · intro hholds
    exact (read_eq_iff.mp hholds.read_eq).1
  · intro hrep
    exact ⟨read_eq_iff.mpr ⟨hrep, hraw⟩, sameOutside_whole h _ _,
      fun k hk => storeField_of_not_mem hk⟩

theorem holds_store_iff {bytes : ℕ} (hbytes : 0 < bytes)
    (h64 : scale + 8 * bytes ≤ 64) {val : BitVec 64} :
    (whole bytes signed scale hbytes).Holds e mem
        (storeField e bytes mem loc (val.toNat / 2 ^ scale)) loc val.toInt ↔
      (whole bytes signed scale hbytes).Represents val.toInt :=
  holds_whole_iff hbytes (encode_toInt (f := whole bytes signed scale hbytes) h64 val)

theorem represents_unsigned_iff {bytes width scale : ℕ} {hpos : 0 < width}
    {hwidth : width ≤ 8 * bytes} :
    (low bytes width false scale hpos hwidth).Represents v ↔
      2 ^ scale ∣ v ∧ 0 ≤ v / 2 ^ scale ∧ v / 2 ^ scale < 2 ^ width :=
  Iff.rfl

theorem represents_signed_iff {bytes width scale : ℕ} {hpos : 0 < width}
    {hwidth : width ≤ 8 * bytes} :
    (low bytes width true scale hpos hwidth).Represents v ↔
      2 ^ scale ∣ v ∧ -2 ^ (width - 1) ≤ v / 2 ^ scale ∧ v / 2 ^ scale < 2 ^ (width - 1) :=
  Iff.rfl

end ImmField

end Mold.Lib
