import Mathlib.Data.List.Perm.Basic
import Mathlib.Data.List.Range
import Mathlib.Data.List.Sort
import Mathlib.Data.Nat.Bitwise
import Mathlib.Data.Nat.ModEq
import Mathlib.Tactic.Ring

/-!
# Packed lists of addresses

A list of addresses that are multiples of a word size is packed into words: an
even word is an address, and an odd word is a bitmap of the next
`8 * wordSize - 1` words.  Addresses are residues.  Unpacking gives the packed
addresses back, also when a constant is added to the words that are addresses.

The bits of a bitmap are read from the lowest on.  If the addresses increase, a packed list
is therefore unpacked to the same list, in the same order.
-/

namespace Mold.Lib

/-! ## Differences of residues -/

def residueSub (m a b : ℕ) : ℕ := (a + (m - b % m)) % m

theorem add_residueSub {m : ℕ} (hm : 0 < m) (a b : ℕ) : (b + residueSub m a b) % m = a % m := by
  have hb : b % m ≤ m := (Nat.mod_lt b hm).le
  have hbm := Nat.mod_add_div b m
  calc (b + (a + (m - b % m)) % m) % m = (b + (a + (m - b % m))) % m := Nat.add_mod_mod _ _ _
    _ = (a + m * (b / m + 1)) % m := by
        congr 1
        rw [Nat.mul_add, Nat.mul_one]
        omega
    _ = a % m := Nat.add_mul_mod_self_left _ _ _

theorem dvd_residueSub {w m a b : ℕ} (hm : w ∣ m) (ha : w ∣ a) (hb : w ∣ b) :
    w ∣ residueSub m a b := by
  have hbm : w ∣ b % m := (Nat.dvd_mod_iff hm).mpr hb
  exact (Nat.dvd_mod_iff hm).mpr (Nat.dvd_add ha (Nat.dvd_sub hm hbm))

section Pack

variable (w m : ℕ)

def windowBits : ℕ := w * 8 - 1

def maxDelta : ℕ := windowBits w * w

/-- The addresses at the front of a list that are in the range behind `base` are
put into a bitmap.  The result is the bitmap and the addresses that are left. -/
def collectBits (base : ℕ) : List ℕ → ℕ → ℕ × List ℕ
  | [], bits => (bits, [])
  | p :: ps, bits =>
    if residueSub m p base < maxDelta w then
      collectBits base ps (bits ||| 1 <<< (residueSub m p base / w))
    else
      (bits, p :: ps)

variable {w m}

theorem length_collectBits_le (base : ℕ) (ps : List ℕ) (bits : ℕ) :
    (collectBits w m base ps bits).2.length ≤ ps.length := by
  induction ps generalizing bits with
  | nil => exact Nat.le_refl _
  | cons p ps ih =>
    rw [collectBits]
    split
    · exact (ih _).trans (Nat.le_succ _)
    · exact Nat.le_refl _

variable {ps : List ℕ}

/-- A bitmap that is not empty takes an address. -/
theorem length_collectBits_lt {base : ℕ} (h : (collectBits w m base ps 0).1 ≠ 0) :
    (collectBits w m base ps 0).2.length < ps.length := by
  cases ps with
  | nil => exact absurd rfl h
  | cons p ps =>
    rw [collectBits] at h ⊢
    split
    · exact Nat.lt_succ_of_le (length_collectBits_le _ _ _)
    next hfar =>
      rw [if_neg hfar] at h
      exact absurd rfl h

/-- The first address that is left is behind the range. -/
theorem maxDelta_le_of_collectBits {base bits p : ℕ} {ps rest : List ℕ}
    (h : (collectBits w m base ps bits).2 = p :: rest) : maxDelta w ≤ residueSub m p base := by
  induction ps generalizing bits with
  | nil => exact absurd h (List.cons_ne_nil p rest).symm
  | cons q ps ih =>
    rw [collectBits] at h
    split at h
    case isTrue => exact ih h
    case isFalse hfar =>
      obtain ⟨rfl, -⟩ := List.cons.inj h
      exact Nat.le_of_not_lt hfar

variable (w m)

/-- The bitmaps behind an address, up to the first empty one, and the addresses
that are left. -/
def packBitmaps (base : ℕ) (ps : List ℕ) : List ℕ × List ℕ :=
  if _h : (collectBits w m base ps 0).1 = 0 then
    ([], (collectBits w m base ps 0).2)
  else
    let rest := packBitmaps ((base + maxDelta w) % m) (collectBits w m base ps 0).2
    (((collectBits w m base ps 0).1 <<< 1 ||| 1) :: rest.1, rest.2)
termination_by ps.length
decreasing_by exact length_collectBits_lt _h

theorem length_packBitmaps_le (base : ℕ) (ps : List ℕ) :
    (packBitmaps w m base ps).2.length ≤ ps.length := by
  induction base, ps using packBitmaps.induct w m with
  | case1 base ps h =>
    rw [packBitmaps, dif_pos h]
    exact length_collectBits_le _ _ _
  | case2 base ps h ih =>
    rw [packBitmaps, dif_neg h]
    exact ih.trans (length_collectBits_le _ _ _)

def pack : List ℕ → List ℕ
  | [] => []
  | p :: ps =>
    p :: ((packBitmaps w m ((p + w) % m) ps).1 ++ pack (packBitmaps w m ((p + w) % m) ps).2)
termination_by ps => ps.length
decreasing_by exact Nat.lt_succ_of_le (length_packBitmaps_le w m _ ps)

/-! ## Unpacking -/

def bitmapPlaces (base bits : ℕ) : List ℕ :=
  ((List.range (windowBits w)).filter fun i => bits.testBit i).map fun i =>
    (base + i * w) % m

def unpack (base : ℕ) : List ℕ → List ℕ
  | [] => []
  | word :: words =>
    if word % 2 = 0 then
      word :: unpack ((word + w) % m) words
    else
      bitmapPlaces w m base (word >>> 1) ++ unpack ((base + maxDelta w) % m) words

/-- The words of a packed list, as residues, after a constant was added to its
addresses. -/
def rebase (start : ℕ) (words : List ℕ) : List ℕ :=
  words.map fun word => (if word % 2 = 1 then word else start + word) % m

/-! ## What a list of places stands for -/

structure Represents (places addrs : List ℕ) : Prop where
  mem_iff : ∀ a, a ∈ places ↔ a ∈ addrs
  perm : addrs.Nodup → places.Perm addrs

variable {w m}

theorem Represents.nil : Represents [] [] :=
  ⟨fun _ => Iff.rfl, fun _ => List.Perm.nil⟩

theorem Represents.append {places places' addrs addrs' : List ℕ}
    (h : Represents places addrs) (h' : Represents places' addrs') :
    Represents (places ++ places') (addrs ++ addrs') := by
  constructor
  · intro a
    rw [List.mem_append, h.mem_iff, h'.mem_iff, List.mem_append]
  · intro hnodup
    obtain ⟨hleft, hright, -⟩ := List.nodup_append.mp hnodup
    exact (h.perm hleft).append (h'.perm hright)

theorem Represents.cons {a : ℕ} {places addrs : List ℕ} (h : Represents places addrs) :
    Represents (a :: places) (a :: addrs) := by
  constructor
  · intro b
    rw [List.mem_cons, h.mem_iff, List.mem_cons]
  · intro hnodup
    exact (h.perm (List.nodup_cons.mp hnodup).2).cons _

/-! ## One bitmap -/

theorem exists_collectBits (base : ℕ) (ps : List ℕ) (bits : ℕ) :
    ∃ front, ps = front ++ (collectBits w m base ps bits).2 ∧
      (∀ p ∈ front, residueSub m p base < maxDelta w) ∧
        ∀ i, (collectBits w m base ps bits).1.testBit i = true ↔
          bits.testBit i = true ∨ ∃ p ∈ front, residueSub m p base / w = i := by
  induction ps generalizing bits with
  | nil => exact ⟨[], rfl, by simp, by simp [collectBits]⟩
  | cons p ps ih =>
    by_cases hnear : residueSub m p base < maxDelta w
    · obtain ⟨front, hps, hwindow, hbits⟩ :=
        ih (bits ||| 1 <<< (residueSub m p base / w))
      rw [collectBits, if_pos hnear]
      refine ⟨p :: front, by rw [List.cons_append, ← hps], ?_, fun i => ?_⟩
      · intro q hq
        rcases List.mem_cons.mp hq with rfl | hq
        · exact hnear
        · exact hwindow q hq
      · rw [hbits, Nat.testBit_or, Bool.or_eq_true, Nat.one_shiftLeft,
          Nat.testBit_two_pow, decide_eq_true_eq, or_assoc]
        simp
    · rw [collectBits, if_neg hnear]
      exact ⟨[], rfl, by simp, by simp⟩

section Window

variable {M start base b : ℕ}

/-- A place that is a multiple of the word size behind the base has the address
of its bit. -/
theorem bitPlace_eq (hm : m ∣ M) (hM : 0 < M) (hb : b % m = (start + base) % m) {p : ℕ}
    (hw : w ∣ residueSub M p base) :
    (b + residueSub M p base / w * w) % m = (start + p) % m := by
  have hp : base + residueSub M p base ≡ p [MOD m] :=
    Nat.ModEq.of_dvd hm (add_residueSub hM p base)
  have hb' : b ≡ start + base [MOD m] := hb
  rw [Nat.div_mul_cancel hw]
  calc b + residueSub M p base ≡ start + base + residueSub M p base [MOD m] := hb'.add_right _
    _ = start + (base + residueSub M p base) := Nat.add_assoc _ _ _
    _ ≡ start + p [MOD m] := hp.add_left _

/-- The range behind the next bitmap. -/
theorem nextBase_mod (hm : m ∣ M) (hb : b % m = (start + base) % m) :
    (b + maxDelta w) % m % m = (start + (base + maxDelta w) % M) % m := by
  have hmod : (base + maxDelta w) % M ≡ base + maxDelta w [MOD m] :=
    Nat.ModEq.of_dvd hm (Nat.mod_modEq _ _)
  have hb' : b ≡ start + base [MOD m] := hb
  rw [Nat.mod_mod]
  calc b + maxDelta w ≡ start + base + maxDelta w [MOD m] := hb'.add_right _
    _ = start + (base + maxDelta w) := Nat.add_assoc _ _ _
    _ ≡ start + (base + maxDelta w) % M [MOD m] := hmod.symm.add_left _

theorem nodup_bitmapPlaces (hw : 0 < w) (hm : maxDelta w ≤ m) (b bits : ℕ) :
    (bitmapPlaces w m b bits).Nodup := by
  refine (List.nodup_range.filter _).map_on fun i hi j hj heq => ?_
  have hi' := List.mem_range.mp (List.mem_filter.mp hi).1
  have hj' := List.mem_range.mp (List.mem_filter.mp hj).1
  have hlt (k : ℕ) (hk : k < windowBits w) : k * w < m :=
    lt_of_lt_of_le (Nat.mul_lt_mul_of_pos_right hk hw) hm
  have hmod : i * w ≡ j * w [MOD m] := Nat.ModEq.add_left_cancel' b heq
  exact Nat.eq_of_mul_eq_mul_right hw (Nat.ModEq.eq_of_lt_of_lt hmod (hlt i hi') (hlt j hj'))

theorem represents_bitmapPlaces (hw : 0 < w) (hdelta : maxDelta w ≤ m) (hm : m ∣ M)
    (hM : 0 < M) (hb : b % m = (start + base) % m) {front : List ℕ} {bits : ℕ}
    (hwindow : ∀ p ∈ front, residueSub M p base < maxDelta w)
    (hdvd : ∀ p ∈ front, w ∣ residueSub M p base)
    (hbits : ∀ i, bits.testBit i = true ↔ ∃ p ∈ front, residueSub M p base / w = i) :
    Represents (bitmapPlaces w m b bits) (front.map fun p => (start + p) % m) := by
  have hmem (a : ℕ) : a ∈ bitmapPlaces w m b bits ↔ a ∈ front.map fun p => (start + p) % m := by
    rw [bitmapPlaces, List.mem_map, List.mem_map]
    constructor
    · rintro ⟨i, hi, rfl⟩
      obtain ⟨p, hp, rfl⟩ := (hbits i).mp (List.mem_filter.mp hi).2
      exact ⟨p, hp, (bitPlace_eq hm hM hb (hdvd p hp)).symm⟩
    · rintro ⟨p, hp, rfl⟩
      refine ⟨residueSub M p base / w, List.mem_filter.mpr ⟨?_, ?_⟩,
        bitPlace_eq hm hM hb (hdvd p hp)⟩
      · exact List.mem_range.mpr (Nat.div_lt_of_lt_mul (by
          rw [Nat.mul_comm]
          exact hwindow p hp))
      · exact (hbits _).mpr ⟨p, hp, rfl⟩
  exact ⟨hmem, fun hnodup =>
    (List.perm_ext_iff_of_nodup (nodup_bitmapPlaces hw hdelta b bits) hnodup).mpr hmem⟩

end Window

/-! ## Unpacking a packed list -/

theorem bitmapWord_mod_two (bits : ℕ) : (bits <<< 1 ||| 1) % 2 = 1 := by
  have hbit : (bits <<< 1 ||| 1).testBit 0 = true := by simp
  rwa [Nat.testBit_zero, decide_eq_true_eq] at hbit

theorem bitmapWord_shiftRight (bits : ℕ) : (bits <<< 1 ||| 1) >>> 1 = bits := by
  rw [Nat.shiftRight_or_distrib, Nat.shiftLeft_shiftRight,
    show (1 : ℕ) >>> 1 = 0 from rfl, Nat.or_zero]

theorem unpack_append (b : ℕ) (words words' : List ℕ) :
    ∃ b', unpack w m b (words ++ words') = unpack w m b words ++ unpack w m b' words' := by
  induction words generalizing b with
  | nil => exact ⟨b, rfl⟩
  | cons word words ih =>
    rw [List.cons_append, unpack, unpack]
    split
    · obtain ⟨b', hb'⟩ := ih ((word + w) % m)
      exact ⟨b', by rw [hb', List.cons_append]⟩
    · obtain ⟨b', hb'⟩ := ih ((b + maxDelta w) % m)
      exact ⟨b', by rw [hb', List.append_assoc]⟩

theorem two_dvd_of_mem_unpack (hw2 : 2 ∣ w) (hm2 : 2 ∣ m) {base a : ℕ} (hbase : 2 ∣ base)
    {words : List ℕ} (ha : a ∈ unpack w m base words) : 2 ∣ a := by
  have hmod (n : ℕ) (hn : 2 ∣ n) : 2 ∣ n % m := (Nat.dvd_mod_iff hm2).mpr hn
  induction words generalizing base with
  | nil => cases ha
  | cons word words ih =>
    rw [unpack] at ha
    split at ha
    case isTrue heven =>
      have hword := Nat.dvd_of_mod_eq_zero heven
      rcases List.mem_cons.mp ha with rfl | ha
      · exact hword
      · exact ih (hmod _ (Nat.dvd_add hword hw2)) ha
    case isFalse =>
      rcases List.mem_append.mp ha with ha | ha
      · obtain ⟨i, -, rfl⟩ := List.mem_map.mp ha
        exact hmod _ (Nat.dvd_add hbase (hw2.mul_left i))
      · exact ih (hmod _ (Nat.dvd_add hbase (hw2.mul_left _))) ha

/-- An even residue behind an even distance has an even start. -/
theorem two_dvd_of_add_mod (hm2 : 2 ∣ m) {start p : ℕ} (hp : 2 ∣ p)
    (h : 2 ∣ (start + p) % m) : 2 ∣ start :=
  (Nat.dvd_add_iff_left hp).mpr ((Nat.dvd_mod_iff hm2).mp h)

theorem bitmapWord_lt {M base bits : ℕ} {front : List ℕ}
    (hwindow : ∀ p ∈ front, residueSub M p base < maxDelta w)
    (hbits : ∀ i, bits.testBit i = true ↔ ∃ p ∈ front, residueSub M p base / w = i) :
    (bits <<< 1 ||| 1) < 2 ^ (windowBits w + 1) := by
  have hlt : bits < 2 ^ windowBits w := by
    apply Nat.lt_pow_two_of_testBit
    intro i hi
    rw [← Bool.not_eq_true, hbits]
    rintro ⟨p, hp, rfl⟩
    have hdiv := Nat.div_lt_of_lt_mul (by
      rw [Nat.mul_comm]
      exact hwindow p hp : residueSub M p base < w * windowBits w)
    omega
  apply Nat.or_lt_two_pow
  · rw [Nat.shiftLeft_eq, Nat.pow_one, Nat.pow_succ]
    omega
  · exact Nat.one_lt_two_pow (Nat.succ_ne_zero _)

section Unpack

variable {M start : ℕ} (hw : 0 < w) (hdelta : maxDelta w ≤ m)
  (hword : 2 ^ (windowBits w + 1) ≤ m) (hm : m ∣ M) (hM : 0 < M) (hwM : w ∣ M)

include hw hdelta hword hm hM hwM

/-- The bitmaps behind an address represent the addresses that they take. -/
theorem represents_unpack_packBitmaps {base b : ℕ}
    (hb : b % m = (start + base) % m) (hbase : w ∣ base) (hps : ∀ p ∈ ps, w ∣ p) :
    ∃ front, ps = front ++ (packBitmaps w M base ps).2 ∧
      Represents (unpack w m b (rebase m start (packBitmaps w M base ps).1))
        (front.map fun p => (start + p) % m) := by
  induction base, ps using packBitmaps.induct w M generalizing b with
  | case1 base ps h =>
    obtain ⟨front, hsplit, -, hbits⟩ := exists_collectBits (w := w) (m := M) base ps 0
    have hfront : front = [] := by
      cases front with
      | nil => rfl
      | cons p front =>
        have hbit := (hbits (residueSub M p base / w)).mpr (.inr ⟨p, List.mem_cons_self, rfl⟩)
        rw [h, Nat.zero_testBit] at hbit
        cases hbit
    rw [packBitmaps, dif_pos h]
    exact ⟨[], by rw [hfront] at hsplit; exact hsplit, Represents.nil⟩
  | case2 base ps h ih =>
    obtain ⟨front, hsplit, hwindow, hbits⟩ :=
      exists_collectBits (w := w) (m := M) base ps 0
    have hdvd (p : ℕ) (hp : p ∈ ps) : w ∣ residueSub M p base :=
      dvd_residueSub hwM (hps p hp) hbase
    have hmem (p : ℕ) (hp : p ∈ front) : p ∈ ps := by
      rw [hsplit]
      exact List.mem_append_left _ hp
    have hbits' (i : ℕ) : (collectBits w M base ps 0).1.testBit i = true ↔
        ∃ p ∈ front, residueSub M p base / w = i := by
      simpa using hbits i
    have hwindow' := represents_bitmapPlaces hw hdelta hm hM hb hwindow
      (fun p hp => hdvd p (hmem p hp)) hbits'
    obtain ⟨front', hsplit', hrest⟩ := ih (nextBase_mod hm hb)
      ((Nat.dvd_mod_iff hwM).mpr (Nat.dvd_add hbase (Nat.dvd_mul_left _ _)))
      (fun p hp => hps p (by rw [hsplit]; exact List.mem_append_right _ hp))
    rw [packBitmaps, dif_neg h]
    refine ⟨front ++ front', ?_, ?_⟩
    · rw [List.append_assoc, ← hsplit', ← hsplit]
    · have hlt := bitmapWord_lt hwindow hbits'
      rw [rebase, List.map_cons, if_pos (bitmapWord_mod_two _),
        Nat.mod_eq_of_lt (hlt.trans_le hword), ← rebase, unpack,
        if_neg (by rw [bitmapWord_mod_two]; decide), bitmapWord_shiftRight]
      rw [List.map_append]
      exact hwindow'.append hrest

theorem represents_unpack_pack (hw2 : 2 ∣ w) (hm2 : 2 ∣ m) (hstart : 2 ∣ start)
    (hps : ∀ p ∈ ps, w ∣ p) (b : ℕ) :
    Represents (unpack w m b (rebase m start (pack w M ps)))
      (ps.map fun p => (start + p) % m) := by
  induction ps using pack.induct w M generalizing b with
  | case1 =>
    rw [pack]
    exact Represents.nil
  | case2 p ps ih =>
    have hp : 2 ∣ p := hw2.trans (hps p List.mem_cons_self)
    have heven : (start + p) % m % 2 = 0 :=
      Nat.mod_eq_zero_of_dvd ((Nat.dvd_mod_iff hm2).mpr (Nat.dvd_add hstart hp))
    have hb : ((start + p) % m + w) % m % m = (start + (p + w) % M) % m := by
      have hmod : (p + w) % M ≡ p + w [MOD m] := Nat.ModEq.of_dvd hm (Nat.mod_modEq _ _)
      rw [Nat.mod_mod, Nat.mod_add_mod, Nat.add_assoc]
      exact (hmod.symm).add_left _
    obtain ⟨front, hsplit, hfront⟩ := represents_unpack_packBitmaps hw hdelta hword hm hM hwM
      hb ((Nat.dvd_mod_iff hwM).mpr (Nat.dvd_add (hps p List.mem_cons_self) (Nat.dvd_refl w)))
      (fun q hq => hps q (List.mem_cons_of_mem _ hq))
    have hpack : rebase m start (pack w M (p :: ps)) = (start + p) % m ::
        (rebase m start (packBitmaps w M ((p + w) % M) ps).1 ++
          rebase m start (pack w M (packBitmaps w M ((p + w) % M) ps).2)) := by
      rw [pack, rebase, List.map_cons, List.map_append,
        if_neg (by have := Nat.mod_eq_zero_of_dvd hp; omega)]
      rfl
    obtain ⟨b', hb'⟩ := unpack_append (w := w) (m := m) (((start + p) % m + w) % m)
      (rebase m start (packBitmaps w M ((p + w) % M) ps).1)
      (rebase m start (pack w M (packBitmaps w M ((p + w) % M) ps).2))
    rw [hpack, unpack, if_pos heven, hb']
    refine Represents.cons ?_
    have hrest := ih (fun q hq => hps q (List.mem_cons_of_mem _ (by
      rw [hsplit]
      exact List.mem_append_right _ hq))) b'
    have happend := hfront.append hrest
    rwa [← List.map_append, ← hsplit] at happend

/-- Packed lists that follow on one another are unpacked one after another. -/
theorem represents_unpack_flatMap (hw2 : 2 ∣ w) (hm2 : 2 ∣ m)
    {chunks : List (ℕ × List ℕ)} (hstart : ∀ c ∈ chunks, c.2 ≠ [] → 2 ∣ c.1)
    (hdvd : ∀ c ∈ chunks, ∀ p ∈ c.2, w ∣ p) (b : ℕ) :
    Represents (unpack w m b (chunks.flatMap fun c => rebase m c.1 (pack w M c.2)))
      (chunks.flatMap fun c => c.2.map fun p => (c.1 + p) % m) := by
  induction chunks generalizing b with
  | nil => exact Represents.nil
  | cons c chunks ih =>
    rw [List.flatMap_cons, List.flatMap_cons]
    obtain ⟨b', hb'⟩ := unpack_append (w := w) (m := m) b (rebase m c.1 (pack w M c.2))
      (chunks.flatMap fun c => rebase m c.1 (pack w M c.2))
    rw [hb']
    refine Represents.append ?_
      (ih (fun c hc => hstart c (List.mem_cons_of_mem _ hc))
        (fun c hc => hdvd c (List.mem_cons_of_mem _ hc)) b')
    by_cases hnil : c.2 = []
    · rw [hnil, pack]
      exact Represents.nil
    · exact represents_unpack_pack hw hdelta hword hm hM hwM hw2 hm2
        (hstart c List.mem_cons_self hnil) (hdvd c List.mem_cons_self) b

end Unpack

end Pack

/-! ## Packed lists of increasing addresses -/

theorem filter_range_eq {l : List ℕ} {n : ℕ} (hsorted : l.Pairwise (· < ·)) {f : ℕ → Bool}
    (h : ∀ i, i ∈ l ↔ i < n ∧ f i = true) : (List.range n).filter f = l := by
  apply List.Perm.eq_of_pairwise' (List.pairwise_lt_range.filter f) hsorted
  apply (List.perm_ext_iff_of_nodup (List.nodup_range.filter f) (hsorted.imp ne_of_lt)).mpr
  intro i
  rw [List.mem_filter, List.mem_range, h]

theorem residueSub_of_le {m a b : ℕ} (hba : b ≤ a) (ha : a < m) : residueSub m a b = a - b := by
  have hsplit : a + (m - b) = a - b + m := by omega
  rw [residueSub, Nat.mod_eq_of_lt (lt_of_le_of_lt hba ha), hsplit, Nat.add_mod_right,
    Nat.mod_eq_of_lt (by omega)]

section InOrder

variable {w m M start : ℕ}

structure Increasing (w M base : ℕ) (ps : List ℕ) : Prop where
  sorted : ps.Pairwise (· < ·)
  base_le : ∀ p ∈ ps, base ≤ p
  dvd : ∀ p ∈ ps, w ∣ p
  lt : ∀ p ∈ ps, p < M

/-- What is done to the words of a packed list: bitmaps stay, and addresses are moved. -/
structure Rebases (w m M start : ℕ) (f : ℕ → ℕ) : Prop where
  odd : ∀ word, word % 2 = 1 → word < 2 ^ (windowBits w + 1) → f word = word
  even : ∀ word, word % 2 = 0 → word < M → f word = (start + word) % m

namespace Increasing

variable {base : ℕ} {ps front rest : List ℕ}

theorem of_append_left (h : Increasing w M base (front ++ rest)) : Increasing w M base front where
  sorted := (List.pairwise_append.mp h.sorted).1
  base_le p hp := h.base_le p (List.mem_append_left _ hp)
  dvd p hp := h.dvd p (List.mem_append_left _ hp)
  lt p hp := h.lt p (List.mem_append_left _ hp)

theorem of_append_right (h : Increasing w M base (front ++ rest)) : Increasing w M base rest where
  sorted := (List.pairwise_append.mp h.sorted).2.1
  base_le p hp := h.base_le p (List.mem_append_right _ hp)
  dvd p hp := h.dvd p (List.mem_append_right _ hp)
  lt p hp := h.lt p (List.mem_append_right _ hp)

/-- The addresses behind the first one are at least a word behind it. -/
theorem tail {p : ℕ} (h : Increasing w M base (p :: ps)) : Increasing w M (p + w) ps where
  sorted := (List.pairwise_cons.mp h.sorted).2
  base_le q hq := by
    have hlt := (List.pairwise_cons.mp h.sorted).1 q hq
    have hp := h.dvd p List.mem_cons_self
    have hq := h.dvd q (List.mem_cons_of_mem _ hq)
    have hle := Nat.le_of_dvd (by omega) (Nat.dvd_sub hq hp)
    omega
  dvd q hq := h.dvd q (List.mem_cons_of_mem _ hq)
  lt q hq := h.lt q (List.mem_cons_of_mem _ hq)

theorem mod (h : Increasing w M base ps) : Increasing w M (base % M) ps where
  sorted := h.sorted
  base_le p hp := (Nat.mod_le base M).trans (h.base_le p hp)
  dvd := h.dvd
  lt := h.lt

/-- What is left behind a bitmap is behind its range. -/
theorem collectBits_rest {bits : ℕ}
    (hrest : Increasing w M base (collectBits w M base ps bits).2) :
    Increasing w M (base + maxDelta w) (collectBits w M base ps bits).2 where
  sorted := hrest.sorted
  base_le q hq := by
    obtain ⟨p, rest, heq⟩ := List.exists_cons_of_ne_nil (List.ne_nil_of_mem hq)
    have hfar := maxDelta_le_of_collectBits heq
    rw [heq] at hrest hq
    have hp := hrest.base_le p List.mem_cons_self
    rw [residueSub_of_le hp (hrest.lt p List.mem_cons_self)] at hfar
    rcases List.mem_cons.mp hq with rfl | hq
    · omega
    · have hlt := (List.pairwise_cons.mp hrest.sorted).1 q hq
      omega
  dvd := hrest.dvd
  lt := hrest.lt

end Increasing

theorem bitmapPlaces_eq (hm : m ∣ M) {base b bits : ℕ}
    (hb : b % m = (start + base) % m) (hbase : w ∣ base) {front : List ℕ}
    (h : Increasing w M base front)
    (hwindow : ∀ p ∈ front, residueSub M p base < maxDelta w)
    (hbits : ∀ i, bits.testBit i = true ↔ ∃ p ∈ front, residueSub M p base / w = i) :
    bitmapPlaces w m b bits = front.map fun p => (start + p) % m := by
  have hsub (p : ℕ) (hp : p ∈ front) : residueSub M p base = p - base :=
    residueSub_of_le (h.base_le p hp) (h.lt p hp)
  have hdvd (p : ℕ) (hp : p ∈ front) : w ∣ residueSub M p base := by
    rw [hsub p hp]
    exact Nat.dvd_sub (h.dvd p hp) hbase
  have hfilter : ((List.range (windowBits w)).filter fun i => bits.testBit i) =
      front.map fun p => residueSub M p base / w := by
    apply filter_range_eq
    · apply List.pairwise_map.mpr
      apply h.sorted.imp_of_mem
      intro p q hp hq hlt
      have hge := h.base_le p hp
      apply Nat.div_lt_div_of_lt_of_dvd (hdvd q hq)
      rw [hsub p hp, hsub q hq]
      omega
    · intro i
      rw [hbits, List.mem_map]
      constructor
      · rintro ⟨p, hp, rfl⟩
        refine ⟨Nat.div_lt_of_lt_mul ?_, p, hp, rfl⟩
        rw [Nat.mul_comm]
        exact hwindow p hp
      · exact fun hi => hi.2
  rw [bitmapPlaces, hfilter, List.map_map]
  apply List.map_congr_left
  intro p hp
  have hM : 0 < M := Nat.zero_lt_of_lt (h.lt p hp)
  exact bitPlace_eq hm hM hb (hdvd p hp)

section Unpack

variable (hm : m ∣ M) (hwM : w ∣ M) {f : ℕ → ℕ} (hf : Rebases w m M start f)

include hm hwM hf

/-- The bitmaps behind an address are read as the addresses that they take. -/
theorem unpack_packBitmaps {base b : ℕ} {ps : List ℕ} (hb : b % m = (start + base) % m)
    (hbase : w ∣ base) (h : Increasing w M base ps) :
    ∃ front, ps = front ++ (packBitmaps w M base ps).2 ∧
      unpack w m b ((packBitmaps w M base ps).1.map f) = front.map fun p => (start + p) % m := by
  induction base, ps using packBitmaps.induct w M generalizing b with
  | case1 base ps hzero =>
    obtain ⟨front, hsplit, -, hbits⟩ := @exists_collectBits w M base ps 0
    obtain rfl : front = [] := by
      apply List.eq_nil_iff_forall_not_mem.mpr
      intro p hp
      have hbit := (hbits (residueSub M p base / w)).mpr (Or.inr ⟨p, hp, rfl⟩)
      rw [hzero, Nat.zero_testBit] at hbit
      exact absurd hbit Bool.false_ne_true
    rw [packBitmaps, dif_pos hzero]
    exact ⟨[], hsplit, rfl⟩
  | case2 base ps hzero ih =>
    obtain ⟨front, hsplit, hwindow, hbits⟩ := @exists_collectBits w M base ps 0
    have hbits' (i : ℕ) : (collectBits w M base ps 0).1.testBit i = true ↔
        ∃ p ∈ front, residueSub M p base / w = i := by
      simpa using hbits i
    have hboth := h
    rw [hsplit] at hboth
    have hbitmap := bitmapPlaces_eq hm hb hbase hboth.of_append_left hwindow hbits'
    have hdvd : w ∣ (base + maxDelta w) % M :=
      (Nat.dvd_mod_iff hwM).mpr (Nat.dvd_add hbase (Nat.dvd_mul_left _ _))
    obtain ⟨front', hsplit', hrest⟩ :=
      ih (nextBase_mod hm hb) hdvd hboth.of_append_right.collectBits_rest.mod
    rw [packBitmaps, dif_neg hzero]
    refine ⟨front ++ front', ?_, ?_⟩
    · rw [List.append_assoc, ← hsplit', ← hsplit]
    · have hodd := bitmapWord_mod_two (collectBits w M base ps 0).1
      rw [List.map_cons, hf.odd _ hodd (bitmapWord_lt hwindow hbits'), unpack,
        if_neg (by omega), bitmapWord_shiftRight, hbitmap, List.map_append]
      exact congrArg _ hrest

theorem unpack_pack (hw2 : 2 ∣ w) (hm2 : 2 ∣ m) {ps : List ℕ}
    (hstart : ps ≠ [] → 2 ∣ start) (h : Increasing w M 0 ps) (b : ℕ) :
    unpack w m b ((pack w M ps).map f) = ps.map fun p => (start + p) % m := by
  induction ps using pack.induct w M generalizing b with
  | case1 =>
    rw [pack]
    rfl
  | case2 p ps ih =>
    have hp : 2 ∣ p := hw2.trans (h.dvd p List.mem_cons_self)
    have heven : (start + p) % m % 2 = 0 := Nat.mod_eq_zero_of_dvd
      ((Nat.dvd_mod_iff hm2).mpr (Nat.dvd_add (hstart (List.cons_ne_nil p ps)) hp))
    have hb : ((start + p) % m + w) % m % m = (start + (p + w) % M) % m := by
      have hmod : (p + w) % M ≡ p + w [MOD m] := Nat.ModEq.of_dvd hm (Nat.mod_modEq _ _)
      rw [Nat.mod_mod, Nat.mod_add_mod, Nat.add_assoc]
      exact hmod.symm.add_left _
    have hdvd : w ∣ (p + w) % M :=
      (Nat.dvd_mod_iff hwM).mpr (Nat.dvd_add (h.dvd p List.mem_cons_self) (dvd_refl w))
    obtain ⟨front, hsplit, hfront⟩ :=
      unpack_packBitmaps hm hwM hf hb hdvd h.tail.mod
    have hlater : Increasing w M 0 (packBitmaps w M ((p + w) % M) ps).2 := by
      have htail : Increasing w M 0 ps := @Increasing.of_append_right w M 0 [p] ps h
      rw [hsplit] at htail
      exact htail.of_append_right
    have hpack : (pack w M (p :: ps)).map f = (start + p) % m ::
        ((packBitmaps w M ((p + w) % M) ps).1.map f ++
          (pack w M (packBitmaps w M ((p + w) % M) ps).2).map f) := by
      rw [pack, List.map_cons, List.map_append,
        hf.even p (Nat.mod_eq_zero_of_dvd hp) (h.lt p List.mem_cons_self)]
    obtain ⟨b', hb'⟩ := @unpack_append w m (((start + p) % m + w) % m)
      ((packBitmaps w M ((p + w) % M) ps).1.map f)
      ((pack w M (packBitmaps w M ((p + w) % M) ps).2).map f)
    have hrest := ih (fun _ => hstart (List.cons_ne_nil p ps)) hlater b'
    rw [hpack, unpack, if_pos heven, hb', hfront, hrest, ← List.map_append, ← hsplit]
    rfl

end Unpack

end InOrder

end Mold.Lib
