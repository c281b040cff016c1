import Mathlib.Data.Int.ModEq
import Mold.Lib.LittleEndian
import Mold.Lib.Memory

/-!
# Pointers relative to their own address

A record holds signed words, each of them the distance from its own address to that of
another object.  Addresses are taken modulo `2 ^ 64`, and the words may be shorter.  If
the distance fits, it is enough to know it modulo the range of the word.

A buffer holds records one behind another, and a record names the distance to
the next record of its chain.  A distance of zero ends the chain.
-/

namespace Mold.Lib

/-! ## Distances -/

/-- A distance is a signed number with `N` values. -/
def Fits (N : ℕ) (d : ℤ) : Prop :=
  ∃ e, e ≡ d [ZMOD 2 ^ 64] ∧ -(N : ℤ) ≤ 2 * e ∧ 2 * e < N

variable {N : ℕ}

theorem fits_of_modEq_zero (hN : 0 < N) {d : ℤ} (h : d ≡ 0 [ZMOD 2 ^ 64]) : Fits N d :=
  ⟨0, h.symm, by omega, by omega⟩

theorem modEq_of_dvd (hN : N ∣ 2 ^ 64) {a b : ℤ} (h : a ≡ b [ZMOD 2 ^ 64]) : a ≡ b [ZMOD N] := by
  refine h.of_dvd ?_
  exact_mod_cast hN

theorem bmod_modEq_self (x : ℤ) (N : ℕ) : Int.bmod x N ≡ x [ZMOD N] :=
  (Int.modEq_iff_dvd.mpr Int.dvd_self_sub_bmod)

/-- A distance that fits is known from the short word. -/
theorem bmod_modEq_iff (hN : N ∣ 2 ^ 64) {x d : ℤ} (h : Fits N d) :
    Int.bmod x N ≡ d [ZMOD 2 ^ 64] ↔ x ≡ d [ZMOD N] := by
  obtain ⟨e, he, hlo, hhi⟩ := h
  constructor
  · intro hx
    exact (bmod_modEq_self x N).symm.trans (modEq_of_dvd hN hx)
  · intro hx
    have hpos : 0 < N := Nat.pos_of_dvd_of_pos hN (by decide)
    have hdvd : (N : ℤ) ∣ x - e :=
      (hx.trans (modEq_of_dvd hN he).symm).symm.dvd
    have heq : Int.bmod x N = e := by
      refine (Int.bmod_eq_iff hpos).mpr ⟨by omega, by omega, ?_⟩
      rwa [← Int.neg_sub, Int.dvd_neg]
    rwa [heq]

theorem bmod_toNat_emod (x : ℤ) (k : ℕ) :
    Int.bmod ((x % 2 ^ k).toNat : ℤ) (2 ^ k) = Int.bmod x (2 ^ k) := by
  have hpos : (2 : ℤ) ^ k ≠ 0 := pow_ne_zero k two_ne_zero
  have hcast : (2 : ℤ) ^ k = ((2 ^ k : ℕ) : ℤ) := (Nat.cast_pow 2 k).symm
  rw [Int.toNat_of_nonneg (Int.emod_nonneg x hpos), hcast, Int.emod_bmod]

/-- Objects can be placed anywhere.  Then a distance that is taken to the object `s`, with
some amount `a` added, is right for the object `t` exactly if the two are the same, and
the amounts are equal in the word. -/
theorem forall_addr_iff {σ : Type*} (hN : N ∣ 2 ^ 64) (hone : 1 < N)
    {P : ℤ → Prop} (hP : ∀ d, d ≡ 0 [ZMOD 2 ^ 64] → P d) {s t : σ} {a b : ℤ} :
    (∀ addr : σ → ℕ, P (addr t + b) → addr s + a ≡ addr t + b [ZMOD N]) ↔
      s = t ∧ a ≡ b [ZMOD N] := by
  classical
  constructor
  · intro h
    -- the address at which the distance is zero, or is `k` for another object
    have hzero (c k : ℤ) : ((k - c) % 2 ^ 64).toNat + c ≡ k [ZMOD 2 ^ 64] := by
      rw [Int.toNat_of_nonneg (Int.emod_nonneg _ (by decide))]
      have hmod : (k - c) % 2 ^ 64 + c ≡ k - c + c [ZMOD 2 ^ 64] :=
        (Int.mod_modEq _ _).add_right c
      rwa [Int.sub_add_cancel] at hmod
    have hsame : s = t := by
      by_contra hne
      let addr : σ → ℕ := fun u =>
        if u = t then ((0 - b) % 2 ^ 64).toNat else ((1 - a) % 2 ^ 64).toNat
      have ht : (addr t : ℤ) + b ≡ 0 [ZMOD 2 ^ 64] := by
        simpa only [addr, if_pos] using hzero b 0
      have hs : (addr s : ℤ) + a ≡ 1 [ZMOD 2 ^ 64] := by
        simpa only [addr, if_neg hne] using hzero a 1
      have hmod : (1 : ℤ) ≡ 0 [ZMOD N] :=
        ((modEq_of_dvd hN hs).symm.trans (h addr (hP _ ht))).trans (modEq_of_dvd hN ht)
      have hdvd := Int.modEq_zero_iff_dvd.mp hmod
      have hle := Int.le_of_dvd (by decide) hdvd
      omega
    refine ⟨hsame, ?_⟩
    have hmod := h (fun _ => ((0 - b) % 2 ^ 64).toNat) (hP _ (hzero b 0))
    exact Int.ModEq.add_left_cancel' _ hmod
  · rintro ⟨rfl, hab⟩ addr -
    exact hab.add_left _

section Buffer

variable {buf : List Byte}

theorem stop_le_word (k n x : ℕ) : (⟨k, le n x⟩ : Segment Byte).stop = k + n := by
  rw [Segment.stop, length_le]

theorem readAt_write_le {n k x : ℕ} (h : k + n ≤ buf.length) :
    readAt n (Segment.write buf ⟨k, le n x⟩) k = x % 256 ^ n := by
  rw [readAt]
  have htake : ((Segment.write buf ⟨k, le n x⟩).drop k).take n = le n x := by
    refine List.ext_getElem? fun i => ?_
    rw [List.getElem?_take, List.getElem?_drop]
    split
    case isTrue hi =>
      refine Segment.getElem?_write_of_mem (s := ⟨k, le n x⟩) ?_ ?_
      · rwa [length_le]
      · rwa [stop_le_word]
    case isFalse hi =>
      rw [List.getElem?_eq_none (by rw [length_le]; omega)]
  rw [htake, readLe_le]

theorem readAt_write_of_disjoint {n k : ℕ} {s : Segment Byte}
    (h : k + n ≤ s.start ∨ s.stop ≤ k) : readAt n (Segment.write buf s) k = readAt n buf k := by
  rw [readAt, readAt]
  congr 1
  refine List.ext_getElem? fun i => ?_
  rw [List.getElem?_take, List.getElem?_take, List.getElem?_drop, List.getElem?_drop]
  split
  case isTrue hi => exact Segment.getElem?_write_of_not_mem (by omega)
  case isFalse => rfl

theorem drop_write_of_stop_le {s : Segment Byte} {k : ℕ} (h : s.stop ≤ k) :
    (Segment.write buf s).drop k = buf.drop k := by
  refine List.ext_getElem? fun i => ?_
  rw [List.getElem?_drop, List.getElem?_drop]
  exact Segment.getElem?_write_of_not_mem (.inr (by omega))

theorem readAt_of_prefix_drop {bytes : List Byte} {start n k : ℕ}
    (h : bytes <+: buf.drop start) (hk : k + n ≤ bytes.length) :
    readAt n buf (start + k) = readAt n bytes k := by
  obtain ⟨rest, hrest⟩ := h
  rw [← readAt_drop, ← hrest]
  exact readAt_append_left rest hk

theorem readAt_lt (n : ℕ) (buf : List Byte) (k : ℕ) : readAt n buf k < 256 ^ n := by
  refine (readLe_lt _).trans_le (Nat.pow_le_pow_right (by decide) ?_)
  exact List.length_take_le _ _

end Buffer

/-! ## Records that are linked by distances -/

variable {ρ : Type*}

/-- The records of the chain that begins at `off`, with their places.  There is no
result if a record cannot be read or the steps do not suffice. -/
def followChain (next : ρ → ℕ) (read : ℕ → Option ρ) : ℕ → ℕ → Option (List (ℕ × ρ))
  | 0, _ => none
  | fuel + 1, off =>
    match read off with
    | none => none
    | some x =>
      if next x = 0 then some [(off, x)]
      else (followChain next read fuel (off + next x)).map ((off, x) :: ·)

/-- Every record names the distance to the one behind it. -/
def IsLinked (next : ρ → ℕ) : List (ℕ × ρ) → Prop
  | [] => False
  | [x] => next x.2 = 0
  | x :: y :: l => next x.2 ≠ 0 ∧ y.1 = x.1 + next x.2 ∧ IsLinked next (y :: l)

variable {next : ρ → ℕ} {read : ℕ → Option ρ}

theorem IsLinked.followChain_eq {x : ℕ × ρ} {l : List (ℕ × ρ)}
    (h : IsLinked next (x :: l)) (hread : ∀ y ∈ x :: l, read y.1 = some y.2) (fuel : ℕ)
    (hfuel : l.length < fuel) : followChain next read fuel x.1 = some (x :: l) := by
  induction l generalizing x fuel with
  | nil =>
    obtain ⟨fuel, rfl⟩ := Nat.exists_eq_add_of_lt hfuel
    have hx := hread x List.mem_cons_self
    have hnext : next x.2 = 0 := h
    simp [followChain, hx, hnext]
  | cons y l ih =>
    obtain ⟨fuel, rfl⟩ : ∃ n, fuel = n + 1 := ⟨fuel - 1, by omega⟩
    obtain ⟨hne, hplace, hlinked⟩ := h
    have hx := hread x List.mem_cons_self
    have hrest := ih hlinked (fun z hz => hread z (List.mem_cons_of_mem _ hz)) fuel
      (Nat.lt_of_succ_lt_succ hfuel)
    rw [hplace] at hrest
    simp [followChain, hx, hne, hrest]

/-! ## Changing a record of a buffer -/

theorem modify_append_length {α : Type*} (front : List α) (x : α) (back : List α) (f : α → α) :
    (front ++ x :: back).modify front.length f = front ++ f x :: back := by
  induction front with
  | nil => rfl
  | cons y front ih =>
    rw [List.cons_append, List.length_cons, List.modify_succ_cons, ih]
    rfl

end Mold.Lib
