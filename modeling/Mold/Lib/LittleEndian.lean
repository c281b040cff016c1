import Mathlib.Data.List.SplitBy
import Mold.Lib.Uleb128

/-!
# Little-endian words and tables of records

A word is stored as a fixed number of bytes, the lowest one first.  A table is
the concatenation of records of one length, and the record with a number is
found at that multiple of the length.

Words over a linearly ordered alphabet are compared lexicographically.  The
words between two words that share a prefix share it too, so the common prefix
of a sorted list is that of its first and last word.  Behind a shared prefix
the next letters of a sorted list are sorted, and the words fall into runs of
equal next letter.
-/

namespace Mold.Lib

/-! ## Words -/

/-- The `n` low bytes of a number. -/
def le : ℕ → ℕ → List Byte
  | 0, _ => []
  | n + 1, x => Fin.ofNat 256 x :: le n (x / 256)

def readLe : List Byte → ℕ
  | [] => 0
  | b :: bytes => b.val + 256 * readLe bytes

@[simp] theorem length_le (n x : ℕ) : (le n x).length = n := by
  induction n generalizing x with
  | zero => rfl
  | succ n ih => rw [le, List.length_cons, ih]

theorem le_eq_map (n x : ℕ) :
    le n x = (List.range n).map fun i => Fin.ofNat 256 (x / 256 ^ i) := by
  induction n generalizing x with
  | zero => rfl
  | succ n ih =>
    rw [le, ih, List.range_succ_eq_map, List.map_cons, List.map_map, pow_zero, Nat.div_one]
    refine congrArg _ (List.map_congr_left fun i _ => ?_)
    rw [Function.comp_apply, Nat.div_div_eq_div_mul, ← pow_succ']

theorem readLe_lt (bytes : List Byte) : readLe bytes < 256 ^ bytes.length := by
  induction bytes with
  | nil => exact Nat.one_pos
  | cons b bytes ih =>
    have hb := b.isLt
    rw [readLe, List.length_cons, pow_succ]
    omega

theorem readLe_le (n x : ℕ) : readLe (le n x) = x % 256 ^ n := by
  induction n generalizing x with
  | zero => rw [le, readLe, pow_zero, Nat.mod_one]
  | succ n ih =>
    rw [le, readLe, ih, Fin.val_ofNat, pow_succ, Nat.mul_comm (256 ^ n), Nat.mod_mul]

theorem readLe_le_of_lt {n x : ℕ} (h : x < 256 ^ n) : readLe (le n x) = x := by
  rw [readLe_le, Nat.mod_eq_of_lt h]

section Tables

variable {α β : Type*} {n : ℕ}

theorem drop_append_of_length {l₁ : List β} (l₂ : List β)
    (h : l₁.length = n) : (l₁ ++ l₂).drop n = l₂ := by
  rw [← h]
  exact List.drop_left

theorem take_append_of_length {l₁ : List β} (l₂ : List β)
    (h : l₁.length = n) : (l₁ ++ l₂).take n = l₁ := by
  rw [← h]
  exact List.take_left

variable {f : α → List β}

theorem length_flatMap_const (h : ∀ x, (f x).length = n)
    (l : List α) : (l.flatMap f).length = n * l.length := by
  induction l with
  | nil => rfl
  | cons x l ih =>
    rw [List.flatMap_cons, List.length_append, h, ih, List.length_cons, Nat.mul_succ, Nat.add_comm]

/-- The record with the number `i` begins at `n * i`, and the later records are
behind it. -/
theorem drop_flatMap_const (h : ∀ x, (f x).length = n)
    (l : List α) (i : ℕ) : (l.flatMap f).drop (n * i) = (l.drop i).flatMap f := by
  induction i generalizing l with
  | zero => rfl
  | succ i ih =>
    cases l with
    | nil => simp
    | cons x l =>
      rw [List.flatMap_cons, List.drop_succ_cons, Nat.mul_succ, Nat.add_comm,
        ← List.drop_drop, drop_append_of_length _ (h x), ih]

theorem take_drop_flatMap_const (h : ∀ x, (f x).length = n)
    {l : List α} {i : ℕ} {x : α} (hx : l[i]? = some x) :
    ((l.flatMap f).drop (n * i)).take n = f x := by
  obtain ⟨hi, hget⟩ := List.getElem?_eq_some_iff.mp hx
  rw [drop_flatMap_const h, List.drop_eq_getElem_cons hi, hget, List.flatMap_cons,
    take_append_of_length _ (h x)]

theorem take_drop_record (h : ∀ x, (f x).length = n)
    {l : List α} {i : ℕ} {x : α} (hx : l[i]? = some x) {j m : ℕ} (hjm : j + m ≤ n) :
    ((l.flatMap f).drop (n * i + j)).take m = ((f x).drop j).take m := by
  rw [← take_drop_flatMap_const h hx, List.drop_take, List.take_take, List.drop_drop,
    Nat.min_eq_left (by omega)]

theorem drop_flatMap (l : List α) (i : ℕ) :
    (l.flatMap f).drop ((l.take i).flatMap f).length = (l.drop i).flatMap f := by
  have hsplit : l.flatMap f = (l.take i).flatMap f ++ (l.drop i).flatMap f := by
    rw [← List.flatMap_append, List.take_append_drop]
  rw [hsplit]
  exact List.drop_left

end Tables

/-! ## Reading words -/

/-- The word of `n` bytes at the given offset. -/
def readAt (n : ℕ) (buf : List Byte) (offset : ℕ) : ℕ :=
  readLe ((buf.drop offset).take n)

theorem readAt_append_right {front : List Byte} (buf : List Byte) {m : ℕ}
    (h : front.length = m) (n offset : ℕ) :
    readAt n (front ++ buf) (m + offset) = readAt n buf offset := by
  rw [readAt, ← List.drop_drop, drop_append_of_length _ h]
  rfl

theorem readAt_append_left {front : List Byte} (buf : List Byte) {n offset : ℕ}
    (h : offset + n ≤ front.length) :
    readAt n (front ++ buf) offset = readAt n front offset := by
  rw [readAt, readAt, List.drop_append_of_le_length (by omega),
    List.take_append_of_le_length (by rw [List.length_drop]; omega)]

@[simp] theorem readAt_le (n x : ℕ) (buf : List Byte) :
    readAt n (le n x ++ buf) 0 = x % 256 ^ n := by
  rw [readAt, List.drop_zero, take_append_of_length _ (length_le n x), readLe_le]

theorem readAt_le_nil (n x : ℕ) : readAt n (le n x) 0 = x % 256 ^ n := by
  have hread := readAt_le n x []
  rwa [List.append_nil] at hread

theorem readAt_skip (m x : ℕ) (buf : List Byte) (n offset : ℕ) :
    readAt n (le m x ++ buf) (m + offset) = readAt n buf offset :=
  readAt_append_right buf (length_le m x) n offset

theorem readAt_drop (n : ℕ) (buf : List Byte) (m offset : ℕ) :
    readAt n (buf.drop m) offset = readAt n buf (m + offset) := by
  rw [readAt, readAt, List.drop_drop]

/-- A word in the record with the number `i` of a table. -/
theorem readAt_flatMap_const {α : Type*} {f : α → List Byte} {m : ℕ}
    (h : ∀ x, (f x).length = m) {l : List α} {i : ℕ} {x : α} (hx : l[i]? = some x)
    (buf : List Byte) {n offset : ℕ} (hn : offset + n ≤ m) :
    readAt n (l.flatMap f ++ buf) (m * i + offset) = readAt n (f x) offset := by
  obtain ⟨hi, hget⟩ := List.getElem?_eq_some_iff.mp hx
  have hle : m * i ≤ (l.flatMap f).length := by
    rw [length_flatMap_const h]
    exact Nat.mul_le_mul_left m (Nat.le_of_lt hi)
  rw [← readAt_drop, List.drop_append_of_le_length hle, drop_flatMap_const h,
    List.drop_eq_getElem_cons hi, hget, List.flatMap_cons, List.append_assoc]
  exact readAt_append_left _ ((h x).symm ▸ hn)

/-! ## Sorted words and common prefixes -/

variable {α : Type*}

def commonPrefixLen [DecidableEq α] : List α → List α → ℕ
  | a :: x, b :: y => if a = b then commonPrefixLen x y + 1 else 0
  | _, _ => 0

section CommonPrefix

variable [DecidableEq α]

theorem commonPrefixLen_le_left (x y : List α) : commonPrefixLen x y ≤ x.length := by
  induction x, y using commonPrefixLen.induct with
  | case1 x b y ih => simpa [commonPrefixLen] using ih
  | case2 a x b y hne => simp [commonPrefixLen, hne]
  | case3 x y hnot => simp [commonPrefixLen]

theorem take_commonPrefixLen (x y : List α) :
    x.take (commonPrefixLen x y) = y.take (commonPrefixLen x y) := by
  induction x, y using commonPrefixLen.induct with
  | case1 x b y ih => simpa [commonPrefixLen] using ih
  | case2 a x b y hne => simp [commonPrefixLen, hne]
  | case3 x y hnot => simp [commonPrefixLen]

/-- A shared prefix is no longer than the longest one. -/
theorem le_commonPrefixLen {x y : List α} {n : ℕ} (hx : n ≤ x.length)
    (hy : n ≤ y.length) (h : x.take n = y.take n) :
    n ≤ commonPrefixLen x y := by
  induction n generalizing x y with
  | zero => exact Nat.zero_le _
  | succ n ih =>
    cases x with
    | nil => simp at hx
    | cons a x =>
      cases y with
      | nil => simp at hy
      | cons b y =>
        simp only [List.take_succ_cons, List.cons.injEq] at h
        simp only [List.length_cons, Nat.add_le_add_iff_right] at hx hy
        simp [commonPrefixLen, h.1, ih hx hy h.2]

theorem getElem?_commonPrefixLen_ne {x y : List α}
    (hx : commonPrefixLen x y < x.length) (hy : commonPrefixLen x y < y.length) :
    x[commonPrefixLen x y]? ≠ y[commonPrefixLen x y]? := by
  intro heq
  have htake : x.take (commonPrefixLen x y + 1) = y.take (commonPrefixLen x y + 1) := by
    rw [List.take_add_one, List.take_add_one, take_commonPrefixLen, heq]
  exact absurd (le_commonPrefixLen hx hy htake) (by omega)

end CommonPrefix

section Order

variable [LinearOrder α] {x y : List α}

theorem cons_le_cons_iff {a b : α} : a :: x ≤ b :: y ↔ a < b ∨ a = b ∧ x ≤ y := by
  rw [le_iff_lt_or_eq, le_iff_lt_or_eq, List.cons_lt_cons_iff, List.cons.injEq]
  tauto

/-- What the outer two of three sorted words share, the middle one shares. -/
theorem take_eq_of_le_of_le {x y z : List α} {n : ℕ} (hxy : x ≤ y)
    (hyz : y ≤ z) (hn : n ≤ x.length) (h : x.take n = z.take n) :
    y.take n = x.take n := by
  induction n generalizing x y z with
  | zero => rfl
  | succ n ih =>
    cases x with
    | nil => simp at hn
    | cons a x =>
      cases z with
      | nil => simp at h
      | cons c z =>
        cases y with
        | nil => exact absurd hxy (not_le.mpr (by simp))
        | cons b y =>
          simp only [List.take_succ_cons, List.cons.injEq] at h ⊢
          simp only [List.length_cons, Nat.add_le_add_iff_right] at hn
          obtain ⟨rfl, htake⟩ := h
          rw [cons_le_cons_iff] at hxy hyz
          rcases hxy with hlt | ⟨rfl, hxy⟩
          · rcases hyz with hgt | ⟨rfl, -⟩
            · exact absurd (hlt.trans hgt) (lt_irrefl a)
            · exact absurd hlt (lt_irrefl b)
          · rcases hyz with hlt | ⟨-, hyz⟩
            · exact absurd hlt (lt_irrefl a)
            · exact ⟨rfl, ih hxy hyz hn htake⟩

/-- Behind a shared prefix the next letters are in order. -/
theorem getElem_le_of_le {n : ℕ} (hxy : x ≤ y)
    (h : x.take n = y.take n) (hx : n < x.length) (hy : n < y.length) :
    x[n] ≤ y[n] := by
  induction n generalizing x y with
  | zero =>
    cases x with
    | nil => simp at hx
    | cons a x =>
      cases y with
      | nil => simp at hy
      | cons b y =>
        rw [cons_le_cons_iff] at hxy
        rcases hxy with hlt | ⟨rfl, -⟩
        · exact hlt.le
        · exact le_refl a
  | succ n ih =>
    cases x with
    | nil => simp at hx
    | cons a x =>
      cases y with
      | nil => simp at hy
      | cons b y =>
        simp only [List.take_succ_cons, List.cons.injEq] at h
        obtain ⟨rfl, htake⟩ := h
        rw [cons_le_cons_iff] at hxy
        rcases hxy with hlt | ⟨-, hxy⟩
        · exact absurd hlt (lt_irrefl a)
        · exact ih hxy htake _ _

theorem le_of_prefix (hpre : y <+: x) : y ≤ x := by
  obtain ⟨t, rfl⟩ := hpre
  induction y with
  | nil => exact not_lt.mp (by simp)
  | cons a y ih => exact cons_le_cons_iff.mpr (Or.inr ⟨rfl, ih⟩)

end Order

end Mold.Lib
