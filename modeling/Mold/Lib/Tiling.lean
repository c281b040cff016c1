import Mathlib.Algebra.BigOperators.Group.List.Basic
import Mathlib.Algebra.Order.Ring.Nat
import Mathlib.Data.List.Nodup

/-!
# Regions that follow each other

A counter goes over a list of items and is advanced by the size of each of them.
The regions of the items cover what the counter passes, and they are apart.  When
every item fills its region with slots of one size, all the slots are filled.

The elements of a list are numbered with one counter for each class.  The
numbers of a class are consecutive, so with starts that are as far apart as the
classes are large the numbers fill a range without gaps and without
repetition.
-/

namespace Mold.Lib

variable {α : Type*}

/-! ## Tilings -/

/-- The items with the places where their regions begin. -/
def tile (size : α → ℕ) : ℕ → List α → List (α × ℕ)
  | _, [] => []
  | start, x :: l => (x, start) :: tile size (start + size x) l

def tileEnd (size : α → ℕ) (start : ℕ) (l : List α) : ℕ :=
  start + (l.map size).sum

variable {size : α → ℕ}

theorem tileEnd_cons (start : ℕ) (x : α) (l : List α) :
    tileEnd size start (x :: l) = tileEnd size (start + size x) l := by
  rw [tileEnd, tileEnd, List.map_cons, List.sum_cons, Nat.add_assoc]

theorem tile_map_fst (start : ℕ) (l : List α) : (tile size start l).map Prod.fst = l := by
  induction l generalizing start with
  | nil => rfl
  | cons x l ih => rw [tile, List.map_cons, ih]

variable {l : List α} {start : ℕ}

theorem mem_of_mem_tile {p : α × ℕ} (hp : p ∈ tile size start l) : p.1 ∈ l := by
  have hmem : p.1 ∈ (tile size start l).map Prod.fst := List.mem_map_of_mem hp
  rwa [tile_map_fst] at hmem

/-- A region begins behind the regions of the items before. -/
theorem mem_tile_iff {x : α} {s : ℕ} :
    (x, s) ∈ tile size start l ↔
      ∃ before after, l = before ++ x :: after ∧ s = tileEnd size start before := by
  induction l generalizing start with
  | nil => simp [tile]
  | cons y l ih =>
    rw [tile, List.mem_cons, ih]
    constructor
    · rintro (h | ⟨before, after, rfl, rfl⟩)
      · obtain ⟨rfl, rfl⟩ := Prod.mk.inj h
        exact ⟨[], l, rfl, rfl⟩
      · exact ⟨y :: before, after, rfl, (tileEnd_cons _ _ _).symm⟩
    · rintro ⟨before, after, hl, rfl⟩
      cases before with
      | nil =>
        obtain ⟨rfl, rfl⟩ := List.cons.inj hl
        exact .inl rfl
      | cons z before =>
        obtain ⟨rfl, rfl⟩ := List.cons.inj hl
        exact .inr ⟨before, after, rfl, tileEnd_cons _ _ _⟩

theorem exists_mem_tile {x : α} (hx : x ∈ l) (start : ℕ) : ∃ s, (x, s) ∈ tile size start l := by
  rw [← @tile_map_fst _ size start l] at hx
  obtain ⟨⟨y, s⟩, hmem, rfl⟩ := List.mem_map.mp hx
  exact ⟨s, hmem⟩

theorem bounds_of_mem_tile {p : α × ℕ} (hp : p ∈ tile size start l) :
    start ≤ p.2 ∧ p.2 + size p.1 ≤ tileEnd size start l := by
  induction l generalizing start with
  | nil => exact absurd hp List.not_mem_nil
  | cons x l ih =>
    rw [tileEnd_cons]
    rcases List.mem_cons.mp hp with rfl | hp
    · exact ⟨Nat.le_refl start, Nat.le_add_right _ _⟩
    · obtain ⟨hstart, hend⟩ := ih hp
      exact ⟨by omega, hend⟩

theorem pairwise_tile (start : ℕ) (l : List α) :
    (tile size start l).Pairwise fun p q => p.2 + size p.1 ≤ q.2 := by
  induction l generalizing start with
  | nil => exact List.Pairwise.nil
  | cons x l ih =>
    exact List.Pairwise.cons (fun q hq => (bounds_of_mem_tile hq).1) (ih _)

/-- What the counter passes is covered. -/
theorem exists_of_lt_tileEnd {start b : ℕ} (hstart : start ≤ b) (hend : b < tileEnd size start l) :
    ∃ p ∈ tile size start l, p.2 ≤ b ∧ b < p.2 + size p.1 := by
  induction l generalizing start with
  | nil =>
    rw [tileEnd, List.map_nil, List.sum_nil] at hend
    omega
  | cons x l ih =>
    by_cases hb : b < start + size x
    · exact ⟨(x, start), List.mem_cons_self, hstart, hb⟩
    · rw [tileEnd_cons] at hend
      obtain ⟨p, hp, hbounds⟩ := ih (by omega) hend
      exact ⟨p, List.mem_cons_of_mem _ hp, hbounds⟩

theorem flatMap_tile_range' (start : ℕ) (l : List α) :
    (tile size start l).flatMap (fun p => List.range' p.2 (size p.1)) =
      List.range' start ((l.map size).sum) := by
  induction l generalizing start with
  | nil => rfl
  | cons x l ih =>
    rw [tile, List.flatMap_cons, ih, List.map_cons, List.sum_cons, ← List.range'_append_1]

/-! ## Slots -/

/-- The places of `n` slots of the width `w`. -/
def slots (w start n : ℕ) : List ℕ := (List.range n).map fun i => start + w * i

theorem slots_add (w start m n : ℕ) :
    slots w start (m + n) = slots w start m ++ slots w (start + w * m) n := by
  rw [slots, List.range_add, List.map_append, List.map_map]
  congr 1
  refine List.map_congr_left fun i _ => ?_
  rw [Function.comp_apply, Nat.mul_add, Nat.add_assoc]

/-- Items that fill their regions fill all slots. -/
theorem flatMap_tile_slots (w : ℕ) (count : α → ℕ) (base start : ℕ) (l : List α) :
    (tile (fun x => w * count x) start l).flatMap (fun p => slots w (base + p.2) (count p.1)) =
      slots w (base + start) (l.map count).sum := by
  induction l generalizing start with
  | nil => rfl
  | cons x l ih =>
    rw [tile, List.flatMap_cons, ih, List.map_cons, List.sum_cons, slots_add, Nat.add_assoc]

theorem tile_mul (w : ℕ) (count : α → ℕ) (start : ℕ) (l : List α) :
    tile (fun x => w * count x) (w * start) l =
      (tile count start l).map fun p => (p.1, w * p.2) := by
  induction l generalizing start with
  | nil => rfl
  | cons x l ih => rw [tile, tile, List.map_cons, ← ih, Nat.mul_add]

/-! ## Numbering by class -/

variable {α κ : Type*} [DecidableEq κ]

/-- The numbers of the elements of a list, with the next free number of every
class. -/
def number (cls : α → κ) (next : κ → ℕ) : List α → List ℕ
  | [] => []
  | x :: xs => next (cls x) :: number cls (Function.update next (cls x) (next (cls x) + 1)) xs

variable {cls : α → κ}

@[simp] theorem number_nil (next : κ → ℕ) : number cls next [] = [] := rfl

@[simp] theorem number_cons (next : κ → ℕ) (x : α) (xs : List α) :
    number cls next (x :: xs) = next (cls x) ::
      number cls (Function.update next (cls x) (next (cls x) + 1)) xs := rfl

@[simp] theorem length_number (next : κ → ℕ) (xs : List α) :
    (number cls next xs).length = xs.length := by
  induction xs generalizing next with
  | nil => rfl
  | cons x xs ih => rw [number_cons, List.length_cons, ih, List.length_cons]

def classSize (cls : α → κ) (xs : List α) (k : κ) : ℕ :=
  xs.countP fun x => cls x = k

@[simp] theorem classSize_nil (k : κ) : classSize cls [] k = 0 := rfl

theorem classSize_cons (x : α) (xs : List α) (k : κ) :
    classSize cls (x :: xs) k = classSize cls xs k + if cls x = k then 1 else 0 := by
  simp [classSize, List.countP_cons]

theorem update_add_classSize (next : κ → ℕ) (x : α) (xs : List α) (k : κ) :
    Function.update next (cls x) (next (cls x) + 1) k + classSize cls xs k =
      next k + classSize cls (x :: xs) k := by
  rw [classSize_cons]
  by_cases h : cls x = k
  · rw [← h, Function.update_self, if_pos rfl]
    omega
  · rw [Function.update_of_ne (Ne.symm h), if_neg h, Nat.add_zero]

theorem number_append (next : κ → ℕ) (xs ys : List α) :
    number cls next (xs ++ ys) = number cls next xs ++
      number cls (fun k => next k + classSize cls xs k) ys := by
  induction xs generalizing next with
  | nil => simp
  | cons x xs ih =>
    rw [List.cons_append, number_cons, ih, number_cons, List.cons_append]
    simp only [update_add_classSize]

theorem exists_of_mem_zip_number {base next : κ → ℕ} {xs : List α} {x : α} {n : ℕ}
    (h : (x, n) ∈ xs.zip (number cls (fun k => base k + next k) xs)) :
    ∃ m, (x, m) ∈ xs.zip (number cls next xs) ∧ n = base (cls x) + m := by
  induction xs generalizing next with
  | nil => simp at h
  | cons y xs ih =>
    have hupdate : Function.update (fun k => base k + next k) (cls y)
        (base (cls y) + next (cls y) + 1) =
        fun k => base k + Function.update next (cls y) (next (cls y) + 1) k := by
      funext k
      by_cases hk : k = cls y
      · subst hk
        rw [Function.update_self, Function.update_self, Nat.add_assoc]
      · rw [Function.update_of_ne hk, Function.update_of_ne hk]
    rw [number_cons, List.zip_cons_cons, List.mem_cons, hupdate] at h
    rw [number_cons, List.zip_cons_cons]
    rcases h with h | h
    · obtain ⟨rfl, rfl⟩ := Prod.mk.inj h
      exact ⟨_, List.mem_cons_self, rfl⟩
    · obtain ⟨m, hm, hn⟩ := ih h
      exact ⟨m, List.mem_cons_of_mem _ hm, hn⟩

theorem number_mem_range {next : κ → ℕ} {xs : List α} {x : α} {n : ℕ}
    (h : (x, n) ∈ xs.zip (number cls next xs)) :
    next (cls x) ≤ n ∧ n < next (cls x) + classSize cls xs (cls x) := by
  induction xs generalizing next with
  | nil => simp at h
  | cons y xs ih =>
    have hadd : Function.update next (cls y) (next (cls y) + 1) (cls x) +
        classSize cls xs (cls x) = next (cls x) + classSize cls (y :: xs) (cls x) :=
      update_add_classSize next y xs (cls x)
    rw [number_cons, List.zip_cons_cons, List.mem_cons] at h
    rcases h with h | h
    · obtain ⟨rfl, rfl⟩ := Prod.mk.inj h
      rw [classSize_cons, if_pos rfl]
      omega
    · obtain ⟨hle, hlt⟩ := ih h
      rw [hadd] at hlt
      refine ⟨Nat.le_trans ?_ hle, hlt⟩
      by_cases hxy : cls x = cls y
      · rw [hxy, Function.update_self]
        omega
      · exact Nat.le_of_eq (Function.update_of_ne hxy _ _).symm

theorem number_perm (next : κ → ℕ) (xs : List α) {ks : List κ} (hks : ks.Nodup)
    (hcover : ∀ x ∈ xs, cls x ∈ ks) :
    (number cls next xs).Perm (ks.flatMap fun k => List.range' (next k) (classSize cls xs k)) := by
  induction xs generalizing next with
  | nil => simp
  | cons x xs ih =>
    have htail := ih (Function.update next (cls x) (next (cls x) + 1))
      fun y hy => hcover y (List.mem_cons_of_mem x hy)
    obtain ⟨front, back, rfl⟩ :=
      List.append_of_mem (hcover x List.mem_cons_self)
    have hne : ∀ k ∈ front ++ back, k ≠ cls x := by
      rintro k hk rfl
      rw [List.nodup_middle, List.nodup_cons] at hks
      exact hks.1 hk
    have hsame : ∀ k ∈ front ++ back,
        List.range' (Function.update next (cls x) (next (cls x) + 1) k) (classSize cls xs k) =
        List.range' (next k) (classSize cls (x :: xs) k) := by
      intro k hk
      rw [Function.update_of_ne (hne k hk), classSize_cons,
        if_neg (Ne.symm (hne k hk)), Nat.add_zero]
    rw [number_cons]
    refine (htail.cons _).trans ?_
    simp only [List.flatMap_append, List.flatMap_cons]
    rw [List.flatMap_congr fun k hk =>
        hsame k (List.mem_append_left back hk),
      List.flatMap_congr fun k hk =>
        hsame k (List.mem_append_right front hk),
      Function.update_self, classSize_cons, if_pos rfl, List.range'_succ,
      List.cons_append]
    exact List.perm_middle.symm

end Mold.Lib
