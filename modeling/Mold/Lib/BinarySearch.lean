import Mathlib.Data.Nat.Basic

/-!
# Binary search

A table is searched for the last of its keys that is at most a given number.
The search finds it whenever the keys that are at most the number come first,
and whatever it finds is at most the number.
-/

namespace Mold.Lib

/-- The search between two bounds: the index behind the key that is found. -/
def upperBound (key : ℕ → ℕ) (x low high : ℕ) : ℕ :=
  if low < high then
    if key ((low + high) / 2) ≤ x then
      upperBound key x ((low + high) / 2 + 1) high
    else
      upperBound key x low ((low + high) / 2)
  else
    low
termination_by high - low

/-- The index of the last of the first `n` keys that is at most `x`. -/
def lastAtMost (key : ℕ → ℕ) (x n : ℕ) : Option ℕ :=
  match upperBound key x 0 n with
  | 0 => none
  | i + 1 => some i

variable {key : ℕ → ℕ} {x : ℕ}

/-- If the keys that are at most `x` come first, the search finds their end. -/
theorem upperBound_eq {low high k : ℕ} (hlow : low ≤ k) (hhigh : k ≤ high)
    (hle : ∀ i < k, key i ≤ x) (hlt : ∀ i, k ≤ i → i < high → x < key i) :
    upperBound key x low high = k := by
  induction low, high using upperBound.induct key x with
  | case1 low high hbounds hmid ih =>
    rw [upperBound, if_pos hbounds, if_pos hmid]
    refine ih ?_ hhigh hlt
    by_contra hk
    have hgt := hlt ((low + high) / 2) (by omega) (by omega)
    exact absurd hmid (Nat.not_le_of_gt hgt)
  | case2 low high hbounds hmid ih =>
    rw [upperBound, if_pos hbounds, if_neg hmid]
    refine ih hlow ?_ fun i hi hlt' => hlt i hi (by omega)
    by_contra hk
    exact hmid (hle _ (Nat.lt_of_not_le hk))
  | case3 low high hbounds =>
    rw [upperBound, if_neg hbounds]
    omega

theorem le_upperBound {low high : ℕ} : low ≤ upperBound key x low high := by
  induction low, high using upperBound.induct key x with
  | case1 low high hbounds hmid ih =>
    rw [upperBound, if_pos hbounds, if_pos hmid]
    omega
  | case2 low high hbounds hmid ih =>
    rw [upperBound, if_pos hbounds, if_neg hmid]
    exact ih
  | case3 low high hbounds =>
    rw [upperBound, if_neg hbounds]

/-- The key in front of the end that is found is at most `x`. -/
theorem key_of_lt_upperBound {low high : ℕ} (h : low < upperBound key x low high) :
    key (upperBound key x low high - 1) ≤ x ∧ upperBound key x low high ≤ high := by
  induction low, high using upperBound.induct key x with
  | case1 low high hbounds hmid ih =>
    rw [upperBound, if_pos hbounds, if_pos hmid] at h ⊢
    rcases Nat.lt_or_ge ((low + high) / 2 + 1)
      (upperBound key x ((low + high) / 2 + 1) high) with hlt | hge
    · exact ih hlt
    · have hle : (low + high) / 2 + 1 ≤ upperBound key x ((low + high) / 2 + 1) high :=
        le_upperBound
      have heq := Nat.le_antisymm hge hle
      rw [heq]
      constructor
      · rwa [Nat.add_sub_cancel]
      · omega
  | case2 low high hbounds hmid ih =>
    rw [upperBound, if_pos hbounds, if_neg hmid] at h ⊢
    obtain ⟨hkey, hle⟩ := ih h
    exact ⟨hkey, by omega⟩
  | case3 low high hbounds =>
    rw [upperBound, if_neg hbounds] at h
    exact absurd h (Nat.lt_irrefl low)

theorem lastAtMost_eq_some {n i : ℕ} (hi : i < n) (hle : ∀ j ≤ i, key j ≤ x)
    (hlt : ∀ j, i < j → j < n → x < key j) : lastAtMost key x n = some i := by
  have hbound : upperBound key x 0 n = i + 1 :=
    upperBound_eq (Nat.zero_le _) hi (fun j hj => hle j (Nat.le_of_lt_succ hj)) hlt
  rw [lastAtMost, hbound]

/-- The search in a list of keys of which those up to `k` are at most `x`. -/
theorem lastAtMost_append {front back : List ℕ} {k : ℕ}
    (hkey : ∀ (i : ℕ) y, (front ++ k :: back)[i]? = some y → key i = y)
    (hfront : ∀ y ∈ front, y ≤ x) (hk : k ≤ x) (hback : ∀ y ∈ back, x < y) :
    lastAtMost key x (front ++ k :: back).length = some front.length := by
  have hlen : (front ++ k :: back).length = front.length + 1 + back.length := by
    rw [List.length_append, List.length_cons, Nat.add_right_comm, Nat.add_assoc]
  apply lastAtMost_eq_some
  · rw [hlen]
    exact Nat.lt_of_lt_of_le (Nat.lt_succ_self _) (Nat.le_add_right _ _)
  · intro i hi
    rcases Nat.lt_or_eq_of_le hi with hlt | rfl
    · have hget : (front ++ k :: back)[i]? = some front[i] := by
        rw [List.getElem?_append_left hlt, List.getElem?_eq_getElem hlt]
      rw [hkey i _ hget]
      exact hfront _ (List.getElem_mem hlt)
    · have hget : (front ++ k :: back)[front.length]? = some k := by
        rw [List.getElem?_append_right (Nat.le_refl _), Nat.sub_self]
        rfl
      rw [hkey front.length k hget]
      exact hk
  · intro i hi hlt
    obtain ⟨y, hy⟩ : ∃ y, (front ++ k :: back)[i]? = some y :=
      ⟨_, List.getElem?_eq_getElem hlt⟩
    rw [hkey i y hy]
    apply hback
    have hsplit : front ++ k :: back = (front ++ [k]) ++ back := by
      rw [List.append_assoc, List.singleton_append]
    have hle : (front ++ [k]).length ≤ i := by
      rw [List.length_append]
      exact hi
    rw [hsplit, List.getElem?_append_right hle] at hy
    exact List.mem_of_getElem? hy

/-- In a sorted list the greatest number that is at most `x` is found. -/
theorem lastAtMost_of_sorted {l : List ℕ} (hsorted : l.Pairwise (· ≤ ·)) {f : ℕ} (hf : f ∈ l)
    (hle : f ≤ x) (hmax : ∀ g ∈ l, g ≤ x → g ≤ f) :
    ∃ i, lastAtMost (fun k => l.getD k 0) x l.length = some i ∧ l[i]? = some f := by
  -- the last place of `f` is the one that is found
  obtain ⟨back, front, hsplit, hback⟩ := List.eq_append_cons_of_mem (List.mem_reverse.mpr hf)
  obtain rfl : l = front.reverse ++ f :: back.reverse := by
    rw [← List.reverse_reverse l, hsplit, List.reverse_append, List.reverse_cons,
      List.append_assoc, List.singleton_append]
  obtain ⟨-, hcons, hcross⟩ := List.pairwise_append.mp hsorted
  have hfirst := (List.pairwise_cons.mp hcons).1
  refine ⟨front.reverse.length, lastAtMost_append (fun i y hy => ?_) ?_ hle ?_, ?_⟩
  · rw [List.getD_eq_getElem?_getD, hy, Option.getD_some]
  · exact fun y hy => Nat.le_trans (hcross y hy f List.mem_cons_self) hle
  · intro y hy
    by_contra hyx
    have hyf := hmax y (List.mem_append_right _ (List.mem_cons_of_mem _ hy)) (Nat.le_of_not_lt hyx)
    rw [Nat.le_antisymm hyf (hfirst y hy)] at hy
    exact hback (List.mem_reverse.mp hy)
  · rw [List.getElem?_append_right (Nat.le_refl _), Nat.sub_self]
    rfl

/-- What is found is at most `x`. -/
theorem key_of_lastAtMost {n i : ℕ} (h : lastAtMost key x n = some i) : key i ≤ x ∧ i < n := by
  rw [lastAtMost] at h
  split at h
  · exact absurd h (by simp)
  · next j hj =>
      obtain rfl := Option.some.inj h
      have hbound := key_of_lt_upperBound (Nat.lt_of_lt_of_eq (Nat.succ_pos j) hj.symm)
      rw [hj] at hbound
      exact hbound

end Mold.Lib
