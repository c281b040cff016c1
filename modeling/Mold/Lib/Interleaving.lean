import Mathlib.Data.List.MinMax
import Mathlib.Data.List.Perm.Basic

/-!
# Interleavings

Several workers take the steps of their own lists, each in order.  A schedule
of all of them is an interleaving of the lists: one of the lists that still
have steps gives its first one, until all are empty.

Workers write to a memory, each its own list of bytes in order.  If only one of the workers
writes to a place, or if they all write the same there, the order in which the workers go on
does not matter.
-/

namespace Mold.Lib

variable {α β : Type*}

inductive Interleaving : List (List α) → List α → Prop
  | done {ls : List (List α)} (h : ∀ l ∈ ls, l = []) : Interleaving ls []
  | step {front back : List (List α)} {l xs : List α} {x : α}
      (h : Interleaving (front ++ l :: back) xs) :
      Interleaving (front ++ (x :: l) :: back) (x :: xs)

namespace Interleaving

variable {ls : List (List α)} {xs : List α}

theorem perm (h : Interleaving ls xs) : xs.Perm ls.flatten := by
  induction h with
  | done h =>
    rw [List.flatten_eq_nil_iff.mpr h]
  | @step front back l xs x _ ih =>
    simp only [List.flatten_append, List.flatten_cons, List.cons_append] at ih ⊢
    exact (List.Perm.cons x ih).trans List.perm_middle.symm

theorem mem_iff (h : Interleaving ls xs) {x : α} : x ∈ xs ↔ ∃ l ∈ ls, x ∈ l := by
  rw [h.perm.mem_iff, List.mem_flatten]

/-- What is made of the steps, some of them dropped, is a schedule of what the workers
make of theirs. -/
theorem filterMap (f : α → Option β) (h : Interleaving ls xs) :
    Interleaving (ls.map (List.filterMap f)) (xs.filterMap f) := by
  induction h with
  | done h =>
    apply done
    intro l hl
    obtain ⟨l', hl', rfl⟩ := List.mem_map.mp hl
    rw [h l' hl', List.filterMap_nil]
  | @step front back l xs x _ ih =>
    rw [List.map_append, List.map_cons] at ih ⊢
    cases hx : f x with
    | none => rwa [List.filterMap_cons_none hx, List.filterMap_cons_none hx]
    | some y =>
      rw [List.filterMap_cons_some hx, List.filterMap_cons_some hx]
      exact step ih

theorem getLast? (h : Interleaving ls xs) {x : α} (hx : xs.getLast? = some x) :
    ∃ l ∈ ls, l.getLast? = some x := by
  induction h with
  | done h => cases hx
  | @step front back l xs y h ih =>
    cases xs with
    | nil =>
      have hl : l = [] := by
        have hperm := h.perm.symm.eq_nil
        rw [List.flatten_eq_nil_iff] at hperm
        exact hperm l (List.mem_append_right _ List.mem_cons_self)
      subst hl
      exact ⟨[y], List.mem_append_right _ List.mem_cons_self, hx⟩
    | cons z zs =>
      rw [List.getLast?_cons_cons] at hx
      obtain ⟨k, hk, hlast⟩ := ih hx
      rw [List.mem_append, List.mem_cons] at hk
      rcases hk with hk | rfl | hk
      · exact ⟨k, List.mem_append_left _ hk, hlast⟩
      · refine ⟨y :: k, List.mem_append_right _ List.mem_cons_self, ?_⟩
        cases k with
        | nil => cases hlast
        | cons w ws => rwa [List.getLast?_cons_cons]
      · exact ⟨k, List.mem_append_right _ (List.mem_cons_of_mem _ hk), hlast⟩

/-- A worker that is not there has no steps to wait for. -/
theorem cons_nil (h : Interleaving ls xs) : Interleaving ([] :: ls) xs := by
  induction h with
  | done h =>
    apply done
    intro l hl
    rcases List.mem_cons.mp hl with rfl | hl
    · rfl
    · exact h l hl
  | @step front back l xs x _ ih =>
    rw [← List.cons_append] at ih ⊢
    exact step ih

theorem cons_append (h : Interleaving ls xs) (l : List α) : Interleaving (l :: ls) (l ++ xs) := by
  induction l with
  | nil => exact h.cons_nil
  | cons x l ih => exact @step _ [] _ _ _ _ ih

theorem flatten (ls : List (List α)) : Interleaving ls ls.flatten := by
  induction ls with
  | nil => exact done fun l hl => absurd hl List.not_mem_nil
  | cons l ls ih => exact ih.cons_append l

theorem cons_concat (h : Interleaving ls xs) (l : List α) : Interleaving (l :: ls) (xs ++ l) := by
  induction h with
  | done h => simpa using (done h).cons_append l
  | @step front back k xs x _ ih =>
    rw [← List.cons_append] at ih ⊢
    exact step ih

/-- The order of the workers does not matter. -/
theorem of_perm {ls' : List (List α)} (h : Interleaving ls xs) (hperm : ls.Perm ls') :
    Interleaving ls' xs := by
  induction h generalizing ls' with
  | done h => exact done fun l hl => h l (hperm.mem_iff.mpr hl)
  | @step front back l xs x _ ih =>
    have hmem : x :: l ∈ ls' :=
      hperm.mem_iff.mp (List.mem_append_right _ List.mem_cons_self)
    obtain ⟨front', back', rfl⟩ := List.append_of_mem hmem
    apply step
    apply ih
    have hrest : (front ++ back).Perm (front' ++ back') := by
      apply List.Perm.cons_inv (a := x :: l)
      exact (List.perm_middle.symm.trans hperm).trans List.perm_middle
    exact (List.perm_middle.trans (hrest.cons l)).trans List.perm_middle.symm

theorem last {l : List α} (hl : l ∈ ls) : ∃ xs, Interleaving ls (xs ++ l) := by
  obtain ⟨front, back, rfl⟩ := List.append_of_mem hl
  exact ⟨(front ++ back).flatten,
    ((flatten (front ++ back)).cons_concat l).of_perm List.perm_middle.symm⟩

/-- Some workers start when the others have finished. -/
theorem append {ls' : List (List α)} {ys : List α} (h : Interleaving ls xs)
    (h' : Interleaving ls' ys) : Interleaving (ls ++ ls') (xs ++ ys) := by
  induction h with
  | @done ls h =>
    induction ls with
    | nil => exact h'
    | cons l ls ih =>
      obtain rfl := h l List.mem_cons_self
      exact (ih fun l hl => h l (List.mem_cons_of_mem _ hl)).cons_nil
  | @step front back l xs x _ ih =>
    rw [List.append_assoc, List.cons_append] at ih ⊢
    exact step ih

theorem filter (p : α → Bool) (h : Interleaving ls xs) :
    Interleaving (ls.map (List.filter p)) (xs.filter p) := by
  have hguard : List.filterMap (Option.guard fun x => p x) = List.filter p :=
    List.filterMap_eq_filter
  rw [← hguard]
  exact h.filterMap _

section Least

variable {γ : Type*} [LinearOrder γ] {f : α → γ}

theorem argmin_append_cons {x : α} {as bs : List α} (h : ∀ a ∈ as, f a ≠ f x) :
    List.argmin f (as ++ x :: bs) = List.argmin f (x :: (as ++ bs)) := by
  induction as with
  | nil => rfl
  | cons a as ih =>
    have hax := h a List.mem_cons_self
    rw [List.cons_append, List.argmin_cons, ih fun b hb => h b (List.mem_cons_of_mem _ hb),
      List.cons_append, List.argmin_cons, List.argmin_cons, List.argmin_cons]
    cases List.argmin f (as ++ bs) with
    | none =>
      rcases lt_or_gt_of_ne hax with hlt | hlt
      · simp [hlt, hlt.not_gt]
      · simp [hlt, hlt.not_gt]
    | some c =>
      by_cases hcx : f c < f x
      · by_cases hca : f c < f a
        · simp [hcx, hca]
        · have hax' : f a < f x := lt_of_le_of_lt (not_lt.mp hca) hcx
          simp [hcx, hca, hax']
      · by_cases hca : f c < f a
        · have hxa : f x < f a := lt_of_le_of_lt (not_lt.mp hcx) hca
          simp [hcx, hca, hxa]
        · rcases lt_or_gt_of_ne hax with hlt | hlt
          · simp [hcx, hca, hlt, hlt.not_gt]
          · simp [hcx, hca, hlt, hlt.not_gt]

/-- If equal steps are steps of one worker, the first least step does not depend on the
schedule. -/
theorem argmin_eq (h : Interleaving ls xs)
    (hapart : ls.Pairwise fun l l' => ∀ x ∈ l, ∀ y ∈ l', f x ≠ f y) :
    List.argmin f xs = List.argmin f ls.flatten := by
  induction h with
  | done h => rw [List.flatten_eq_nil_iff.mpr h]
  | @step front back l xs x _ ih =>
    obtain ⟨hfront, hback, hcross⟩ := List.pairwise_append.mp hapart
    obtain ⟨hl, hback⟩ := List.pairwise_cons.mp hback
    have hrest : (front ++ l :: back).Pairwise fun l l' => ∀ x ∈ l, ∀ y ∈ l', f x ≠ f y := by
      refine List.pairwise_append.mpr ⟨hfront, List.pairwise_cons.mpr ⟨?_, hback⟩, ?_⟩
      · intro k hk y hy
        exact hl k hk y (List.mem_cons_of_mem x hy)
      · intro k hk k' hk' y hy z hz
        rcases List.mem_cons.mp hk' with rfl | hk'
        · exact hcross k hk _ List.mem_cons_self y hy z (List.mem_cons_of_mem x hz)
        · exact hcross k hk k' (List.mem_cons_of_mem _ hk') y hy z hz
    have hne : ∀ y ∈ front.flatten, f y ≠ f x := by
      intro y hy
      obtain ⟨k, hk, hy⟩ := List.mem_flatten.mp hy
      exact hcross k hk _ List.mem_cons_self y hy x List.mem_cons_self
    have hflat := ih hrest
    simp only [List.flatten_append, List.flatten_cons] at hflat
    rw [List.flatten_append, List.flatten_cons, List.cons_append, argmin_append_cons hne,
      List.argmin_cons, List.argmin_cons, hflat]

end Least

end Interleaving

/-! ## Writes of several workers -/

variable {β : Type*}

def applyWrites (mem : ℕ → β) (ws : List (ℕ × β)) : ℕ → β :=
  ws.foldl (fun mem w => Function.update mem w.1 w.2) mem

def writesTo (a : ℕ) (ws : List (ℕ × β)) : List β :=
  ws.filterMap fun w => if w.1 = a then some w.2 else none

def lastWrite (a : ℕ) (ws : List (ℕ × β)) : Option β := (writesTo a ws).getLast?

def copyWrites : ℕ → List β → List (ℕ × β)
  | _, [] => []
  | start, b :: bs => (start, b) :: copyWrites (start + 1) bs

/-- A place has what was written to it last. -/
theorem applyWrites_apply (mem : ℕ → β) (ws : List (ℕ × β)) (a : ℕ) :
    applyWrites mem ws a = (lastWrite a ws).getD (mem a) := by
  induction ws generalizing mem with
  | nil => rfl
  | cons w ws ih =>
    have hrest : applyWrites mem (w :: ws) a =
        applyWrites (Function.update mem w.1 w.2) ws a := rfl
    rw [hrest, ih, lastWrite, lastWrite, writesTo, writesTo, List.filterMap_cons]
    by_cases hw : w.1 = a
    · subst hw
      rw [if_pos rfl, Function.update_self, List.getLast?_cons]
      rfl
    · rw [if_neg hw, Function.update_of_ne (Ne.symm hw)]

theorem lastWrite_append (a : ℕ) (ws ws' : List (ℕ × β)) :
    lastWrite a (ws ++ ws') = (lastWrite a ws').or (lastWrite a ws) := by
  rw [lastWrite, lastWrite, lastWrite, writesTo, writesTo, writesTo, List.filterMap_append,
    List.getLast?_append]

theorem lastWrite_copyWrites (a start : ℕ) (bs : List β) :
    lastWrite a (copyWrites start bs) = if start ≤ a then bs[a - start]? else none := by
  induction bs generalizing start with
  | nil =>
    rw [List.getElem?_nil, ite_self]
    rfl
  | cons b bs ih =>
    have hcons : copyWrites start (b :: bs) = [(start, b)] ++ copyWrites (start + 1) bs := rfl
    have hsingle : lastWrite a [(start, b)] = if start = a then some b else none := by
      rw [lastWrite, writesTo, List.filterMap_cons]
      by_cases hstart : start = a
      · rw [if_pos hstart]
        rfl
      · rw [if_neg hstart]
        rfl
    rw [hcons, lastWrite_append, ih, hsingle]
    rcases lt_trichotomy start a with hlt | rfl | hgt
    · obtain ⟨k, hk⟩ : ∃ k, a - start = k + 1 := ⟨a - start - 1, by omega⟩
      have hk' : a - (start + 1) = k := by omega
      rw [if_pos (Nat.succ_le_of_lt hlt), if_neg hlt.ne, if_pos hlt.le, hk, hk',
        List.getElem?_cons_succ, Option.or_none]
    · rw [if_neg (Nat.not_succ_le_self start), if_pos rfl, if_pos (le_refl start), Nat.sub_self,
        List.getElem?_cons_zero, Option.none_or]
    · rw [if_neg (by omega), if_neg hgt.ne', if_neg (by omega), Option.or_none]

section Interleaved

variable {ls : List (List (ℕ × β))} {ws : List (ℕ × β)} {a : ℕ}

/-- A place that no worker writes to is not written to. -/
theorem lastWrite_eq_none (h : Interleaving ls ws) (hall : ∀ l ∈ ls, lastWrite a l = none) :
    lastWrite a ws = none := by
  rw [lastWrite, List.getLast?_eq_none_iff]
  apply List.eq_nil_iff_forall_not_mem.mpr
  intro b hb
  obtain ⟨_, hmem, hbl⟩ := (h.filterMap _).mem_iff.mp hb
  obtain ⟨l, hl, rfl⟩ := List.mem_map.mp hmem
  have hnil := List.getLast?_eq_none_iff.mp (hall l hl)
  rw [writesTo] at hnil
  rw [hnil] at hbl
  exact List.not_mem_nil hbl

/-- A place to which all workers write the same, if anything, has that. -/
theorem lastWrite_eq_some (h : Interleaving ls ws) {b : β}
    (hall : ∀ l ∈ ls, lastWrite a l = none ∨ lastWrite a l = some b)
    (hsome : ∃ l ∈ ls, lastWrite a l = some b) : lastWrite a ws = some b := by
  have hwrites := h.filterMap fun w => if w.1 = a then some w.2 else none
  cases hlast : lastWrite a ws with
  | none =>
    obtain ⟨l, hl, hb⟩ := hsome
    have hmem : b ∈ writesTo a ws :=
      hwrites.mem_iff.mpr ⟨_, List.mem_map_of_mem hl, List.mem_of_getLast? hb⟩
    rw [lastWrite, List.getLast?_eq_none_iff] at hlast
    rw [hlast] at hmem
    exact absurd hmem List.not_mem_nil
  | some c =>
    obtain ⟨_, hmem, hc⟩ := hwrites.getLast? hlast
    obtain ⟨l, hl, rfl⟩ := List.mem_map.mp hmem
    rcases hall l hl with hnone | hb
    · exact absurd (hnone.symm.trans hc) (by simp)
    · exact congrArg some (Option.some.inj (hc.symm.trans hb))

end Interleaved

end Mold.Lib
