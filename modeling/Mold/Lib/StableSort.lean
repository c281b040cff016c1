import Mathlib.Data.List.Pairwise
import Mathlib.Data.List.Sort

/-!
# Stable sorting

Elements of a list are numbered by their places.  A stable sort leaves elements with equal
keys in the order of their numbers, and there is only one such order.  A list with
descending keys is sorted by reversing it and then each run of equal keys.

On a list that is sorted by a key, the elements before and behind a partition
point are the elements with a small and with a large key.  A list that is
sorted by a bounded natural key is the concatenation of its key classes.

A list is split greedily: an element may begin a run, which then takes as many of the
next elements as it can.
-/

namespace Mold.Lib

variable {α β : Type*}

section Insertion

variable {r : α × ℕ → α × ℕ → Prop} [DecidableRel r]

def InStableOrder (r : α × ℕ → α × ℕ → Prop) (a b : α × ℕ) : Prop :=
  r a b ∧ (r b a → a.2 < b.2)

theorem pairwise_orderedInsert (htotal : ∀ a b, r a b ∨ r b a)
    (htrans : ∀ a b c, r a b → r b c → r a c) {x : α × ℕ} {l : List (α × ℕ)}
    (hx : ∀ y ∈ l, x.2 < y.2) (hl : l.Pairwise (InStableOrder r)) :
    (l.orderedInsert r x).Pairwise (InStableOrder r) := by
  induction l with
  | nil => exact List.pairwise_singleton _ _
  | cons y l ih =>
    obtain ⟨hxy, hx⟩ := List.forall_mem_cons.mp hx
    obtain ⟨hy, hl⟩ := List.pairwise_cons.mp hl
    rw [List.orderedInsert]
    split
    case isTrue h =>
      refine List.pairwise_cons.mpr ⟨List.forall_mem_cons.mpr ⟨⟨h, fun _ => hxy⟩,
        fun z hz => ⟨htrans x y z h (hy z hz).1, fun _ => hx z hz⟩⟩, ?_⟩
      exact List.pairwise_cons.mpr ⟨hy, hl⟩
    case isFalse h =>
      refine List.pairwise_cons.mpr ⟨fun z hz => ?_, ih hx hl⟩
      rcases (List.mem_orderedInsert r).mp hz with rfl | hz
      · exact ⟨(htotal z y).resolve_left h, fun h' => absurd h' h⟩
      · exact hy z hz

theorem pairwise_stable_insertionSort (htotal : ∀ a b, r a b ∨ r b a)
    (htrans : ∀ a b c, r a b → r b c → r a c) {l : List (α × ℕ)}
    (hl : l.Pairwise fun a b => a.2 < b.2) :
    (l.insertionSort r).Pairwise (InStableOrder r) := by
  induction l with
  | nil => exact List.Pairwise.nil
  | cons x l ih =>
    obtain ⟨hx, hl⟩ := List.pairwise_cons.mp hl
    rw [List.insertionSort_cons]
    exact pairwise_orderedInsert htotal htrans
      (fun y hy => hx y ((List.perm_insertionSort r l).mem_iff.mp hy)) (ih hl)

theorem pairwise_zipIdx (l : List α) (n : ℕ) : (l.zipIdx n).Pairwise fun a b => a.2 < b.2 := by
  induction l generalizing n with
  | nil => exact List.Pairwise.nil
  | cons x l ih =>
    rw [List.zipIdx_cons]
    exact List.pairwise_cons.mpr ⟨fun y hy => List.le_snd_of_mem_zipIdx hy, ih (n + 1)⟩

end Insertion

/-! ## Sorting by a key -/

def stableSort (key : α → ℕ) (l : List α) : List α :=
  l.insertionSort fun a b => key a ≤ key b

def Precedes (key : α → ℕ) : α × ℕ → α × ℕ → Prop :=
  InStableOrder fun a b => key a.1 ≤ key b.1

variable {key : α → ℕ}

theorem precedes_iff {a b : α × ℕ} :
    Precedes key a b ↔ key a.1 < key b.1 ∨ key a.1 = key b.1 ∧ a.2 < b.2 := by
  rw [Precedes, InStableOrder]
  omega

theorem perm_stableSort (key : α → ℕ) (l : List α) : (stableSort key l).Perm l :=
  List.perm_insertionSort _ l

variable {l : List α}

theorem map_stableSort (f : α → β) {key : α → ℕ} {key' : β → ℕ}
    (hkey : ∀ a ∈ l, key' (f a) = key a) :
    (stableSort key l).map f = stableSort key' (l.map f) :=
  List.map_insertionSort _ (fun a b => key' a ≤ key' b) f l fun a ha b hb => by
    rw [hkey a ha, hkey b hb]

theorem pairwise_stableSort_zipIdx (key : α → ℕ) (l : List α) :
    (stableSort (fun a : α × ℕ => key a.1) l.zipIdx).Pairwise (Precedes key) :=
  pairwise_stable_insertionSort (fun a b => Nat.le_total (key a.1) (key b.1))
    (fun _ _ _ hab hbc => Nat.le_trans hab hbc) (pairwise_zipIdx l 0)

theorem eq_of_precedes {l l' : List (α × ℕ)} (h : l.Perm l') (hl : l.Pairwise (Precedes key))
    (hl' : l'.Pairwise (Precedes key)) : l = l' := by
  refine h.eq_of_pairwise (fun a b _ _ hab hba => ?_) hl hl'
  rw [precedes_iff] at hab hba
  omega

theorem eq_stableSort {sorted : List (α × ℕ)} (hperm : sorted.Perm l.zipIdx)
    (hpair : sorted.Pairwise (Precedes key)) : sorted.map Prod.fst = stableSort key l := by
  have heq := eq_of_precedes (hperm.trans (perm_stableSort _ _).symm) hpair
    (pairwise_stableSort_zipIdx key l)
  rw [heq, map_stableSort Prod.fst (fun _ _ => rfl), List.zipIdx_map_fst]

theorem stableSort_eq_self (h : l.Pairwise fun a b => key a ≤ key b) : stableSort key l = l :=
  List.Pairwise.insertionSort_eq h

theorem eq_of_stableSort_eq {l l' : List α} (hkeys : l.map key = l'.map key)
    (h : stableSort key l = stableSort key l') : l = l' := by
  have hlen : l.length = l'.length := by
    rw [← List.length_map key, hkeys, List.length_map]
  have hfst : (l.zip l').map Prod.fst = l := List.map_fst_zip (Nat.le_of_eq hlen)
  have hsnd : (l.zip l').map Prod.snd = l' := List.map_snd_zip (Nat.le_of_eq hlen.symm)
  have hkey : ∀ p ∈ l.zip l', key p.2 = key p.1 := by
    have hmap : (l.zip l').map (key ∘ Prod.snd) = (l.zip l').map (key ∘ Prod.fst) := by
      rw [← List.map_map, ← List.map_map, hfst, hsnd, hkeys]
    exact List.map_inj_left.mp hmap
  have hsorted : (stableSort (fun p : α × α => key p.1) (l.zip l')).map Prod.fst =
      (stableSort (fun p : α × α => key p.1) (l.zip l')).map Prod.snd := by
    rw [map_stableSort Prod.fst (fun _ _ => rfl), map_stableSort Prod.snd hkey, hfst, hsnd, h]
  have heq : (l.zip l').map Prod.fst = (l.zip l').map Prod.snd :=
    List.map_congr_left fun p hp =>
      List.map_inj_left.mp hsorted p ((perm_stableSort _ _).mem_iff.mpr hp)
  rwa [hfst, hsnd] at heq

/-- Keys that ascend from one element to the next ascend everywhere. -/
theorem pairwise_of_zip_tail {r : α → α → Prop} (htrans : ∀ a b c, r a b → r b c → r a c)
    (h : ∀ p ∈ l.zip l.tail, r p.1 p.2) : l.Pairwise r := by
  induction l with
  | nil => exact List.Pairwise.nil
  | cons x l ih =>
    cases l with
    | nil => exact List.pairwise_singleton r x
    | cons y l =>
      obtain ⟨hxy, hl⟩ := List.forall_mem_cons.mp h
      have hpair := ih hl
      refine List.pairwise_cons.mpr ⟨List.forall_mem_cons.mpr ⟨hxy, fun z hz => ?_⟩, hpair⟩
      exact htrans x y z hxy ((List.pairwise_cons.mp hpair).1 z hz)

/-! ## Descending keys -/

def reverseGroups (key : α → ℕ) : ℕ → List α → List α
  | 0, _ => []
  | _, [] => []
  | fuel + 1, x :: l =>
    (x :: l.takeWhile fun y => key y = key x).reverse ++
      reverseGroups key fuel (l.dropWhile fun y => key y = key x)

theorem reverseGroups_cons (key : α → ℕ) (fuel : ℕ) (x : α) (l : List α) :
    reverseGroups key (fuel + 1) (x :: l) =
      (x :: l.takeWhile fun y => key y = key x).reverse ++
        reverseGroups key fuel (l.dropWhile fun y => key y = key x) := rfl

theorem map_reverseGroups (f : α → β) {key : α → ℕ} {key' : β → ℕ}
    (hkey : ∀ a, key' (f a) = key a) (fuel : ℕ) (l : List α) :
    (reverseGroups key fuel l).map f = reverseGroups key' fuel (l.map f) := by
  induction fuel generalizing l with
  | zero => rfl
  | succ fuel ih =>
    cases l with
    | nil => rfl
    | cons x l =>
      have hcomp (x : α) : ((fun y => decide (key' y = key' (f x))) ∘ f) =
          fun y => decide (key y = key x) := by
        funext y
        simp only [Function.comp_apply, hkey]
      rw [reverseGroups_cons, List.map_append, ih, List.map_reverse, List.map_cons, List.map_cons,
        reverseGroups_cons, List.takeWhile_map, List.dropWhile_map, hcomp]

variable {fuel : ℕ}

theorem perm_reverseGroups (key : α → ℕ) (hfuel : l.length ≤ fuel) :
    (reverseGroups key fuel l).Perm l := by
  induction fuel generalizing l with
  | zero =>
    rw [List.length_eq_zero_iff.mp (Nat.le_zero.mp hfuel)]
    exact List.Perm.refl _
  | succ fuel ih =>
    cases l with
    | nil => exact List.Perm.refl _
    | cons x l =>
      have hlen := (List.dropWhile_suffix (l := l) fun y => decide (key y = key x)).length_le
      rw [reverseGroups_cons]
      refine ((List.reverse_perm _).append (ih ?_)).trans ?_
      · exact Nat.le_trans hlen (Nat.le_of_succ_le_succ hfuel)
      · rw [List.cons_append, List.takeWhile_append_dropWhile]

theorem mem_of_mem_reverseGroups {a : α} (h : a ∈ reverseGroups key fuel l) : a ∈ l := by
  induction fuel generalizing l with
  | zero => exact absurd h List.not_mem_nil
  | succ fuel ih =>
    cases l with
    | nil => exact absurd h List.not_mem_nil
    | cons x l =>
      rw [reverseGroups_cons, List.mem_append, List.mem_reverse, List.mem_cons] at h
      rcases h with (rfl | h) | h
      · exact List.mem_cons_self
      · exact List.mem_cons_of_mem _ ((List.takeWhile_sublist _).mem h)
      · exact List.mem_cons_of_mem _ ((List.dropWhile_sublist _).mem (ih h))

/-- Behind the run of the lowest key, keys are greater. -/
theorem lt_of_mem_dropWhile (key : α → ℕ) {c : ℕ}
    (hl : l.Pairwise fun a b => key a ≤ key b) (hc : ∀ a ∈ l, c ≤ key a) {a : α}
    (h : a ∈ l.dropWhile fun y => key y = c) : c < key a := by
  induction l with
  | nil => exact absurd h List.not_mem_nil
  | cons x l ih =>
    obtain ⟨hx, hl⟩ := List.pairwise_cons.mp hl
    obtain ⟨hcx, hc⟩ := List.forall_mem_cons.mp hc
    rw [List.dropWhile_cons] at h
    split at h
    case isTrue => exact ih hl hc h
    case isFalse hne =>
      rw [decide_eq_true_eq] at hne
      have hlt := Nat.lt_of_le_of_ne hcx (Ne.symm hne)
      rcases List.mem_cons.mp h with rfl | h
      · exact hlt
      · exact Nat.lt_of_lt_of_le hlt (hx a h)

/-- If keys ascend and numbers descend, the runs are put into the order of the stable sort. -/
theorem pairwise_reverseGroups {l : List (α × ℕ)}
    (hl : l.Pairwise fun a b => key a.1 ≤ key b.1 ∧ b.2 < a.2) :
    (reverseGroups (fun a => key a.1) fuel l).Pairwise (Precedes key) := by
  induction fuel generalizing l with
  | zero => exact List.Pairwise.nil
  | succ fuel ih =>
    cases l with
    | nil => exact List.Pairwise.nil
    | cons x l =>
      obtain ⟨hx, hl⟩ := List.pairwise_cons.mp hl
      have hrun (y : α × ℕ) (hy : y ∈ l.takeWhile fun y => key y.1 = key x.1) :
          key y.1 = key x.1 := by
        simpa using List.all_eq_true.mp List.all_takeWhile y hy
      rw [reverseGroups_cons, List.pairwise_append]
      refine ⟨?_, ih (hl.sublist (List.dropWhile_sublist _)), fun a ha b hb => ?_⟩
      · rw [List.pairwise_reverse, List.pairwise_cons]
        refine ⟨fun y hy => ?_, ?_⟩
        · exact precedes_iff.mpr (.inr ⟨hrun y hy, (hx y ((List.takeWhile_sublist _).mem hy)).2⟩)
        · refine List.Pairwise.imp_of_mem (fun {y z} hy hz hyz => ?_)
            (hl.sublist (List.takeWhile_sublist _))
          exact precedes_iff.mpr (.inr ⟨(hrun z hz).trans (hrun y hy).symm, hyz.2⟩)
      · have ha' : key a.1 = key x.1 := by
          rcases List.mem_cons.mp (List.mem_reverse.mp ha) with rfl | ha
          · rfl
          · exact hrun a ha
        have hb' : key x.1 < key b.1 :=
          lt_of_mem_dropWhile (fun a : α × ℕ => key a.1) (hl.imp And.left)
            (fun y hy => (hx y hy).1) (mem_of_mem_reverseGroups hb)
        exact precedes_iff.mpr (.inl (ha' ▸ hb'))

/-- A list with descending keys is sorted by reversing it and its runs. -/
theorem reverseGroups_reverse (h : l.Pairwise fun a b => key b ≤ key a) :
    reverseGroups key l.length l.reverse = stableSort key l := by
  have hlen : l.zipIdx.reverse.length ≤ l.length := by
    rw [List.length_reverse, List.length_zipIdx]
  have hkeys : l.zipIdx.Pairwise fun a b => key b.1 ≤ key a.1 := by
    rw [← List.pairwise_map (f := Prod.fst) (R := fun a b => key b ≤ key a), List.zipIdx_map_fst]
    exact h
  have hpair : l.zipIdx.reverse.Pairwise fun a b => key a.1 ≤ key b.1 ∧ b.2 < a.2 :=
    List.pairwise_reverse.mpr (hkeys.and (pairwise_zipIdx l 0))
  have hsorted := eq_stableSort
    ((perm_reverseGroups (fun a : α × ℕ => key a.1) hlen).trans (List.reverse_perm _))
    (pairwise_reverseGroups hpair)
  rw [← hsorted, map_reverseGroups Prod.fst (fun _ => rfl), List.map_reverse, List.zipIdx_map_fst]

/-! ## Partition points of sorted lists -/

variable {α κ : Type*} [LinearOrder κ] {l : List α}

theorem decide_key_trans (key : α → κ) (a b c : α) (hab : decide (key a ≤ key b) = true)
    (hbc : decide (key b ≤ key c) = true) : decide (key a ≤ key c) = true := by
  rw [decide_eq_true_eq] at *
  exact le_trans hab hbc

theorem decide_key_total (key : α → κ) (a b : α) :
    (decide (key a ≤ key b) || decide (key b ≤ key a)) = true := by
  rw [Bool.or_eq_true, decide_eq_true_eq, decide_eq_true_eq]
  exact le_total _ _

theorem pairwise_mergeSort_key (key : α → κ) (l : List α) :
    (l.mergeSort fun a b => decide (key a ≤ key b)).Pairwise fun a b =>
      key a ≤ key b :=
  (List.pairwise_mergeSort (decide_key_trans key) (decide_key_total key) l).imp
    fun h => of_decide_eq_true h

/-- Sorting by a key leaves the elements of one key in their order. -/
theorem filter_mergeSort_key (key : α → κ) (l : List α) (k : κ) :
    (l.mergeSort fun a b => decide (key a ≤ key b)).filter (fun a => decide (key a = k)) =
      l.filter fun a => decide (key a = k) := by
  have hpair : (l.filter fun a => decide (key a = k)).Pairwise fun a b =>
      decide (key a ≤ key b) = true := by
    refine List.Pairwise.imp_of_mem (R := fun _ _ => True) (fun {a b} ha hb _ => ?_)
      (List.pairwise_of_forall fun _ _ => trivial)
    have ha := of_decide_eq_true (List.mem_filter.mp ha).2
    have hb := of_decide_eq_true (List.mem_filter.mp hb).2
    exact decide_eq_true (le_of_eq (ha.trans hb.symm))
  have hsub := (List.sublist_mergeSort (decide_key_trans key) (decide_key_total key) hpair
    List.filter_sublist).filter fun a => decide (key a = k)
  rw [List.filter_filter] at hsub
  simp only [Bool.and_self] at hsub
  exact (hsub.eq_of_length ((List.mergeSort_perm l _).filter _).length_eq.symm).symm

/-- In a sorted list the elements of the lowest key come first. -/
theorem takeWhile_eq_eq_filter (key : α → κ)
    (h : l.Pairwise fun a b => key a ≤ key b) {c : κ} (hc : ∀ a ∈ l, c ≤ key a) :
    l.takeWhile (fun a => decide (key a = c)) = l.filter fun a => decide (key a = c) := by
  induction l with
  | nil => rfl
  | cons a l ih =>
    rw [List.pairwise_cons] at h
    by_cases ha : key a = c
    · rw [List.takeWhile_cons_of_pos (by simpa using ha),
        List.filter_cons_of_pos (by simpa using ha),
        ih h.2 fun b hb => hc b (List.mem_cons_of_mem _ hb)]
    · have hnone : ∀ b ∈ a :: l, ¬ decide (key b = c) = true := by
        intro b hb heq
        rw [decide_eq_true_eq] at heq
        rcases List.mem_cons.mp hb with rfl | hb'
        · exact ha heq
        · exact ha (le_antisymm (heq ▸ h.1 b hb') (hc a List.mem_cons_self))
      rw [List.takeWhile_cons_of_neg (by simpa using ha), List.filter_eq_nil_iff.mpr hnone]

theorem dropWhile_lt_eq_filter (key : α → κ) (h : l.Pairwise fun a b => key a ≤ key b) (c : κ) :
    l.dropWhile (fun a => decide (key a < c)) = l.filter fun a => decide (c ≤ key a) := by
  induction l with
  | nil => rfl
  | cons a l ih =>
    rw [List.pairwise_cons] at h
    by_cases ha : key a < c
    · rw [List.dropWhile_cons_of_pos (by simpa using ha), ih h.2,
        List.filter_cons_of_neg (by simpa using ha)]
    · have hall : ∀ b ∈ a :: l, decide (c ≤ key b) = true := by
        intro b hb
        rw [decide_eq_true_eq]
        rcases List.mem_cons.mp hb with rfl | hb
        · exact not_lt.mp ha
        · exact le_trans (not_lt.mp ha) (h.1 b hb)
      rw [List.dropWhile_cons_of_neg (by simpa using ha), List.filter_eq_self.mpr hall]

theorem takeWhile_lt_eq_filter (key : α → κ) (h : l.Pairwise fun a b => key a ≤ key b) (c : κ) :
    l.takeWhile (fun a => decide (key a < c)) = l.filter fun a => decide (key a < c) := by
  induction l with
  | nil => rfl
  | cons a l ih =>
    rw [List.pairwise_cons] at h
    by_cases ha : key a < c
    · rw [List.takeWhile_cons_of_pos (by simpa using ha), ih h.2,
        List.filter_cons_of_pos (by simpa using ha)]
    · have hnone : ∀ b ∈ a :: l, ¬ decide (key b < c) = true := by
        intro b hb
        rw [decide_eq_true_eq, not_lt]
        rcases List.mem_cons.mp hb with rfl | hb
        · exact not_lt.mp ha
        · exact le_trans (not_lt.mp ha) (h.1 b hb)
      rw [List.takeWhile_cons_of_neg (by simpa using ha), List.filter_eq_nil_iff.mpr hnone]

/-- A list sorted by a key below `n` is put together from its key classes. -/
theorem flatMap_range_filter {class_ : α → ℕ}
    (h : l.Pairwise fun a b => class_ a ≤ class_ b) {n : ℕ}
    (hlt : ∀ a ∈ l, class_ a < n) :
    (List.range n).flatMap (fun i => l.filter fun a => decide (class_ a = i)) =
      l := by
  induction n generalizing l with
  | zero =>
    have hnil : l = [] :=
      List.eq_nil_iff_forall_not_mem.mpr fun a ha => Nat.not_lt_zero _ (hlt a ha)
    simp [hnil]
  | succ n ih =>
    have hsplit : l = (l.filter fun a => decide (class_ a < n)) ++
        l.filter fun a => decide (n ≤ class_ a) := by
      rw [← dropWhile_lt_eq_filter class_ h, ← takeWhile_lt_eq_filter class_ h,
        List.takeWhile_append_dropWhile]
    have hlast : (l.filter fun a => decide (n ≤ class_ a)) =
        l.filter fun a => decide (class_ a = n) := by
      apply List.filter_congr
      intro a ha
      have := hlt a ha
      rw [decide_eq_decide]
      omega
    have hlow := ih (l := l.filter fun a => decide (class_ a < n)) (h.filter _) (by simp)
    rw [List.range_succ, List.flatMap_append, List.flatMap_singleton]
    conv_rhs => rw [hsplit, hlast, ← hlow]
    congr 1
    apply List.flatMap_congr
    intro i hi
    rw [List.filter_filter]
    apply List.filter_congr
    intro a _
    have := List.mem_range.mp hi
    rw [← Bool.decide_and, decide_eq_decide]
    omega

/-! ## Groups -/

/-- A place in a concatenation is a place in one of the lists. -/
theorem exists_of_flatten_eq {β : Type*} {groups : List (List β)} {front back : List β}
    {x : β} (h : groups.flatten = front ++ x :: back) :
    ∃ ls group rs before behind, groups = ls ++ group :: rs ∧
      group = before ++ x :: behind ∧ front = ls.flatten ++ before ∧
        back = behind ++ rs.flatten := by
  induction groups generalizing front with
  | nil => simp at h
  | cons group groups ih =>
    rw [List.flatten_cons] at h
    rcases List.append_eq_append_iff.mp h with ⟨mid, hfront, hrest⟩ | ⟨mid, hgroup, hrest⟩
    · obtain ⟨ls, g, rs, before, behind, rfl, hg, hmid, hback⟩ := ih hrest
      refine ⟨group :: ls, g, rs, before, behind, rfl, hg, ?_, hback⟩
      rw [hfront, hmid, List.flatten_cons, List.append_assoc]
    · cases mid with
      | nil =>
        rw [List.append_nil] at hgroup
        obtain ⟨ls, g, rs, before, behind, rfl, hg, hmid, hback⟩ :=
          @ih [] hrest.symm
        refine ⟨group :: ls, g, rs, before, behind, rfl, hg, ?_, hback⟩
        rw [List.flatten_cons, List.append_assoc, ← hmid, List.append_nil, hgroup]
      | cons y mid =>
        obtain ⟨rfl, hback⟩ := List.cons.inj hrest
        exact ⟨[], group, groups, front, mid, rfl, hgroup, rfl, hback⟩

/-! ## Runs of a list -/

variable {α : Type*}

/-- The runs of a list, where `more x l` of the elements `l` behind `x` go to the run that
`x` begins. -/
def runs (starts : α → Bool) (more : α → List α → ℕ) : List α → List (List α)
  | [] => []
  | x :: l =>
    if starts x then (x :: l.take (more x l)) :: runs starts more (l.drop (more x l))
    else runs starts more l
termination_by l => l.length
decreasing_by
  · simp only [List.length_drop, List.length_cons]
    omega
  · simp

end Mold.Lib
