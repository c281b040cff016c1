import Mathlib.Algebra.BigOperators.Group.List.Basic
import Mathlib.Algebra.GroupWithZero.Nat

/-!
# Erasing from an array in place

Erasing elements moves the survivors to the front and leaves the places behind
them alone.  A pointer to a place goes on denoting the survivor that it used to
denote exactly if nothing in front of it has been erased.

Survivors of positive size that are laid out one after the other have
increasing offsets, so a survivor is known by its offset.

Cuts are runs of positions, in the order in which they begin.  What is between them can be
copied if they do not overlap and lie in the list.  An element that is not cut out moves down
by the number of positions before it that are.
-/

namespace Mold.Lib

variable {α : Type*} (live : α → Bool)

def eraseStorage (l : List α) : List α :=
  l.filter live ++ l.drop (l.filter live).length

def rank (l : List α) (i : ℕ) : ℕ := (l.take i).countP live

variable {live} {l : List α}

theorem getElem?_eraseStorage {k : ℕ} (h : k < (l.filter live).length) :
    (eraseStorage live l)[k]? = (l.filter live)[k]? :=
  List.getElem?_append_left h

/-- A survivor is found at its rank among the survivors. -/
theorem getElem?_filter_rank {i : ℕ} {x : α} (h : l[i]? = some x)
    (hx : live x = true) : (l.filter live)[rank live l i]? = some x := by
  obtain ⟨hi, hget⟩ := List.getElem?_eq_some_iff.mp h
  have hsplit : l.filter live = (l.take i).filter live ++ x :: (l.drop (i + 1)).filter live := by
    conv_lhs => rw [← List.take_append_drop i l, List.filter_append,
      List.drop_eq_getElem_cons hi, hget, List.filter_cons_of_pos hx]
  have hlen : ((l.take i).filter live).length = rank live l i :=
    List.countP_eq_length_filter.symm
  rw [hsplit, ← hlen, List.getElem?_append_right (Nat.le_refl _), Nat.sub_self,
    List.getElem?_cons_zero]

theorem rank_lt_length {i : ℕ} {x : α} (h : l[i]? = some x)
    (hx : live x = true) : rank live l i < (l.filter live).length :=
  (List.getElem?_eq_some_iff.mp (getElem?_filter_rank h hx)).1

theorem exists_rank_eq {k : ℕ} (h : k < (l.filter live).length) :
    ∃ i x, l[i]? = some x ∧ live x = true ∧ rank live l i = k := by
  induction l generalizing k with
  | nil => simp at h
  | cons y l ih =>
    by_cases hy : live y = true
    · cases k with
      | zero => exact ⟨0, y, rfl, hy, rfl⟩
      | succ k =>
        rw [List.filter_cons_of_pos hy, List.length_cons] at h
        obtain ⟨i, x, hget, hx, hrank⟩ := ih (Nat.lt_of_succ_lt_succ h)
        refine ⟨i + 1, x, hget, hx, ?_⟩
        rw [← hrank, rank, rank, List.take_succ_cons, List.countP_cons_of_pos hy]
    · rw [List.filter_cons_of_neg hy] at h
      obtain ⟨i, x, hget, hx, hrank⟩ := ih h
      refine ⟨i + 1, x, hget, hx, ?_⟩
      rw [← hrank, rank, rank, List.take_succ_cons, List.countP_cons_of_neg hy]

theorem take_rank (l : List α) (i : ℕ) :
    (l.filter live).take (rank live l i) = (l.take i).filter live := by
  have hlen : ((l.take i).filter live).length = rank live l i :=
    List.countP_eq_length_filter.symm
  conv_lhs => rw [← List.take_append_drop i l, List.filter_append]
  rw [List.take_append_drop, List.take_append_of_le_length (Nat.le_of_eq hlen.symm),
    List.take_of_length_le (Nat.le_of_eq hlen)]

theorem eraseStorage_map {β : Type*} (f : β → α) (l : List β) :
    eraseStorage live (l.map f) = (eraseStorage (fun x => live (f x)) l).map f := by
  have hfilter : (l.map f).filter live = (l.filter fun x => live (f x)).map f :=
    List.filter_map
  rw [eraseStorage, eraseStorage, hfilter, List.length_map, List.map_append, List.map_drop]

theorem rank_eq_iff {i : ℕ} (hi : i ≤ l.length) :
    rank live l i = i ↔ ∀ x ∈ l.take i, live x = true := by
  have hlen : (l.take i).length = i := List.length_take_of_le hi
  rw [rank]
  conv_lhs => rhs; rw [← hlen]
  exact List.countP_eq_length

/-! ## Offsets of survivors -/

/-- The offset of the `k`-th element behind `start`. -/
def offsetAt (size : α → ℕ) (start : ℕ) (l : List α) (k : ℕ) : ℕ :=
  start + ((l.take k).map size).sum

variable {size : α → ℕ} {start : ℕ}

theorem offsetAt_cons_succ (x : α) (l : List α) (k : ℕ) :
    offsetAt size start (x :: l) (k + 1) = offsetAt size (start + size x) l k := by
  simp only [offsetAt, List.take_succ_cons, List.map_cons, List.sum_cons]
  omega

theorem offsetAt_succ {k : ℕ} (h : k < l.length) :
    offsetAt size start l (k + 1) = offsetAt size start l k + size l[k] := by
  rw [offsetAt, offsetAt, List.take_add_one, List.getElem?_eq_getElem h]
  simp only [Option.toList_some, List.map_append, List.map_cons, List.map_nil,
    List.sum_append, List.sum_cons, List.sum_nil]
  omega

theorem offsetAt_lt (hpos : ∀ x, 0 < size x)
    {j k : ℕ} (hjk : j < k) (hk : k ≤ l.length) :
    offsetAt size start l j < offsetAt size start l k := by
  induction k with
  | zero => exact absurd hjk (Nat.not_lt_zero j)
  | succ k ih =>
    have hstep : offsetAt size start l k < offsetAt size start l (k + 1) := by
      rw [offsetAt_succ hk]
      exact Nat.lt_add_of_pos_right (hpos _)
    rcases Nat.lt_succ_iff_lt_or_eq.mp hjk with hlt | rfl
    · exact Nat.lt_trans (ih hlt (Nat.le_of_succ_le hk)) hstep
    · exact hstep

theorem offsetAt_inj (hpos : ∀ x, 0 < size x)
    {j k : ℕ} (hj : j ≤ l.length) (hk : k ≤ l.length)
    (h : offsetAt size start l j = offsetAt size start l k) : j = k := by
  rcases Nat.lt_trichotomy j k with hlt | heq | hlt
  · exact absurd h (Nat.ne_of_lt (offsetAt_lt hpos hlt hk))
  · exact heq
  · exact absurd h (Nat.ne_of_gt (offsetAt_lt hpos hlt hj))

end Mold.Lib

/-! ## Cutting pieces out of a list -/

namespace Mold.Lib.Excision

variable {α : Type*}

/-- `count` positions from `start` on. -/
structure Cut where
  start : ℕ
  count : ℕ

namespace Cut

def stop (cut : Cut) : ℕ := cut.start + cut.count

def Contains (cut : Cut) (p : ℕ) : Prop := cut.start ≤ p ∧ p < cut.stop

instance instDecidableContains (cut : Cut) (p : ℕ) : Decidable (cut.Contains p) :=
  inferInstanceAs (Decidable (_ ∧ _))

end Cut

/-- The positions before `v` that are cut out. -/
def cutBefore (cuts : List Cut) (v : ℕ) : ℕ :=
  (List.range v).countP fun p => cuts.any fun cut => decide (cut.Contains p)

/-- The parts of a list from `pos` on that are between the cuts. -/
def exciseFrom (l : List α) : ℕ → List Cut → Option (List α)
  | pos, [] => if pos ≤ l.length then some (l.drop pos) else none
  | pos, cut :: cuts =>
    if pos ≤ cut.start ∧ cut.start ≤ l.length then
      (exciseFrom l cut.stop cuts).map (((l.take cut.start).drop pos) ++ ·)
    else none

/-- Cuts that begin at `pos` or later, do not overlap and end before `n`. -/
def ApartFrom (n : ℕ) : ℕ → List Cut → Prop
  | pos, [] => pos ≤ n
  | pos, cut :: cuts => pos ≤ cut.start ∧ ApartFrom n cut.stop cuts

section Apart

variable {n pos : ℕ} {cuts : List Cut} {l : List α}

theorem ApartFrom.pos_le (h : ApartFrom n pos cuts) : pos ≤ n := by
  induction cuts generalizing pos with
  | nil => exact h
  | cons cut cuts ih =>
    have hstop := ih h.2
    have hstart := h.1
    rw [Cut.stop] at hstop
    omega

theorem ApartFrom.mem (h : ApartFrom n pos cuts) {cut : Cut} (hcut : cut ∈ cuts) :
    pos ≤ cut.start ∧ cut.stop ≤ n := by
  induction cuts generalizing pos with
  | nil => exact absurd hcut List.not_mem_nil
  | cons first cuts ih =>
    rcases List.mem_cons.mp hcut with rfl | hcut
    · exact ⟨h.1, h.2.pos_le⟩
    · obtain ⟨hstart, hstop⟩ := ih h.2 hcut
      have hfirst := h.1
      rw [Cut.stop] at hstart
      exact ⟨by omega, hstop⟩

theorem exciseFrom_isSome_iff :
    (exciseFrom l pos cuts).isSome = true ↔ ApartFrom l.length pos cuts := by
  induction cuts generalizing pos with
  | nil =>
    rw [exciseFrom, ApartFrom]
    split <;> simp_all
  | cons cut cuts ih =>
    rw [exciseFrom, ApartFrom]
    by_cases hcut : pos ≤ cut.start ∧ cut.start ≤ l.length
    · rw [if_pos hcut, Option.isSome_map, ih]
      exact (and_iff_right hcut.1).symm
    · rw [if_neg hcut]
      simp only [Option.isSome_none, Bool.false_eq_true, false_iff]
      rintro ⟨hstart, hrest⟩
      have hstop := hrest.pos_le
      rw [Cut.stop] at hstop
      exact hcut ⟨hstart, by omega⟩

end Apart

/-! ## Where elements go -/

/-- What is cut out before `v`, cut by cut. -/
def shift : List Cut → ℕ → ℕ
  | [], _ => 0
  | cut :: cuts, v => min cut.count (v - cut.start) + shift cuts v

section Shift

variable {n pos : ℕ} {cuts : List Cut}

theorem shift_eq_zero (h : ApartFrom n pos cuts) {v : ℕ} (hv : v ≤ pos) : shift cuts v = 0 := by
  induction cuts generalizing pos with
  | nil => rfl
  | cons cut cuts ih =>
    have hstart := h.1
    rw [shift, ih h.2 (by rw [Cut.stop]; omega)]
    omega

/-- One more position is counted exactly if it is cut out. -/
theorem shift_succ (h : ApartFrom n pos cuts) (v : ℕ) :
    shift cuts (v + 1) =
      shift cuts v + if (cuts.any fun cut => decide (cut.Contains v)) = true then 1 else 0 := by
  induction cuts generalizing pos with
  | nil => rfl
  | cons cut cuts ih =>
    rw [shift, shift, ih h.2, List.any_cons]
    by_cases hcut : cut.Contains v
    · -- Later cuts begin behind this one.
      have hrest : (cuts.any fun cut => decide (cut.Contains v)) = false := by
        rw [List.any_eq_false]
        intro later hlater hmem
        have hstart := (h.2.mem hlater).1
        have hcontains := of_decide_eq_true hmem
        unfold Cut.Contains at hcut hcontains
        omega
      rw [hrest, decide_eq_true hcut, Bool.true_or, if_neg Bool.false_ne_true, if_pos rfl]
      unfold Cut.Contains Cut.stop at hcut
      omega
    · rw [decide_eq_false hcut, Bool.false_or]
      unfold Cut.Contains Cut.stop at hcut
      omega

theorem cutBefore_eq_shift (h : ApartFrom n pos cuts) (v : ℕ) : cutBefore cuts v = shift cuts v := by
  induction v with
  | zero => exact (shift_eq_zero h (Nat.zero_le pos)).symm
  | succ v ih =>
    rw [shift_succ h, ← ih, cutBefore, cutBefore, List.range_succ, List.countP_append,
      List.countP_singleton]

theorem shift_le (h : ApartFrom n pos cuts) (v : ℕ) : shift cuts v ≤ v - pos := by
  induction cuts generalizing pos with
  | nil => exact Nat.zero_le _
  | cons cut cuts ih =>
    have hle := ih h.2
    have hstart := h.1
    rw [shift]
    rw [Cut.stop] at hle
    omega

end Shift

/-! ## Cuts that have been passed -/

/-- What is cut out by the cuts that begin before `v`. -/
def passed : List Cut → ℕ → ℕ
  | [], _ => 0
  | cut :: cuts, v => (if cut.start < v then cut.count else 0) + passed cuts v

def Inside (cuts : List Cut) (v : ℕ) : Prop := ∃ cut ∈ cuts, cut.start < v ∧ v < cut.stop

theorem shift_le_passed (cuts : List Cut) (v : ℕ) : shift cuts v ≤ passed cuts v := by
  induction cuts with
  | nil => exact Nat.le_refl 0
  | cons cut cuts ih =>
    rw [shift, passed]
    split <;> omega

/-- Both counts are the same where no cut has been begun and not ended. -/
theorem passed_eq_shift_iff (cuts : List Cut) (v : ℕ) :
    passed cuts v = shift cuts v ↔ ¬Inside cuts v := by
  induction cuts with
  | nil => exact iff_of_true rfl fun ⟨_, hcut, _⟩ => List.not_mem_nil hcut
  | cons cut cuts ih =>
    have hle := shift_le_passed cuts v
    have hinside : Inside (cut :: cuts) v ↔
        (cut.start < v ∧ v < cut.stop) ∨ Inside cuts v := List.exists_mem_cons_iff _ _ _
    rw [hinside, not_or, ← ih, passed, shift, Cut.stop]
    split <;> omega

variable {cuts : List Cut}

theorem passed_eq_zero_of_le {v : ℕ} (h : ∀ cut ∈ cuts, v ≤ cut.start) : passed cuts v = 0 := by
  induction cuts with
  | nil => rfl
  | cons cut cuts ih =>
    obtain ⟨hcut, hcuts⟩ := List.forall_mem_cons.mp h
    rw [passed, ih hcuts, if_neg (by omega)]

theorem passed_eq_zero_iff (hpos : ∀ cut ∈ cuts, 0 < cut.count) (v : ℕ) :
    passed cuts v = 0 ↔ ∀ cut ∈ cuts, v ≤ cut.start := by
  refine ⟨fun h => ?_, passed_eq_zero_of_le⟩
  induction cuts with
  | nil => exact fun _ hcut => absurd hcut List.not_mem_nil
  | cons cut cuts ih =>
    obtain ⟨hcut, hcuts⟩ := List.forall_mem_cons.mp hpos
    rw [passed] at h
    split at h
    case isTrue => omega
    case isFalse hle =>
      rw [Nat.zero_add] at h
      exact List.forall_mem_cons.mpr ⟨Nat.le_of_not_lt hle, ih hcuts h⟩

theorem passed_le {n pos : ℕ} (h : ApartFrom n pos cuts) (v : ℕ) : passed cuts v ≤ n - pos := by
  induction cuts generalizing pos with
  | nil => exact Nat.zero_le _
  | cons cut cuts ih =>
    have hle := ih h.2
    have hstart := h.1
    have hstop := h.2.pos_le
    rw [passed]
    rw [Cut.stop] at hle hstop
    split <;> omega

/-- An element that is not cut out is found where the positions before it have moved. -/
theorem getElem?_exciseFrom {l out : List α} {pos : ℕ}
    (h : exciseFrom l pos cuts = some out) {v : ℕ} (hpos : pos ≤ v)
    (hcut : ∀ cut ∈ cuts, ¬cut.Contains v) : out[v - pos - shift cuts v]? = l[v]? := by
  have hapart : ApartFrom l.length pos cuts :=
    exciseFrom_isSome_iff.mp (by rw [h]; rfl)
  induction cuts generalizing pos out with
  | nil =>
    rw [exciseFrom] at h
    split at h
    case isTrue hle =>
      obtain rfl := Option.some.inj h
      rw [List.getElem?_drop, shift, Nat.sub_zero, Nat.add_sub_cancel' hpos]
    case isFalse => exact absurd h (by simp)
  | cons cut cuts ih =>
    obtain ⟨hcut, hcuts⟩ := List.forall_mem_cons.mp hcut
    obtain ⟨hstart, hrest⟩ := hapart
    have hstop := hrest.pos_le
    rw [exciseFrom] at h
    split at h
    case isFalse => exact absurd h (by simp)
    case isTrue hle =>
      obtain ⟨tail, htail, rfl⟩ := Option.map_eq_some_iff.mp h
      have hlen : ((l.take cut.start).drop pos).length = cut.start - pos := by
        rw [List.length_drop, List.length_take]
        omega
      unfold Cut.Contains at hcut
      rw [shift]
      by_cases hbefore : v < cut.start
      · have hzero := @shift_eq_zero _ _ _ hrest v (by rw [Cut.stop]; omega)
        rw [hzero, List.getElem?_append_left (by omega), List.getElem?_drop,
          List.getElem?_take_of_lt (by omega)]
        congr 1
        omega
      · have hbehind : cut.stop ≤ v := by omega
        have hle := shift_le hrest v
        have hind := ih htail hbehind hcuts hrest
        rw [List.getElem?_append_right (by rw [hlen]; unfold Cut.stop at *; omega), hlen, ← hind]
        congr 1
        unfold Cut.stop at *
        omega

end Mold.Lib.Excision
