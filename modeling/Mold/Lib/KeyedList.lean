import Mathlib.Data.List.Destutter
import Mathlib.Data.List.Sort

/-!
# Lists of elements with keys

An element of a list is found by its key if no other element has the same one.
A list of different elements is a list of keys, too: what is related to it
element by element is a function of them.

A table is a list that is sorted by a key and has no adjacent duplicates, as
`std::unique` leaves it.  A binary search for the key of an entry that starts
behind some of the smaller entries ends at the first entry with that key.

An ordered map is the list of its entries in the order of their keys.  Entries with
different keys make the same map in whatever order they are set.
-/

namespace Mold.Lib

variable {α κ : Type*}

theorem find?_of_nodup_map [DecidableEq κ] {key : α → κ} {l : List α}
    (hnodup : (l.map key).Nodup) {x : α} (hx : x ∈ l) :
    l.find? (fun y => key y = key x) = some x := by
  induction l with
  | nil => exact absurd hx List.not_mem_nil
  | cons y l ih =>
    rw [List.map_cons, List.nodup_cons] at hnodup
    rw [List.find?_cons]
    rcases List.mem_cons.mp hx with rfl | hx
    · rw [decide_eq_true rfl]
    · have hne : key y ≠ key x := fun h => hnodup.1 (h ▸ List.mem_map_of_mem hx)
      rw [decide_eq_false hne]
      exact ih hnodup.2 hx

/-- Related lists are related by a function if the first has no duplicates. -/
theorem exists_eq_map_of_forall₂ {β : Type*} {R : α → β → Prop} {l : List α} {l' : List β}
    (h : List.Forall₂ R l l') (hnodup : l.Nodup) (default : α → β) :
    ∃ f : α → β, l' = l.map f ∧ ∀ x ∈ l, R x (f x) := by
  classical
  induction h with
  | nil => exact ⟨default, rfl, fun x hx => absurd hx List.not_mem_nil⟩
  | @cons x y l l' hxy _ ih =>
    obtain ⟨hnot, hnodup⟩ := List.nodup_cons.mp hnodup
    obtain ⟨f, rfl, hf⟩ := ih hnodup
    have hsame : ∀ z ∈ l, Function.update f x y z = f z := by
      intro z hz
      refine Function.update_of_ne ?_ _ _
      rintro rfl
      exact hnot hz
    refine ⟨Function.update f x y, ?_, ?_⟩
    · rw [List.map_cons, Function.update_self, List.map_congr_left hsame]
    · intro z hz
      rcases List.mem_cons.mp hz with rfl | hz
      · rwa [Function.update_self]
      · rw [hsame z hz]
        exact hf z hz

theorem rel_or_rel_of_mem {R : α → α → Prop} {l : List α} (h : l.Pairwise R) {x y : α}
    (hx : x ∈ l) (hy : y ∈ l) (hne : x ≠ y) : R x y ∨ R y x := by
  have hsymm : Std.Symm fun a b => R a b ∨ R b a := ⟨fun _ _ hab => hab.symm⟩
  exact (h.imp fun hab => Or.inl hab : l.Pairwise fun a b => R a b ∨ R b a).forall hx hy hne

/-! ## Lookup in sorted tables -/

variable {α : Type*}

/-! ## Adjacent duplicates -/

theorem mem_destutter'_ne [DecidableEq α] {a b : α} {l : List α} :
    a ∈ List.destutter' (· ≠ ·) b l ↔ a = b ∨ a ∈ l := by
  induction l generalizing b with
  | nil => simp
  | cons c l ih =>
    by_cases hbc : b = c
    · rw [List.destutter'_cons_neg _ (not_not.mpr hbc), ih, hbc, List.mem_cons]
      tauto
    · rw [List.destutter'_cons_pos _ hbc, List.mem_cons, ih, List.mem_cons]

theorem mem_destutter_ne [DecidableEq α] {a : α} {l : List α} :
    a ∈ l.destutter (· ≠ ·) ↔ a ∈ l := by
  cases l with
  | nil => simp
  | cons b l => rw [List.destutter_cons', mem_destutter'_ne, List.mem_cons]

/-! ## Lower bounds -/

/-- The lower bound of the key of `x` behind the first `start` entries is the
position of `x`, if the entries in between have other keys. -/
theorem add_length_takeWhile_drop {κ : Type*} [LinearOrder κ] {key : α → κ}
    {front back : List α} {x : α}
    (hsorted : (front ++ x :: back).Pairwise fun a b => key a ≤ key b)
    {start : ℕ} (hstart : start ≤ front.length)
    (hne : ∀ y ∈ front.drop start, key y ≠ key x) :
    start + (((front ++ x :: back).drop start).takeWhile
      fun y => decide (key y < key x)).length = front.length := by
  have hlt : ∀ y ∈ front.drop start, decide (key y < key x) = true := by
    intro y hy
    have hle : key y ≤ key x :=
      (List.pairwise_append.mp hsorted).2.2 y (List.mem_of_mem_drop hy) x List.mem_cons_self
    exact decide_eq_true (lt_of_le_of_ne hle (hne y hy))
  rw [List.drop_append_of_le_length hstart, List.takeWhile_append_of_pos hlt,
    List.takeWhile_cons_of_neg (by simp), List.append_nil, List.length_drop]
  omega

/-! ## Maps as sorted lists of entries -/

variable {κ β : Type*} [LinearOrder κ] {k : κ} {v : β} {e : κ × β} {l m : List (κ × β)}

def KeySorted (m : List (κ × β)) : Prop :=
  m.Pairwise fun e e' => e.1 < e'.1

/-- `map[k] = v` -/
def setEntry (k : κ) (v : β) : List (κ × β) → List (κ × β)
  | [] => [(k, v)]
  | e :: m =>
    if k < e.1 then (k, v) :: e :: m
    else if k = e.1 then (k, v) :: m
    else e :: setEntry k v m

/-- The map that entries make when they are set one after another. -/
def setEntries (m l : List (κ × β)) : List (κ × β) :=
  l.foldl (fun m e => setEntry e.1 e.2 m) m

theorem setEntry_perm (h : ∀ e ∈ m, k ≠ e.1) : (setEntry k v m).Perm ((k, v) :: m) := by
  induction m with
  | nil => exact List.Perm.refl _
  | cons e m ih =>
    rw [setEntry]
    split
    · exact List.Perm.refl _
    · rw [if_neg (h e List.mem_cons_self)]
      exact ((ih fun e he => h e (List.mem_cons_of_mem _ he)).cons e).trans (List.Perm.swap _ _ _)

theorem mem_setEntry (h : e ∈ setEntry k v m) : e = (k, v) ∨ e ∈ m := by
  induction m with
  | nil => exact .inl (List.mem_singleton.mp h)
  | cons e' m ih =>
    rw [setEntry] at h
    split at h
    · exact List.mem_cons.mp h
    · split at h
      · exact (List.mem_cons.mp h).imp_right (List.mem_cons_of_mem _)
      · rcases List.mem_cons.mp h with rfl | h
        · exact .inr List.mem_cons_self
        · exact (ih h).imp_right (List.mem_cons_of_mem _)

theorem keySorted_setEntry (h : KeySorted m) : KeySorted (setEntry k v m) := by
  induction m with
  | nil => exact List.pairwise_singleton _ _
  | cons e m ih =>
    obtain ⟨hhead, htail⟩ := List.pairwise_cons.mp h
    rw [setEntry]
    split
    case isTrue hlt =>
      refine List.pairwise_cons.mpr ⟨fun e' he' => ?_, h⟩
      rcases List.mem_cons.mp he' with rfl | he'
      · exact hlt
      · exact hlt.trans (hhead e' he')
    case isFalse hlt =>
      split
      case isTrue heq =>
        exact List.pairwise_cons.mpr ⟨fun e' he' => heq ▸ hhead e' he', htail⟩
      case isFalse hne =>
        refine List.pairwise_cons.mpr ⟨fun e' he' => ?_, ih htail⟩
        rcases mem_setEntry he' with rfl | he'
        · exact lt_of_le_of_ne (not_lt.mp hlt) (Ne.symm hne)
        · exact hhead e' he'

theorem setEntries_spec (hm : KeySorted m) (hl : ((m ++ l).map Prod.fst).Nodup) :
    KeySorted (setEntries m l) ∧ (setEntries m l).Perm (m ++ l) := by
  induction l generalizing m with
  | nil => exact ⟨hm, by rw [List.append_nil]; exact List.Perm.refl _⟩
  | cons e l ih =>
    have hnew : ∀ e' ∈ m, e.1 ≠ e'.1 := by
      intro e' he' heq
      rw [List.map_append, List.nodup_append] at hl
      exact hl.2.2 _ (List.mem_map_of_mem he') _ List.mem_cons_self heq.symm
    have hperm : (setEntry e.1 e.2 m ++ l).Perm (m ++ e :: l) :=
      ((setEntry_perm hnew).append_right l).trans List.perm_middle.symm
    obtain ⟨hsorted, hall⟩ :=
      ih (keySorted_setEntry hm) ((hperm.map Prod.fst).nodup_iff.mpr hl)
    exact ⟨hsorted, hall.trans hperm⟩

theorem setEntries_of_perm (hm : KeySorted m) (h : l.Perm m) : setEntries [] l = m := by
  have hnodup : (l.map Prod.fst).Nodup :=
    (h.map Prod.fst).nodup_iff.mpr ((hm.map Prod.fst fun _ _ => id).imp ne_of_lt)
  obtain ⟨hsorted, hperm⟩ := setEntries_spec List.Pairwise.nil hnodup
  exact (hperm.trans h).eq_of_pairwise
    (fun _ _ _ _ hlt hgt => absurd (hlt.trans hgt) (lt_irrefl _)) hsorted hm

end Mold.Lib
