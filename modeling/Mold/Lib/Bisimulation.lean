import Mathlib.Data.Fintype.Card

/-!
# Bisimilar vertices of a labelled graph

Two vertices are bisimilar if their infinite unfoldings are equal.  Unfoldings that are cut
off at a depth can be hashed, each level from the one before.  As long as some class of equal
hashes is split by going deeper, their number grows; once it does not, equal hashes are those
of bisimilar vertices.
-/

namespace Mold.Lib.Bisimulation

section Graph

variable {V L : Type*} (label : V → L) (succ : V → List V)

/-- Related vertices have the same label and related successors, in order. -/
structure IsBisimulation (R : V → V → Prop) : Prop where
  label_eq : ∀ u v, R u v → label u = label v
  succ_related : ∀ u v, R u v → List.Forall₂ R (succ u) (succ v)

def Bisimilar (u v : V) : Prop := ∃ R, IsBisimulation label succ R ∧ R u v

/-- The unfoldings of two vertices are equal down to a depth. -/
def Agree : ℕ → V → V → Prop
  | 0, u, v => label u = label v
  | k + 1, u, v => label u = label v ∧ List.Forall₂ (Agree k) (succ u) (succ v)

variable {label succ} {k : ℕ} {u v : V}

theorem Agree.label_eq (h : Agree label succ k u v) : label u = label v := by
  cases k with
  | zero => exact h
  | succ k => exact h.1

theorem Agree.of_succ (h : Agree label succ (k + 1) u v) : Agree label succ k u v := by
  induction k generalizing u v with
  | zero => exact h.1
  | succ k ih => exact ⟨h.1, h.2.imp fun _ _ hrest => ih hrest⟩

theorem Agree.mono {j : ℕ} (hle : k ≤ j) (h : Agree label succ j u v) :
    Agree label succ k u v := by
  induction j, hle using Nat.le_induction with
  | base => exact h
  | succ j _ ih => exact ih h.of_succ

theorem Bisimilar.agree (h : Bisimilar label succ u v) (k : ℕ) : Agree label succ k u v := by
  obtain ⟨R, hR, huv⟩ := h
  induction k generalizing u v with
  | zero => exact hR.label_eq u v huv
  | succ k ih =>
    exact ⟨hR.label_eq u v huv, (hR.succ_related u v huv).imp fun _ _ hrest => ih hrest⟩

theorem bisimilar_iff_agree
    (hstable : ∀ u v, Agree label succ k u v → Agree label succ (k + 1) u v) :
    Bisimilar label succ u v ↔ Agree label succ k u v := by
  refine ⟨fun h => h.agree k, fun h => ⟨Agree label succ k, ⟨?_, ?_⟩, h⟩⟩
  · exact fun u v huv => huv.label_eq
  · exact fun u v huv => (hstable u v huv).2

end Graph

section Unfold

variable {V D : Type*} (hash : List D → D) (label : V → D) (succ : V → List V)

def unfold : ℕ → V → D
  | 0, v => label v
  | k + 1, v => hash (label v :: (succ v).map (unfold k))

variable {hash label succ} (hinj : Function.Injective hash)

include hinj

theorem unfold_succ_eq_iff {j k : ℕ} {u v : V} :
    unfold hash label succ (j + 1) u = unfold hash label succ (k + 1) v ↔
      label u = label v ∧
        (succ u).map (unfold hash label succ j) = (succ v).map (unfold hash label succ k) := by
  rw [unfold, unfold, hinj.eq_iff, List.cons.injEq]

theorem unfold_eq_iff {k : ℕ} {u v : V} :
    unfold hash label succ k u = unfold hash label succ k v ↔ Agree label succ k u v := by
  induction k generalizing u v with
  | zero => exact Iff.rfl
  | succ k ih =>
    rw [unfold_succ_eq_iff hinj, Agree, ← List.forall₂_eq_eq_eq, List.forall₂_map_left_iff,
      List.forall₂_map_right_iff]
    simp only [ih]

/-- A hash that one more level does not change is not changed by any number of them. -/
theorem unfold_eq_of_le (hlabel : ∀ v ds, label v ≠ hash ds) {j k : ℕ} {v : V}
    (h : unfold hash label succ (k + 1) v = unfold hash label succ k v) (hkj : k ≤ j) :
    unfold hash label succ j v = unfold hash label succ k v := by
  induction k generalizing j v with
  | zero => exact absurd h.symm (hlabel v _)
  | succ k ih =>
    obtain ⟨j, rfl⟩ : ∃ i, j = i + 1 := ⟨j - 1, by omega⟩
    obtain ⟨-, hsucc⟩ := (unfold_succ_eq_iff hinj).mp h
    apply (unfold_succ_eq_iff hinj).mpr
    refine ⟨rfl, List.map_congr_left fun w hw => ?_⟩
    exact ih (List.map_inj_left.mp hsucc w hw) (Nat.le_of_succ_le_succ hkj)

end Unfold

section Classes

variable {V D : Type*} [Fintype V] [DecidableEq D]

def numValues (f : V → D) : ℕ := (Finset.univ.image f).card

variable {f g : V → D}

theorem image_image (h : ∀ u v, f u = f v → g u = g v) :
    (Finset.univ.image f).image (Function.extend f g id) = Finset.univ.image g := by
  rw [Finset.image_image]
  congr 1
  exact funext fun v => Function.FactorsThrough.extend_apply (fun u v => h u v) id v

theorem numValues_le (h : ∀ u v, f u = f v → g u = g v) : numValues g ≤ numValues f := by
  rw [numValues, numValues, ← image_image h]
  exact Finset.card_image_le

/-- A function that splits at least as much and has as many values splits the same. -/
theorem eq_of_numValues_eq (h : ∀ u v, f u = f v → g u = g v)
    (hcard : numValues g = numValues f) {u v : V} (huv : g u = g v) : f u = f v := by
  rw [numValues, numValues, ← image_image h] at hcard
  have hf (v : V) : Function.extend f g id (f v) = g v :=
    Function.FactorsThrough.extend_apply (fun u v => h u v) id v
  apply Finset.injOn_of_card_image_eq hcard
  · exact Finset.mem_coe.mpr (Finset.mem_image_of_mem f (Finset.mem_univ u))
  · exact Finset.mem_coe.mpr (Finset.mem_image_of_mem f (Finset.mem_univ v))
  · rw [hf, hf, huv]

theorem numValues_le_card (f : V → D) : numValues f ≤ Fintype.card V := Finset.card_image_le

/-- If going deeper splits no class, equal hashes are those of bisimilar vertices. -/
theorem unfold_eq_iff_bisimilar {hash : List D → D} {label : V → D} {succ : V → List V}
    (hinj : Function.Injective hash) {j k : ℕ} (hlt : k < j)
    (hcard : numValues (unfold hash label succ k) = numValues (unfold hash label succ j))
    {u v : V} :
    unfold hash label succ j u = unfold hash label succ j v ↔ Bisimilar label succ u v := by
  have hrefines : ∀ u v, unfold hash label succ j u = unfold hash label succ j v →
      unfold hash label succ k u = unfold hash label succ k v := by
    intro u v h
    rw [unfold_eq_iff hinj] at h ⊢
    exact h.mono hlt.le
  have hsame : ∀ u v, Agree label succ k u v → Agree label succ j u v := by
    intro u v h
    rw [← unfold_eq_iff hinj] at h ⊢
    exact eq_of_numValues_eq hrefines hcard h
  rw [unfold_eq_iff hinj, bisimilar_iff_agree fun u v h => (hsame u v h).mono hlt]
  exact ⟨fun h => h.mono hlt.le, hsame u v⟩

end Classes

/-! ## Classes of a sorted list -/

def numChanges {D : Type*} [DecidableEq D] : List D → ℕ
  | a :: b :: l => (if a ≠ b then 1 else 0) + numChanges (b :: l)
  | _ => 0

theorem card_toFinset_of_sorted {D : Type*} [LinearOrder D] {a : D} {l : List D}
    (hsorted : (a :: l).Pairwise (· ≤ ·)) :
    (a :: l).toFinset.card = numChanges (a :: l) + 1 := by
  induction l generalizing a with
  | nil => rfl
  | cons b l ih =>
    obtain ⟨ha, hl⟩ := List.pairwise_cons.mp hsorted
    rw [List.toFinset_cons, numChanges]
    by_cases hab : a = b
    · subst hab
      rw [if_neg (not_not.mpr rfl), Nat.zero_add, ← ih hl, List.toFinset_cons, Finset.insert_idem]
    · -- What follows is at least `b`, which is greater than `a`.
      have hnot : a ∉ (b :: l).toFinset := by
        intro hmem
        rcases List.mem_cons.mp (List.mem_toFinset.mp hmem) with rfl | hmem
        · exact hab rfl
        · have hba := (List.pairwise_cons.mp hl).1 a hmem
          exact hab (le_antisymm (ha b List.mem_cons_self) hba)
      rw [if_pos hab, Finset.card_insert_of_notMem hnot, ih hl, Nat.add_comm 1]

end Mold.Lib.Bisimulation
