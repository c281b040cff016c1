import Mathlib.Data.List.Basic

/-!
# Merging by keys

A merge replaces the members of a group that have the same key by one of them,
the owner of the key.  `R s = some t` says that `s` was replaced by `t`, and
`rep R s` is the element that stands for `s`.  Groups are disjoint, so nothing
is ever replaced twice and an owner stays in place.
-/

namespace Mold.Lib

variable {σ κ : Type*}

/-- The element that stands for `s`. -/
def rep (R : σ → Option σ) (s : σ) : σ := (R s).getD s

/-- All replacements happened inside `old`, and owners are in place. -/
structure Replaces (R : σ → Option σ) (old : List σ) : Prop where
  mem : ∀ s t, R s = some t → s ∈ old ∧ t ∈ old
  owner : ∀ s t, R s = some t → R t = none

variable {R : σ → Option σ} {old : List σ} {s : σ}

theorem Replaces.rep_mem (h : Replaces R old) : rep R s = s ∨ rep R s ∈ old := by
  cases hs : R s with
  | none => exact Or.inl (by rw [rep, hs, Option.getD_none])
  | some t => exact Or.inr (by rw [rep, hs, Option.getD_some]; exact (h.mem s t hs).2)

theorem Replaces.replaced_rep (h : Replaces R old) (s : σ) : R (rep R s) = none := by
  cases hs : R s with
  | none => rwa [rep, hs, Option.getD_none]
  | some t =>
    rw [rep, hs, Option.getD_some]
    exact h.owner s t hs

theorem Replaces.none_of_notMem (h : Replaces R old) (hs : s ∉ old) : R s = none := by
  cases hR : R s with
  | none => rfl
  | some t => exact absurd (h.mem s t hR).1 hs

variable [DecidableEq σ]

/-- Replace the members of a group by the owners of their keys.  Members
without a key stay. -/
def mergeBy (members : List σ) (key : σ → Option κ) (owner : κ → Option σ)
    (R : σ → Option σ) (s : σ) : Option σ :=
  if s ∈ members then
    match (key s).bind owner with
    | none => R s
    | some o => if s = o then R s else some o
  else R s

/-- Every key that occurs in the group is owned by a member with that key. -/
def IsOwner (members : List σ) (key : σ → Option κ) (owner : κ → Option σ) : Prop :=
  ∀ s ∈ members, ∀ k, key s = some k → ∃ o ∈ members, owner k = some o ∧ key o = some k

section Merge

variable {members old : List σ} {key : σ → Option κ} {owner : κ → Option σ}
  {R : σ → Option σ}

theorem mergeBy_of_notMem (hs : s ∉ members) : mergeBy members key owner R s = R s := by
  rw [mergeBy, if_neg hs]

theorem mergeBy_of_none (hs : key s = none) : mergeBy members key owner R s = R s := by
  rw [mergeBy, hs]
  exact ite_self _

theorem mergeBy_of_some {s o : σ} {k : κ} (hs : s ∈ members) (hk : key s = some k)
    (ho : owner k = some o) :
    mergeBy members key owner R s = if s = o then R s else some o := by
  rw [mergeBy, if_pos hs, hk, Option.bind_some, ho]

theorem mergeBy_eq_none_iff {s o : σ} {k : κ} (hs : s ∈ members) (hR : R s = none)
    (hk : key s = some k) (ho : owner k = some o) :
    mergeBy members key owner R s = none ↔ s = o := by
  rw [mergeBy_of_some hs hk ho, hR]
  simp

/-- A replacement is an old one, or a member was replaced by the owner of its
key. -/
theorem mergeBy_eq_some {s t : σ} (h : mergeBy members key owner R s = some t) :
    R s = some t ∨ s ∈ members ∧ ∃ k, key s = some k ∧ owner k = some t := by
  rw [mergeBy] at h
  split at h
  case isTrue hs =>
    cases hbind : (key s).bind owner with
    | none =>
      rw [hbind] at h
      exact Or.inl h
    | some o =>
      rw [hbind] at h
      dsimp only at h
      split at h
      · exact Or.inl h
      · obtain ⟨k, hk, ho⟩ := Option.bind_eq_some_iff.mp hbind
        exact Or.inr ⟨hs, k, hk, ho.trans h⟩
  case isFalse => exact Or.inl h

variable (hR : Replaces R old) (hdisjoint : ∀ s ∈ members, s ∉ old)
  (howner : IsOwner members key owner)

include hR hdisjoint

theorem rep_mergeBy {s o : σ} {k : κ} (hs : s ∈ members) (hk : key s = some k)
    (ho : owner k = some o) : rep (mergeBy members key owner R) s = o := by
  rw [rep, mergeBy_of_some hs hk ho, hR.none_of_notMem (hdisjoint s hs)]
  by_cases h : s = o
  · rw [if_pos h, Option.getD_none]
    exact h
  · rw [if_neg h, Option.getD_some]

theorem rep_mergeBy_of_none (hs : s ∈ members) (hk : key s = none) :
    rep (mergeBy members key owner R) s = s := by
  rw [rep, mergeBy_of_none hk, hR.none_of_notMem (hdisjoint s hs), Option.getD_none]

include howner

theorem rep_mergeBy_mem (hs : s ∈ members) : rep (mergeBy members key owner R) s ∈ members := by
  cases hk : key s with
  | none => rwa [rep_mergeBy_of_none hR hdisjoint hs hk]
  | some k =>
    obtain ⟨o, hmem, ho, -⟩ := howner s hs k hk
    rwa [rep_mergeBy hR hdisjoint hs hk ho]

theorem Replaces.mergeBy : Replaces (mergeBy members key owner R) (old ++ members) := by
  constructor
  · intro s t h
    rcases mergeBy_eq_some h with hold | ⟨hs, k, hk, ho⟩
    · exact ⟨List.mem_append_left _ (hR.mem s t hold).1,
        List.mem_append_left _ (hR.mem s t hold).2⟩
    · obtain ⟨o, hmem, ho', -⟩ := howner s hs k hk
      rw [ho, Option.some.injEq] at ho'
      exact ⟨List.mem_append_right _ hs, List.mem_append_right _ (ho' ▸ hmem)⟩
  · intro s t h
    rcases mergeBy_eq_some h with hold | ⟨hs, k, hk, ho⟩
    · have ht : t ∉ members := fun ht => hdisjoint t ht (hR.mem s t hold).2
      rw [mergeBy_of_notMem ht]
      exact hR.owner s t hold
    · obtain ⟨o, hmem, ho', hkey⟩ := howner s hs k hk
      obtain rfl : t = o := by rwa [ho, Option.some.injEq] at ho'
      rw [mergeBy_eq_none_iff hmem (hR.none_of_notMem (hdisjoint _ hmem)) hkey ho]

/-- Two members have one representative behind the merge if they are equal or
have the same key. -/
theorem rep_mergeBy_eq_iff_of_mem {s t : σ} (hs : s ∈ members) (ht : t ∈ members) :
    rep (Lib.mergeBy members key owner R) s = rep (Lib.mergeBy members key owner R) t ↔
      s = t ∨ ∃ k, key s = some k ∧ key t = some k := by
  constructor
  · intro h
    cases hks : key s with
    | none =>
      cases hkt : key t with
      | none =>
        rw [rep_mergeBy_of_none hR hdisjoint hs hks, rep_mergeBy_of_none hR hdisjoint ht hkt] at h
        exact Or.inl h
      | some l =>
        obtain ⟨o, -, ho, hkey⟩ := howner t ht l hkt
        rw [rep_mergeBy_of_none hR hdisjoint hs hks, rep_mergeBy hR hdisjoint ht hkt ho] at h
        rw [← h, hks] at hkey
        exact absurd hkey (by simp)
    | some k =>
      obtain ⟨o, -, ho, hkey⟩ := howner s hs k hks
      rw [rep_mergeBy hR hdisjoint hs hks ho] at h
      cases hkt : key t with
      | none =>
        rw [rep_mergeBy_of_none hR hdisjoint ht hkt] at h
        rw [h, hkt] at hkey
        exact absurd hkey (by simp)
      | some l =>
        obtain ⟨p, -, hp, hkey'⟩ := howner t ht l hkt
        rw [rep_mergeBy hR hdisjoint ht hkt hp] at h
        rw [h, hkey'] at hkey
        exact Or.inr ⟨k, rfl, hkey⟩
  · rintro (rfl | ⟨k, hks, hkt⟩)
    · rfl
    · obtain ⟨o, -, ho, -⟩ := howner s hs k hks
      rw [rep_mergeBy hR hdisjoint hs hks ho, rep_mergeBy hR hdisjoint ht hkt ho]

/-- Two elements have one representative behind the merge if they had one
before or if they are members with the same key. -/
theorem rep_mergeBy_eq_iff {s t : σ} :
    rep (Lib.mergeBy members key owner R) s = rep (Lib.mergeBy members key owner R) t ↔
      rep R s = rep R t ∨ s ∈ members ∧ t ∈ members ∧ ∃ k, key s = some k ∧ key t = some k := by
  have hself {u : σ} (hu : u ∈ members) : rep R u = u := by
    rw [rep, hR.none_of_notMem (hdisjoint u hu), Option.getD_none]
  have hother {u : σ} (hu : u ∉ members) : rep (Lib.mergeBy members key owner R) u = rep R u := by
    rw [rep, mergeBy_of_notMem hu, rep]
  have hout {u : σ} (hu : u ∉ members) : rep R u ∉ members := by
    rcases hR.rep_mem (s := u) with h | h
    · rwa [h]
    · exact fun hmem => hdisjoint _ hmem h
  have hin {u : σ} (hu : u ∈ members) := rep_mergeBy_mem hR hdisjoint howner hu
  by_cases hs : s ∈ members <;> by_cases ht : t ∈ members
  · rw [rep_mergeBy_eq_iff_of_mem hR hdisjoint howner hs ht, hself hs, hself ht]
    simp [hs, ht]
  · rw [hother ht, hself hs]
    simp only [ht, false_and, and_false, or_false]
    exact iff_of_false (fun h => hout ht (h ▸ hin hs)) (fun h => hout ht (h ▸ hs))
  · rw [hother hs, hself ht]
    simp only [hs, false_and, or_false]
    exact iff_of_false (fun h => hout hs (h ▸ hin ht)) (fun h => hout hs (h ▸ ht))
  · rw [hother hs, hother ht]
    simp [hs]

end Merge

end Mold.Lib
