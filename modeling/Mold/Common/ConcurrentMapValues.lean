import Mold.Common.ConcurrentMapCorrect

/-!
# Values of the concurrent map

A value is constructed in a slot before the key is published there.  From then on no call of
`insert` writes it, so the callers may.
-/

namespace Mold.ConcurrentMap.Calls

variable {τ π α : Type*} {calls : Calls τ π α} {st st' : State τ π α} {i : τ}
  {idx : UInt64}

/-- A slot that is used has a value, unless the call that has claimed it is about to
construct one. -/
def Constructed (st : State τ π α) : Prop :=
  ∀ idx, st.keys idx ≠ .null → (∃ i, st.pc i = .construct idx) ∨ ∃ v, st.values idx = some v

theorem Inv.of_values (h : Inv calls st) (values : UInt64 → Option α) :
    Inv calls { st with values := values } where
  at_pc i := (h.at_pc i).mono (fun _ _ hkey => ⟨hkey, rfl⟩) fun _ _ => ⟨rfl, rfl⟩
  owner_unique := h.owner_unique
  exists_owner := h.exists_owner

theorem exists_data_of_done (h : Inv calls st) {inserted : Bool}
    (hpc : st.pc i = .done idx inserted) : ∃ ptr, st.keys idx = .data ptr := by
  have hat := h.at_pc i
  rw [hpc] at hat
  cases inserted with
  | true => exact ⟨_, hat.2.1⟩
  | false =>
    obtain ⟨ptr, hkey, -⟩ := hat
    exact ⟨ptr, hkey⟩

def shardOf (calls : Calls τ π α) (l : List UInt8) : ℕ :=
  (calls.firstIdx l).toNat / (calls.nbuckets.toNat / 16)

theorem nextIdx_div {k : ℕ} (hk : 4 ≤ k) (hk' : k < 64) (hsize : calls.nbuckets.toNat = 2 ^ k)
    (idx : UInt64) : (calls.nextIdx idx).toNat / 2 ^ (k - 4) = idx.toNat / 2 ^ (k - 4) := by
  obtain ⟨m, rfl⟩ : ∃ m, k = m + 4 := ⟨k - 4, by omega⟩
  have hpos : 0 < 2 ^ m := Nat.two_pow_pos m
  have hmask : (calls.nbuckets / numShards - 1).toNat = 2 ^ m - 1 := by
    have hdiv : (calls.nbuckets / numShards).toNat = 2 ^ m := by
      rw [UInt64.toNat_div, hsize, Nat.pow_add]
      exact Nat.mul_div_cancel _ (by decide)
    rw [UInt64.toNat_sub_of_le _ _ (UInt64.le_iff_toNat_le.mpr (hdiv ▸ hpos)), hdiv]
    rfl
  have hsplit : 2 ^ 64 = 2 ^ m * 2 ^ (64 - m) := by
    rw [← Nat.pow_add, Nat.add_sub_cancel' (by omega)]
  have hnot : (~~~(calls.nbuckets / numShards - 1)).toNat >>> m = 2 ^ (64 - m) - 1 := by
    have hhigh : UInt64.size - 1 - (2 ^ m - 1) = 2 ^ m * (2 ^ (64 - m) - 1) := by
      rw [show UInt64.size = 2 ^ 64 from rfl, hsplit, Nat.mul_sub, Nat.mul_one]
      omega
    rw [UInt64.toNat_not, hmask, Nat.shiftRight_eq_div_pow, hhigh, Nat.mul_div_cancel_left _ hpos]
  have hlow : (2 ^ m - 1) >>> m = 0 := by
    rw [Nat.shiftRight_eq_div_pow]
    exact Nat.div_eq_of_lt (Nat.sub_lt hpos Nat.one_pos)
  have hidx : idx.toNat >>> m < 2 ^ (64 - m) := by
    rw [Nat.shiftRight_eq_div_pow]
    apply Nat.div_lt_of_lt_mul
    rw [← hsplit]
    exact idx.toNat_lt
  rw [Nat.add_sub_cancel, ← Nat.shiftRight_eq_div_pow, ← Nat.shiftRight_eq_div_pow, nextIdx,
    UInt64.toNat_or, UInt64.toNat_and, UInt64.toNat_and, Nat.shiftRight_or_distrib,
    Nat.shiftRight_and_distrib, Nat.shiftRight_and_distrib, hmask, hnot, hlow, Nat.and_zero,
    Nat.or_zero, Nat.and_two_pow_sub_one_eq_mod, Nat.mod_eq_of_lt hidx]

theorem path_div {k : ℕ} (hk : 4 ≤ k) (hk' : k < 64) (hsize : calls.nbuckets.toNat = 2 ^ k)
    (l : List UInt8) (n : ℕ) : (calls.path l n).toNat / 2 ^ (k - 4) = calls.shardOf l := by
  have hshard : calls.nbuckets.toNat / 16 = 2 ^ (k - 4) := by
    rw [hsize]
    exact Nat.pow_div hk Nat.two_pos
  induction n with
  | zero => rw [shardOf, hshard, path, Function.iterate_zero_apply]
  | succ n ih => rw [path, Function.iterate_succ_apply', ← path, nextIdx_div hk hk' hsize, ih]

variable [DecidableEq τ]

theorem update_pc_of_ne {j : τ} {pc pc' : Pc π} (hpc : st.pc i = pc) (hne : st.pc j ≠ pc) :
    Function.update st.pc j pc' i = pc := by
  have hij : i ≠ j := fun heq => hne (heq ▸ hpc)
  rw [Function.update_of_ne hij, hpc]

theorem Step.done_stays (hstep : calls.Step st st') {inserted : Bool}
    (hpc : st.pc i = .done idx inserted) : st'.pc i = .done idx inserted := by
  cases hstep with
  | loadMarker => exact hpc
  | loadNull j idx' retry hj => exact update_pc_of_ne hpc (by simp [hj])
  | loadData j idx' retry ptr hj => exact update_pc_of_ne hpc (by simp [hj])
  | exchangeFails j idx' retry hj => exact update_pc_of_ne hpc (by simp [hj])
  | exchange j idx' retry hj => exact update_pc_of_ne hpc (by simp [hj])
  | construct j idx' hj => exact update_pc_of_ne hpc (by simp [hj])
  | setSize j idx' hj => exact update_pc_of_ne hpc (by simp [hj])
  | publish j idx' hj => exact update_pc_of_ne hpc (by simp [hj])
  | found j idx' retry ptr hj => exact update_pc_of_ne hpc (by simp [hj])
  | next j idx' retry ptr hj => exact update_pc_of_ne hpc (by simp [hj])

theorem Step.values_cases (hstep : calls.Step st st') :
    st'.values = st.values ∨ ∃ i idx, st.pc i = .construct idx ∧
      st'.values = Function.update st.values idx (some (calls.val i)) := by
  cases hstep with
  | construct i idx hpc => exact Or.inr ⟨i, idx, hpc, rfl⟩
  | loadMarker => exact Or.inl rfl
  | loadNull => exact Or.inl rfl
  | loadData => exact Or.inl rfl
  | exchangeFails => exact Or.inl rfl
  | exchange => exact Or.inl rfl
  | setSize => exact Or.inl rfl
  | publish => exact Or.inl rfl
  | found => exact Or.inl rfl
  | next => exact Or.inl rfl

theorem Step.values_of_data (h : Inv calls st) (hstep : calls.Step st st') {ptr : π}
    (hkey : st.keys idx = .data ptr) : st'.values idx = st.values idx := by
  rcases hstep.values_cases with heq | ⟨i, idx', hpc, heq⟩
  · rw [heq]
  · have hat := h.at_pc i
    rw [hpc] at hat
    have hne : idx ≠ idx' := by
      rintro rfl
      rw [hat.2] at hkey
      cases hkey
    rw [heq, Function.update_of_ne hne]

theorem Constructed.step (h : Constructed st) (hinv : Inv calls st)
    (hstep : calls.Step st st') : Constructed st' := by
  -- A step of a call that is not about to construct a value changes nothing for the others.
  have hother : ∀ (j : τ) (pc : Pc π), (∀ idx, st.pc j ≠ .construct idx) → ∀ idx,
      st.keys idx ≠ .null →
        (∃ i, Function.update st.pc j pc i = .construct idx) ∨ ∃ v, st.values idx = some v := by
    intro j pc hj idx hused
    exact (h idx hused).imp_left fun ⟨i, hpc⟩ => ⟨i, update_pc_of_ne hpc (hj idx)⟩
  cases hstep with
  | loadMarker => exact h
  | loadNull j idx' retry hj => exact hother j _ (by simp [hj])
  | loadData j idx' retry ptr hj => exact hother j _ (by simp [hj])
  | exchangeFails j idx' retry hj => exact hother j _ (by simp [hj])
  | setSize j idx' hj => exact hother j _ (by simp [hj])
  | found j idx' retry ptr hj => exact hother j _ (by simp [hj])
  | next j idx' retry ptr hj => exact hother j _ (by simp [hj])
  | exchange j idx' retry hj hnull =>
    intro idx hused
    dsimp only at hused ⊢
    by_cases hidx : idx = idx'
    · subst hidx
      exact Or.inl ⟨j, Function.update_self _ _ _⟩
    · rw [Function.update_of_ne hidx] at hused
      exact hother j _ (by simp [hj]) idx hused
  | construct j idx' hj =>
    intro idx hused
    dsimp only at hused ⊢
    by_cases hidx : idx = idx'
    · subst hidx
      exact Or.inr ⟨_, Function.update_self _ _ _⟩
    · have hvalue : Function.update st.values idx' (some (calls.val j)) idx = st.values idx :=
        Function.update_of_ne hidx _ _
      have hpc : st.pc j ≠ .construct idx := by simp [hj, Ne.symm hidx]
      rw [hvalue]
      exact (h idx hused).imp_left fun ⟨i, hi⟩ => ⟨i, update_pc_of_ne hi hpc⟩
  | publish j idx' hj =>
    intro idx hused
    dsimp only at hused
    have hat := hinv.at_pc j
    rw [hj] at hat
    refine hother j _ (by simp [hj]) idx ?_
    by_cases hidx : idx = idx'
    · subst hidx
      rw [hat.2.1]
      simp
    · rwa [Function.update_of_ne hidx] at hused

end Mold.ConcurrentMap.Calls
