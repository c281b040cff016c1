import Mold.Common.ConcurrentMap
import Mathlib.Algebra.GroupWithZero.Nat
import Mathlib.Data.List.Basic
import Mathlib.Logic.Function.Iterate

/-!
# Insertion into the concurrent map

All calls for a key look at the same slots in the same order.  The invariant says that
every slot a call has passed holds another key.  So two slots with the same key would both
be the first one on the way that does not hold another key.
-/

namespace Mold.ConcurrentMap.Calls

variable {τ π α : Type*} {calls : Calls τ π α} {st st' : State τ π α} {i j : τ}
  {idx idx' : UInt64}

/-! ## The invariant -/

def path (calls : Calls τ π α) (l : List UInt8) (n : ℕ) : UInt64 :=
  calls.nextIdx^[n] (calls.firstIdx l)

theorem path_lt {k : ℕ} (hk : 4 ≤ k) (hsize : calls.nbuckets.toNat = 2 ^ k) (l : List UInt8)
    (n : ℕ) : (calls.path l n).toNat < 2 ^ k := by
  have hpos : 0 < 2 ^ k := Nat.two_pow_pos k
  induction n with
  | zero =>
    have hlast : (calls.nbuckets - 1).toNat = 2 ^ k - 1 := by
      rw [UInt64.toNat_sub_of_le _ _ (UInt64.le_iff_toNat_le.mpr (hsize ▸ hpos)), hsize]
      rfl
    rw [path, Function.iterate_zero_apply, firstIdx, UInt64.toNat_and, hlast]
    exact Nat.and_lt_two_pow _ (Nat.sub_lt hpos Nat.one_pos)
  | succ n ih =>
    have hdiv : (calls.nbuckets / numShards).toNat = 2 ^ k / 16 := by
      rw [UInt64.toNat_div, hsize]
      rfl
    have hshard : 1 ≤ 2 ^ k / 16 :=
      (Nat.one_le_div_iff (by decide)).mpr (Nat.pow_le_pow_right Nat.two_pos hk)
    have hmask : (calls.nbuckets / numShards - 1).toNat < 2 ^ k := by
      rw [UInt64.toNat_sub_of_le _ _ (UInt64.le_iff_toNat_le.mpr (hdiv ▸ hshard)), hdiv]
      exact Nat.lt_of_lt_of_le (Nat.sub_lt hshard Nat.one_pos) (Nat.div_le_self _ _)
    rw [path, Function.iterate_succ_apply', ← path, nextIdx, UInt64.toNat_or, UInt64.toNat_and,
      UInt64.toNat_and]
    exact Nat.or_lt_two_pow (Nat.lt_of_le_of_lt Nat.and_le_left ih) (Nat.and_lt_two_pow _ hmask)

structure OnPath (calls : Calls τ π α) (st : State τ π α) (l : List UInt8) (idx : UInt64)
    (n : ℕ) : Prop where
  eq : idx = calls.path l n
  passed : ∀ m < n, ∃ l', l' ≠ l ∧ calls.Holds st (calls.path l m) l'

/-- The slot for which a call has exchanged the marker. -/
def owned : Pc π → Option UInt64
  | .construct idx => some idx
  | .setSize idx => some idx
  | .publish idx => some idx
  | .done idx true => some idx
  | _ => none

def At (calls : Calls τ π α) (st : State τ π α) (i : τ) : Pc π → Prop
  | .load idx retry => calls.OnPath st (calls.bytes i) idx retry
  | .exchange idx retry => calls.OnPath st (calls.bytes i) idx retry
  | .construct idx => (∃ n, calls.OnPath st (calls.bytes i) idx n) ∧ st.keys idx = .marker
  | .setSize idx => (∃ n, calls.OnPath st (calls.bytes i) idx n) ∧ st.keys idx = .marker
  | .publish idx =>
    (∃ n, calls.OnPath st (calls.bytes i) idx n) ∧ st.keys idx = .marker ∧
      st.keySizes idx = UInt32.ofNat (calls.key i).size
  | .compare ptr idx retry =>
    calls.OnPath st (calls.bytes i) idx retry ∧ st.keys idx = .data ptr
  | .done idx true =>
    (∃ n, calls.OnPath st (calls.bytes i) idx n) ∧
      st.keys idx = .data (calls.key i).data ∧ st.keySizes idx = UInt32.ofNat (calls.key i).size
  | .done idx false => calls.Holds st idx (calls.bytes i)
  | .full => True

structure Inv (calls : Calls τ π α) (st : State τ π α) : Prop where
  at_pc : ∀ i, calls.At st i (st.pc i)
  owner_unique : ∀ i j idx, owned (st.pc i) = some idx → owned (st.pc j) = some idx → i = j
  exists_owner : ∀ idx, st.keys idx ≠ .null → ∃ i, owned (st.pc i) = some idx

theorem OnPath.zero (l : List UInt8) : calls.OnPath st l (calls.firstIdx l) 0 where
  eq := rfl
  passed m hm := absurd hm (Nat.not_lt_zero m)

theorem OnPath.next {l l' : List UInt8} {n : ℕ} (h : calls.OnPath st l idx n) (hne : l' ≠ l)
    (hholds : calls.Holds st idx l') : calls.OnPath st l (calls.nextIdx idx) (n + 1) where
  eq := by rw [path, Function.iterate_succ_apply', h.eq, path]
  passed m hm := by
    rcases Nat.lt_succ_iff_lt_or_eq.mp hm with hlt | rfl
    · exact h.passed m hlt
    · exact ⟨l', hne, h.eq ▸ hholds⟩

/-! ## What a step leaves -/

/-- What is published in `st` is the same in `st'`. -/
def Keeps (st st' : State τ π α) : Prop :=
  ∀ idx ptr, st.keys idx = .data ptr →
    st'.keys idx = .data ptr ∧ st'.keySizes idx = st.keySizes idx

variable {l : List UInt8}

theorem Holds.mono (h : calls.Holds st idx l) (hkeeps : Keeps st st') : calls.Holds st' idx l := by
  obtain ⟨ptr, hkey, hl⟩ := h
  obtain ⟨hkey', hsize⟩ := hkeeps idx ptr hkey
  exact ⟨ptr, hkey', hsize ▸ hl⟩

theorem OnPath.mono {n : ℕ} (h : calls.OnPath st l idx n)
    (hkeeps : Keeps st st') : calls.OnPath st' l idx n where
  eq := h.eq
  passed m hm := by
    obtain ⟨l', hne, hholds⟩ := h.passed m hm
    exact ⟨l', hne, hholds.mono hkeeps⟩

variable {pc : Pc π}

theorem At.mono (h : calls.At st i pc) (hkeeps : Keeps st st')
    (hown : ∀ idx ∈ owned pc, st'.keys idx = st.keys idx ∧ st'.keySizes idx = st.keySizes idx) :
    calls.At st' i pc := by
  cases pc with
  | load idx retry => exact OnPath.mono h hkeeps
  | exchange idx retry => exact OnPath.mono h hkeeps
  | construct idx =>
    obtain ⟨⟨n, hpath⟩, hkey⟩ := h
    exact ⟨⟨n, hpath.mono hkeeps⟩, (hown idx rfl).1.trans hkey⟩
  | setSize idx =>
    obtain ⟨⟨n, hpath⟩, hkey⟩ := h
    exact ⟨⟨n, hpath.mono hkeeps⟩, (hown idx rfl).1.trans hkey⟩
  | publish idx =>
    obtain ⟨⟨n, hpath⟩, hkey, hsize⟩ := h
    exact ⟨⟨n, hpath.mono hkeeps⟩, (hown idx rfl).1.trans hkey, (hown idx rfl).2.trans hsize⟩
  | compare ptr idx retry => exact ⟨h.1.mono hkeeps, (hkeeps idx ptr h.2).1⟩
  | done idx inserted =>
    cases inserted with
    | true =>
      obtain ⟨⟨n, hpath⟩, hkey, hsize⟩ := h
      exact ⟨⟨n, hpath.mono hkeeps⟩, (hown idx rfl).1.trans hkey, (hown idx rfl).2.trans hsize⟩
    | false => exact Holds.mono h hkeeps
  | full => trivial

theorem At.ne_null (h : calls.At st i pc) (hown : idx ∈ owned pc) : st.keys idx ≠ .null := by
  have hkey : st.keys idx = .marker ∨ st.keys idx = .data (calls.key i).data := by
    cases pc with
    | construct idx' =>
      obtain rfl := Option.some.inj hown
      exact .inl h.2
    | setSize idx' =>
      obtain rfl := Option.some.inj hown
      exact .inl h.2
    | publish idx' =>
      obtain rfl := Option.some.inj hown
      exact .inl h.2.1
    | done idx' inserted =>
      cases inserted with
      | true =>
        obtain rfl := Option.some.inj hown
        exact .inr h.2.1
      | false => cases hown
    | load idx' retry => cases hown
    | exchange idx' retry => cases hown
    | compare ptr idx' retry => cases hown
    | full => cases hown
  intro hnull
  rw [hnull] at hkey
  rcases hkey with hkey | hkey
  · cases hkey
  · cases hkey

theorem bytesAt_eq_iff (calls : Calls τ π α) (p q : π) (m n : ℕ) :
    calls.bytesAt p m = calls.bytesAt q n ↔ m = n ∧ ∀ k < n, calls.mem p k = calls.mem q k := by
  constructor
  · intro h
    have hlen : m = n := by simpa [bytesAt] using congrArg List.length h
    subst hlen
    refine ⟨rfl, fun k hk => ?_⟩
    have hget := congrArg (fun l => l[k]?) h
    simpa [bytesAt, hk] using hget
  · rintro ⟨rfl, hall⟩
    exact List.map_congr_left fun k hk => hall k (List.mem_range.mp hk)

theorem matches_iff {ptr : π} {keySize : UInt32} :
    calls.Matches (calls.key i) ptr keySize ↔ calls.bytesAt ptr keySize.toNat = calls.bytes i := by
  rw [bytes, bytesAt_eq_iff, Matches, @eq_comm _ (calls.key i).size]
  refine and_congr_right fun hsize => ?_
  rw [hsize]

theorem OnPath.at_loop {n : ℕ} (h : calls.OnPath st (calls.bytes i) idx n) :
    calls.At st i (loop idx n) := by
  rw [loop]
  split
  · exact h
  · trivial

theorem owned_loop (idx : UInt64) (n : ℕ) : owned (loop idx n : Pc π) = none := by
  rw [loop]
  split
  · rfl
  · rfl

theorem inv_start (h : calls.Start st) : Inv calls st where
  at_pc i := by
    rw [h.pc i]
    exact (OnPath.zero _).at_loop
  owner_unique i j idx hi _ := by
    rw [h.pc i, owned_loop] at hi
    cases hi
  exists_owner idx hkey := absurd (h.keys idx) hkey

section

variable (hsize : ∀ i, (calls.key i).size < 2 ^ 32)

include hsize

theorem holds_of_done (h : Inv calls st) {inserted : Bool} (hpc : st.pc i = .done idx inserted) :
    calls.Holds st idx (calls.bytes i) := by
  have hat := h.at_pc i
  rw [hpc] at hat
  cases inserted with
  | false => exact hat
  | true =>
    obtain ⟨-, hkey, hks⟩ := hat
    refine ⟨_, hkey, ?_⟩
    rw [hks, UInt32.toNat_ofNat_of_lt' (hsize i)]
    rfl

theorem exists_done_of_holds (h : Inv calls st) (hholds : calls.Holds st idx l) :
    ∃ i, st.pc i = .done idx true ∧ calls.bytes i = l ∧ ∃ n, calls.OnPath st l idx n := by
  obtain ⟨ptr, hkey, hl⟩ := hholds
  have hnull : st.keys idx ≠ .null := by
    intro hnull
    rw [hnull] at hkey
    cases hkey
  obtain ⟨i, hown⟩ := h.exists_owner idx hnull
  have hat := h.at_pc i
  have hmarker : st.keys idx ≠ .marker := by
    intro hmarker
    rw [hmarker] at hkey
    cases hkey
  cases hpc : st.pc i with
  | done idx' inserted =>
    rw [hpc] at hat hown
    cases inserted with
    | false => cases hown
    | true =>
      obtain rfl := Option.some.inj hown
      obtain ⟨n, hpath⟩ := hat.1
      have hbytes : calls.bytes i = l := by
        obtain ⟨ptr', hkey', hl'⟩ := holds_of_done hsize h hpc
        rw [hkey] at hkey'
        obtain rfl := Ptr.data.inj hkey'
        exact hl'.symm.trans hl
      exact ⟨i, hpc, hbytes, n, hbytes ▸ hpath⟩
  | construct idx' =>
    rw [hpc] at hat hown
    obtain rfl := Option.some.inj hown
    exact absurd hat.2 hmarker
  | setSize idx' =>
    rw [hpc] at hat hown
    obtain rfl := Option.some.inj hown
    exact absurd hat.2 hmarker
  | publish idx' =>
    rw [hpc] at hat hown
    obtain rfl := Option.some.inj hown
    exact absurd hat.2.1 hmarker
  | load idx' retry =>
    rw [hpc] at hown
    cases hown
  | exchange idx' retry =>
    rw [hpc] at hown
    cases hown
  | compare ptr' idx' retry =>
    rw [hpc] at hown
    cases hown
  | full =>
    rw [hpc] at hown
    cases hown

omit hsize in
theorem OnPath.le {n m : ℕ} (h : calls.OnPath st l idx n)
    (h' : calls.OnPath st l idx' m) (hholds : calls.Holds st idx l) : m ≤ n := by
  by_contra hlt
  obtain ⟨l', hne, ptr, hkey, hl'⟩ := h'.passed n (Nat.lt_of_not_le hlt)
  obtain ⟨ptr', hkey', hl⟩ := hholds
  rw [h.eq, hkey] at hkey'
  obtain rfl := Ptr.data.inj hkey'
  rw [h.eq] at hl
  exact hne (hl'.symm.trans hl)

theorem eq_of_holds (h : Inv calls st) (hidx : calls.Holds st idx l)
    (hidx' : calls.Holds st idx' l) : idx = idx' := by
  obtain ⟨-, -, -, n, hpath⟩ := exists_done_of_holds hsize h hidx
  obtain ⟨-, -, -, m, hpath'⟩ := exists_done_of_holds hsize h hidx'
  have hnm : n = m := Nat.le_antisymm (hpath'.le hpath hidx') (hpath.le hpath' hidx)
  rw [hpath.eq, hpath'.eq, hnm]

end

variable [DecidableEq τ]

theorem Inv.of_update (h : Inv calls st) (hpc : st'.pc = Function.update st.pc i pc)
    (hkeeps : Keeps st st') (hat : calls.At st' i pc)
    (hothers : ∀ idx, st.keys idx ≠ .null → owned (st.pc i) ≠ some idx →
      st'.keys idx = st.keys idx ∧ st'.keySizes idx = st.keySizes idx)
    (htakes : ∀ idx ∈ owned pc, owned (st.pc i) = some idx ∨ st.keys idx = .null)
    (hleaves : ∀ idx ∈ owned (st.pc i), owned pc = some idx)
    (hnew : ∀ idx, st.keys idx = .null → st'.keys idx = .null ∨ owned pc = some idx) :
    Inv calls st' := by
  have hself : st'.pc i = pc := by rw [hpc, Function.update_self]
  have hne : ∀ j, j ≠ i → st'.pc j = st.pc j := fun j hj => by
    rw [hpc, Function.update_of_ne hj]
  have hnot : ∀ j, j ≠ i → ∀ idx, owned (st.pc j) = some idx → owned (st.pc i) ≠ some idx :=
    fun j hj idx hown hown' => hj (h.owner_unique j i idx hown hown')
  refine ⟨fun j => ?_, fun j k idx hj hk => ?_, fun idx hkey => ?_⟩
  · by_cases hj : j = i
    · rw [hj, hself]
      exact hat
    · rw [hne j hj]
      exact (h.at_pc j).mono hkeeps fun idx hown =>
        hothers idx ((h.at_pc j).ne_null hown) (hnot j hj idx hown)
  · have hmine : ∀ j, j ≠ i → owned (st'.pc j) = some idx → owned pc ≠ some idx := by
      intro j hj hown hown'
      rw [hne j hj] at hown
      rcases htakes idx hown' with hi | hnull
      · exact hnot j hj idx hown hi
      · exact (h.at_pc j).ne_null hown hnull
    by_cases hji : j = i
    · by_cases hki : k = i
      · exact hji.trans hki.symm
      · rw [hji, hself] at hj
        exact absurd hj (hmine k hki hk)
    · by_cases hki : k = i
      · rw [hki, hself] at hk
        exact absurd hk (hmine j hji hj)
      · rw [hne j hji] at hj
        rw [hne k hki] at hk
        exact h.owner_unique j k idx hj hk
  · by_cases hnull : st.keys idx = .null
    · refine ⟨i, ?_⟩
      rw [hself]
      exact (hnew idx hnull).resolve_left hkey
    · obtain ⟨j, hj⟩ := h.exists_owner idx hnull
      by_cases hji : j = i
      · refine ⟨i, ?_⟩
        rw [hself]
        exact hleaves idx (hji ▸ hj)
      · exact ⟨j, by rw [hne j hji, hj]⟩

theorem Inv.of_read (h : Inv calls st) (hat : calls.At st i pc)
    (hfrom : owned (st.pc i) = none) (hto : owned pc = none) :
    Inv calls { st with pc := Function.update st.pc i pc } := by
  refine h.of_update rfl (fun idx ptr hkey => ⟨hkey, rfl⟩)
    (hat.mono (fun idx ptr hkey => ⟨hkey, rfl⟩) fun idx _ => ⟨rfl, rfl⟩)
    (fun idx _ _ => ⟨rfl, rfl⟩) (fun idx hown => ?_) (fun idx hown => ?_) fun idx hnull => .inl hnull
  · rw [hto] at hown
    cases hown
  · rw [hfrom] at hown
    cases hown

theorem keeps_step (h : Inv calls st) (hstep : calls.Step st st') : Keeps st st' := by
  have hmarker : ∀ i idx, calls.At st i (.setSize idx) ∨ calls.At st i (.publish idx) →
      ∀ idx' ptr, st.keys idx' = .data ptr → idx' ≠ idx := by
    rintro i idx hat idx' ptr hkey rfl
    have hmarker : st.keys idx' = .marker := hat.elim (fun h => h.2) fun h => h.2.1
    rw [hmarker] at hkey
    cases hkey
  cases hstep with
  | loadMarker => exact fun idx ptr hkey => ⟨hkey, rfl⟩
  | loadNull => exact fun idx ptr hkey => ⟨hkey, rfl⟩
  | loadData => exact fun idx ptr hkey => ⟨hkey, rfl⟩
  | exchangeFails => exact fun idx ptr hkey => ⟨hkey, rfl⟩
  | exchange i idx retry hpc hnull =>
    intro idx' ptr hkey
    have hne : idx' ≠ idx := by
      rintro rfl
      rw [hnull] at hkey
      cases hkey
    exact ⟨(Function.update_of_ne hne _ _).trans hkey, rfl⟩
  | construct => exact fun idx ptr hkey => ⟨hkey, rfl⟩
  | setSize i idx hpc =>
    intro idx' ptr hkey
    have hne := hmarker i idx (.inl (hpc ▸ h.at_pc i)) idx' ptr hkey
    exact ⟨hkey, Function.update_of_ne hne _ _⟩
  | publish i idx hpc =>
    intro idx' ptr hkey
    have hne := hmarker i idx (.inr (hpc ▸ h.at_pc i)) idx' ptr hkey
    exact ⟨(Function.update_of_ne hne _ _).trans hkey, rfl⟩
  | found => exact fun idx ptr hkey => ⟨hkey, rfl⟩
  | next => exact fun idx ptr hkey => ⟨hkey, rfl⟩

theorem inv_step (h : Inv calls st) (hstep : calls.Step st st') : Inv calls st' := by
  have hkeeps := keeps_step h hstep
  cases hstep with
  | loadMarker => exact h
  | loadNull i idx retry hpc hnull =>
    have hat := h.at_pc i
    rw [hpc] at hat
    exact h.of_read hat (by rw [hpc]; rfl) rfl
  | loadData i idx retry ptr hpc hkey =>
    have hat := h.at_pc i
    rw [hpc] at hat
    exact h.of_read ⟨hat, hkey⟩ (by rw [hpc]; rfl) rfl
  | exchangeFails i idx retry hpc =>
    have hat := h.at_pc i
    rw [hpc] at hat
    exact h.of_read hat (by rw [hpc]; rfl) rfl
  | exchange i idx retry hpc hnull =>
    have hat := h.at_pc i
    rw [hpc] at hat
    refine h.of_update rfl hkeeps ⟨⟨retry, OnPath.mono hat hkeeps⟩, Function.update_self _ _ _⟩
      (fun idx' hne _ => ⟨Function.update_of_ne ?_ _ _, rfl⟩) (fun idx' hown => ?_)
      (fun idx' hown => ?_) fun idx' hnull' => ?_
    · rintro rfl
      exact hne hnull
    · obtain rfl := Option.some.inj hown
      exact .inr hnull
    · rw [hpc] at hown
      cases hown
    · by_cases hidx : idx' = idx
      · exact .inr (congrArg some hidx.symm)
      · exact .inl ((Function.update_of_ne hidx _ _).trans hnull')
  | construct i idx hpc =>
    have hat := h.at_pc i
    rw [hpc] at hat
    refine h.of_update rfl hkeeps ⟨hat.1.imp fun n hpath => hpath.mono hkeeps, hat.2⟩
      (fun idx' _ _ => ⟨rfl, rfl⟩) (fun idx' hown => ?_) (fun idx' hown => ?_)
      fun idx' hnull => .inl hnull
    · rw [hpc]
      exact .inl hown
    · rw [hpc] at hown
      exact hown
  | setSize i idx hpc =>
    have hat := h.at_pc i
    rw [hpc] at hat
    refine h.of_update rfl hkeeps
      ⟨hat.1.imp fun n hpath => hpath.mono hkeeps, hat.2, Function.update_self _ _ _⟩
      (fun idx' _ hown => ⟨rfl, Function.update_of_ne ?_ _ _⟩) (fun idx' hown => ?_)
      (fun idx' hown => ?_) fun idx' hnull => .inl hnull
    · rintro rfl
      rw [hpc] at hown
      exact hown rfl
    · rw [hpc]
      exact .inl hown
    · rw [hpc] at hown
      exact hown
  | publish i idx hpc =>
    have hat := h.at_pc i
    rw [hpc] at hat
    refine h.of_update rfl hkeeps
      ⟨hat.1.imp fun n hpath => hpath.mono hkeeps, Function.update_self _ _ _, hat.2.2⟩
      (fun idx' _ hown => ⟨Function.update_of_ne ?_ _ _, rfl⟩) (fun idx' hown => ?_)
      (fun idx' hown => ?_) fun idx' hnull => .inl ?_
    · rintro rfl
      rw [hpc] at hown
      exact hown rfl
    · rw [hpc]
      exact .inl hown
    · rw [hpc] at hown
      exact hown
    · refine (Function.update_of_ne ?_ _ _).trans hnull
      rintro rfl
      rw [hat.2.1] at hnull
      cases hnull
  | found i idx retry ptr hpc hmatches =>
    have hat := h.at_pc i
    rw [hpc] at hat
    exact h.of_read ⟨ptr, hat.2, matches_iff.mp hmatches⟩ (by rw [hpc]; rfl) rfl
  | next i idx retry ptr hpc hother =>
    have hat := h.at_pc i
    rw [hpc] at hat
    have hnext := hat.1.next (mt matches_iff.mpr hother) ⟨ptr, hat.2, rfl⟩
    exact h.of_read hnext.at_loop (by rw [hpc]; rfl) (owned_loop _ _)

/-! ## Runs -/

theorem inv_of_reachable (h : calls.Reachable st) : Inv calls st := by
  obtain ⟨start, hstart, hsteps⟩ := h
  induction hsteps with
  | refl => exact inv_start hstart
  | tail _ hstep ih => exact inv_step ih hstep

theorem keeps_of_steps (h : Inv calls st) (hsteps : Relation.ReflTransGen calls.Step st st') :
    Inv calls st' ∧ Keeps st st' := by
  induction hsteps with
  | refl => exact ⟨h, fun idx ptr hkey => ⟨hkey, rfl⟩⟩
  | tail _ hstep ih =>
    obtain ⟨hinv, hkeeps⟩ := ih
    refine ⟨inv_step hinv hstep, fun idx ptr hkey => ?_⟩
    obtain ⟨hkey', hsize⟩ := hkeeps idx ptr hkey
    obtain ⟨hkey'', hsize'⟩ := keeps_step hinv hstep idx ptr hkey'
    exact ⟨hkey'', hsize'.trans hsize⟩

/-- Keys shorter than 4 GiB are inserted once. -/
theorem insertsOnce (hsize : ∀ i, (calls.key i).size < 2 ^ 32) : InsertsOnce calls where
  stays st st' hreach hsteps := (keeps_of_steps (inv_of_reachable hreach) hsteps).2
  oneSlot st hreach idx idx' l := eq_of_holds hsize (inv_of_reachable hreach)
  holds st hreach i idx inserted := holds_of_done hsize (inv_of_reachable hreach)
  sameSlot st hreach i j idx idx' inserted inserted' hbytes hi hj := by
    have hinv := inv_of_reachable hreach
    exact eq_of_holds hsize hinv (hbytes ▸ holds_of_done hsize hinv hi)
      (holds_of_done hsize hinv hj)
  oneInserts st hreach i idx inserted hi := by
    have hinv := inv_of_reachable hreach
    obtain ⟨j, hj, hbytes, -⟩ := exists_done_of_holds hsize hinv (holds_of_done hsize hinv hi)
    refine ⟨j, ⟨hbytes, idx, hj⟩, fun k hk => ?_⟩
    obtain ⟨hbytes', idx', hk⟩ := hk
    have hidx : idx' = idx := eq_of_holds hsize hinv
      (hbytes' ▸ holds_of_done hsize hinv hk) (holds_of_done hsize hinv hi)
    apply hinv.owner_unique k j idx
    · rw [hk, hidx]
      rfl
    · rw [hj]
      rfl

def twoCalls : Calls Bool Unit Unit where
  nbuckets := minNbuckets
  mem _ _ := 97
  hash _ := 0
  key _ := ⟨(), 1⟩
  val _ := ()

theorem insertsOnce_twoCalls : (∀ i, (twoCalls.key i).size < 2 ^ 32) ∧ InsertsOnce twoCalls :=
  ⟨by decide, insertsOnce (by decide)⟩

theorem steps_insert (st : State τ π α) (i : τ) (idx : UInt64) (retry : ℕ)
    (hpc : st.pc i = .load idx retry) (hnull : st.keys idx = .null) :
    Relation.ReflTransGen calls.Step st
      { keys := Function.update st.keys idx (.data (calls.key i).data)
        keySizes := Function.update st.keySizes idx (UInt32.ofNat (calls.key i).size)
        values := Function.update st.values idx (some (calls.val i))
        pc := Function.update st.pc i (.done idx true) } := by
  have hrun := (((((Relation.ReflTransGen.refl (r := calls.Step)).tail
    (.loadNull st i idx retry hpc hnull)).tail
    (.exchange _ i idx retry (Function.update_self _ _ _) hnull)).tail
    (.construct _ i idx (Function.update_self _ _ _))).tail
    (.setSize _ i idx (Function.update_self _ _ _))).tail
    (.publish _ i idx (Function.update_self _ _ _))
  simpa only [Function.update_idem] using hrun

def hugeCalls : Calls Bool Unit Unit where
  nbuckets := minNbuckets
  mem _ _ := 97
  hash _ := 0
  key _ := ⟨(), 2 ^ 32⟩
  val _ := ()

/-- The second call does not find the key. -/
theorem not_insertsOnce_hugeCalls : ¬ InsertsOnce hugeCalls := by
  intro h
  let start : State Bool Unit Unit :=
    { keys := fun _ => .null, keySizes := fun _ => 0, values := fun _ => none,
      pc := fun _ => .load 0 0 }
  have hfirstIdx : ∀ l, hugeCalls.firstIdx l = 0 := fun l => UInt64.zero_and
  have hstart : hugeCalls.Start start :=
    ⟨fun _ => rfl, fun i => by rw [hfirstIdx, loop, if_pos (by decide)]⟩
  have hfirst := @steps_insert _ _ _ hugeCalls _ start true 0 0 rfl rfl
  have hother : ¬ hugeCalls.Matches (hugeCalls.key false) () (UInt32.ofNat (2 ^ 32)) := by
    intro hmatches
    exact absurd hmatches.1 (by decide)
  have hnext := (hfirst.tail (.loadData _ false 0 0 () rfl rfl)).tail
    (.next _ false 0 0 () rfl hother)
  have hsecond := hnext.trans (steps_insert _ false 1 1 rfl rfl)
  have hsame := h.sameSlot _ ⟨start, hstart, hsecond⟩ true false 0 1 true true rfl rfl rfl
  exact absurd hsame (by decide)

end Mold.ConcurrentMap.Calls
