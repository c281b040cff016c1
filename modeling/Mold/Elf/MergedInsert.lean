import Mathlib.Order.Bounds.Defs
import Mold.Common.ConcurrentMapValues

/-!
# Insertion into a merged section

`MergedSection::insert` inserts a piece into the concurrent map of the section and then raises
the alignment of the fragment that it is given.  Both happen in many threads at once.

However the calls are interleaved, in the end every piece has one fragment, with the largest
of the alignments that have been asked for.  Which slot it is in may differ, but not which
shard.
-/

namespace Mold.Elf.MergedSection

open Mold.ConcurrentMap

/-- The calls of `insert` for a section.  The values of the map are the alignments of the
fragments, which begin with 0. -/
structure Inserts (τ π : Type*) where
  calls : Calls τ π UInt8
  p2align : τ → UInt8
  constructed : ∀ i, calls.val i = 0
  /-- The number of slots is a power of two and at least `MIN_NBUCKETS`. -/
  nbuckets : ∃ k, 11 ≤ k ∧ k < 64 ∧ calls.nbuckets.toNat = 2 ^ k

/-- Where a call is: in the `insert` of the map, before it loads the alignment, before it
exchanges it for a larger one, or at its end. -/
inductive Phase where
  | insert
  | load (idx : UInt64)
  | exchange (idx : UInt64) (old : UInt8)
  | done (idx : UInt64)
  deriving DecidableEq

structure State (τ π : Type*) where
  map : ConcurrentMap.State τ π UInt8
  phase : τ → Phase

namespace Inserts

variable {τ π : Type*} (ins : Inserts τ π)

/-- The condition of the loop of `update_maximum`. -/
def next (i : τ) (idx : UInt64) (old : UInt8) : Phase :=
  if old < ins.p2align i then .exchange idx old else .done idx

/-- Before any call has begun: no slot is used, and no value has been constructed. -/
structure Start (st : State τ π) : Prop where
  map : ins.calls.Start st.map
  values : ∀ idx, st.map.values idx = none
  phase : ∀ i, st.phase i = .insert

variable [DecidableEq τ]

inductive Step : State τ π → State τ π → Prop
  | insert (st : State τ π) (map : ConcurrentMap.State τ π UInt8)
      (hmap : ins.calls.Step st.map map) : Step st { st with map := map }
  | returned (st : State τ π) (i : τ) (idx : UInt64) (inserted : Bool)
      (hphase : st.phase i = .insert) (hpc : st.map.pc i = .done idx inserted) :
      Step st { st with phase := Function.update st.phase i (.load idx) }
  | load (st : State τ π) (i : τ) (idx : UInt64) (old : UInt8)
      (hphase : st.phase i = .load idx) (hvalue : st.map.values idx = some old) :
      Step st { st with phase := Function.update st.phase i (ins.next i idx old) }
  | exchangeFails (st : State τ π) (i : τ) (idx : UInt64) (old current : UInt8)
      (hphase : st.phase i = .exchange idx old) (hvalue : st.map.values idx = some current) :
      Step st { st with phase := Function.update st.phase i (ins.next i idx current) }
  | exchange (st : State τ π) (i : τ) (idx : UInt64) (old : UInt8)
      (hphase : st.phase i = .exchange idx old) (hvalue : st.map.values idx = some old) :
      Step st
        { map :=
            { st.map with
              values := Function.update st.map.values idx (some (ins.p2align i)) }
          phase := Function.update st.phase i (.done idx) }

/-- The state after a run in which all calls have come to their end. -/
def Complete (st : State τ π) : Prop :=
  (∃ start, ins.Start start ∧ Relation.ReflTransGen ins.Step start st) ∧
    ∀ i, ∃ idx, st.phase i = .done idx

/-! ## The invariant -/

def At (map : ConcurrentMap.State τ π UInt8) (i : τ) : Phase → Prop
  | .insert => True
  | .load idx => ∃ inserted, map.pc i = .done idx inserted
  | .exchange idx old => (∃ inserted, map.pc i = .done idx inserted) ∧ old < ins.p2align i
  | .done idx =>
    (∃ inserted, map.pc i = .done idx inserted) ∧ ∃ v, map.values idx = some v ∧ ins.p2align i ≤ v

/-- The invariant of the runs: the alignment in a slot is one that has been asked for, and
not below that of a call that is done. -/
structure Inv (st : State τ π) : Prop where
  map : ins.calls.Inv st.map
  constructed : Calls.Constructed st.map
  at_phase : ∀ i, ins.At st.map i (st.phase i)
  values : ∀ idx v, st.map.values idx = some v →
    v = 0 ∨ ∃ i inserted, st.map.pc i = .done idx inserted ∧ ins.p2align i = v

variable {ins} {st st' : State τ π} {map map' : ConcurrentMap.State τ π UInt8} {i : τ}
  {idx : UInt64}

omit [DecidableEq τ] in
theorem inv_start (h : ins.Start st) : ins.Inv st where
  map := Calls.inv_start h.map
  constructed idx hused := absurd (h.map.keys idx) hused
  at_phase i := by
    rw [h.phase i]
    trivial
  values idx v hvalue := by
    rw [h.values idx] at hvalue
    cases hvalue

omit [DecidableEq τ] in
theorem at_next {old : UInt8} (hpc : ∃ inserted, map.pc i = .done idx inserted)
    (hvalue : map.values idx = some old) : ins.At map i (ins.next i idx old) := by
  rw [next]
  split
  case isTrue hlt => exact ⟨hpc, hlt⟩
  case isFalse hle => exact ⟨hpc, old, hvalue, UInt8.not_lt.mp hle⟩

omit [DecidableEq τ] in
theorem At.mono {phase : Phase} (h : ins.At map i phase)
    (hpc : ∀ idx inserted, map.pc i = .done idx inserted → map'.pc i = .done idx inserted)
    (hvalues : ∀ idx inserted v, map.pc i = .done idx inserted → map.values idx = some v →
      ∃ v', map'.values idx = some v' ∧ v ≤ v') : ins.At map' i phase := by
  cases phase with
  | insert => trivial
  | load idx =>
    obtain ⟨inserted, hdone⟩ := h
    exact ⟨inserted, hpc idx inserted hdone⟩
  | exchange idx old =>
    obtain ⟨⟨inserted, hdone⟩, hlt⟩ := h
    exact ⟨⟨inserted, hpc idx inserted hdone⟩, hlt⟩
  | done idx =>
    obtain ⟨⟨inserted, hdone⟩, v, hvalue, hle⟩ := h
    obtain ⟨v', hvalue', hle'⟩ := hvalues idx inserted v hdone hvalue
    exact ⟨⟨inserted, hpc idx inserted hdone⟩, v', hvalue', UInt8.le_trans hle hle'⟩

theorem Inv.of_phase (h : ins.Inv st) {phase : Phase} (hat : ins.At st.map i phase) :
    ins.Inv { st with phase := Function.update st.phase i phase } where
  map := h.map
  constructed := h.constructed
  at_phase j := by
    dsimp only
    by_cases hji : j = i
    · subst hji
      rwa [Function.update_self]
    · rw [Function.update_of_ne hji]
      exact h.at_phase j
  values := h.values

theorem Inv.of_map (h : ins.Inv st) (hmap : ins.calls.Step st.map map) :
    ins.Inv { st with map := map } where
  map := Calls.inv_step h.map hmap
  constructed := h.constructed.step h.map hmap
  at_phase j := by
    apply (h.at_phase j).mono
    · exact fun idx inserted => hmap.done_stays
    · intro idx inserted v hdone hvalue
      obtain ⟨ptr, hkey⟩ := Calls.exists_data_of_done h.map hdone
      exact ⟨v, (hmap.values_of_data h.map hkey).trans hvalue, UInt8.le_refl v⟩
  values idx v hvalue := by
    dsimp only at hvalue ⊢
    have hold : st.map.values idx = some v →
        v = 0 ∨ ∃ i inserted, map.pc i = .done idx inserted ∧ ins.p2align i = v := by
      intro hvalue
      rcases h.values idx v hvalue with hzero | ⟨i, inserted, hdone, heq⟩
      · exact Or.inl hzero
      · exact Or.inr ⟨i, inserted, hmap.done_stays hdone, heq⟩
    rcases hmap.values_cases with heq | ⟨i, idx', -, heq⟩
    · rw [heq] at hvalue
      exact hold hvalue
    · rw [heq] at hvalue
      by_cases hidx : idx = idx'
      · subst hidx
        rw [Function.update_self, ins.constructed i] at hvalue
        exact Or.inl (Option.some.inj hvalue).symm
      · rw [Function.update_of_ne hidx] at hvalue
        exact hold hvalue

theorem Inv.of_exchange (h : ins.Inv st) {old : UInt8} (hphase : st.phase i = .exchange idx old)
    (hvalue : st.map.values idx = some old) :
    ins.Inv
      { map :=
          { st.map with
            values := Function.update st.map.values idx (some (ins.p2align i)) }
        phase := Function.update st.phase i (.done idx) } := by
  have hat := h.at_phase i
  rw [hphase] at hat
  obtain ⟨⟨inserted, hdone⟩, hlt⟩ := hat
  refine ⟨h.map.of_values _, fun idx' hused => ?_, fun j => ?_, fun idx' v hvalue' => ?_⟩
  · refine (h.constructed idx' hused).imp_right fun hsome => ?_
    by_cases hidx : idx' = idx
    · subst hidx
      exact ⟨_, Function.update_self _ _ _⟩
    · dsimp only
      rwa [Function.update_of_ne hidx]
  · dsimp only
    by_cases hji : j = i
    · subst hji
      rw [Function.update_self]
      exact ⟨⟨inserted, hdone⟩, _, Function.update_self _ _ _, UInt8.le_refl _⟩
    · rw [Function.update_of_ne hji]
      apply (h.at_phase j).mono
      · exact fun _ _ hdone => hdone
      · intro idx' _ v _ hvalue'
        by_cases hidx : idx' = idx
        · subst hidx
          obtain rfl := Option.some.inj (hvalue.symm.trans hvalue')
          exact ⟨_, Function.update_self _ _ _, UInt8.le_of_lt hlt⟩
        · exact ⟨v, (Function.update_of_ne hidx _ _).trans hvalue', UInt8.le_refl v⟩
  · dsimp only at hvalue' ⊢
    by_cases hidx : idx' = idx
    · subst hidx
      rw [Function.update_self] at hvalue'
      exact Or.inr ⟨i, inserted, hdone, Option.some.inj hvalue'⟩
    · rw [Function.update_of_ne hidx] at hvalue'
      exact h.values idx' v hvalue'

theorem inv_step (h : ins.Inv st) (hstep : ins.Step st st') : ins.Inv st' := by
  cases hstep with
  | insert map hmap => exact h.of_map hmap
  | returned i idx inserted hphase hpc =>
    apply h.of_phase
    exact ⟨inserted, hpc⟩
  | load i idx old hphase hvalue =>
    have hat := h.at_phase i
    rw [hphase] at hat
    exact h.of_phase (at_next hat hvalue)
  | exchangeFails i idx old current hphase hvalue =>
    have hat := h.at_phase i
    rw [hphase] at hat
    exact h.of_phase (at_next hat.1 hvalue)
  | exchange i idx old hphase hvalue => exact h.of_exchange hphase hvalue

theorem inv_of_complete (h : ins.Complete st) : ins.Inv st := by
  obtain ⟨⟨start, hstart, hsteps⟩, -⟩ := h
  induction hsteps with
  | refl => exact inv_start hstart
  | tail _ hstep ih => exact inv_step ih hstep

def fragmentAt (ins : Inserts τ π) (st : State τ π) (idx : UInt64) : Option (List UInt8 × UInt8) :=
  match st.map.keys idx with
  | .data ptr => (st.map.values idx).map fun v =>
    (ins.calls.bytesAt ptr (st.map.keySizes idx).toNat, v)
  | _ => none

def requested (ins : Inserts τ π) (piece : List UInt8) : Set UInt8 :=
  {v | ∃ i, ins.calls.bytes i = piece ∧ ins.p2align i = v}

section Complete

variable (hshort : ∀ i, (ins.calls.key i).size < 2 ^ 32) {piece : List UInt8} {v : UInt8}

omit [DecidableEq τ] in
theorem fragmentAt_eq_some_iff :
    ins.fragmentAt st idx = some (piece, v) ↔
      ins.calls.Holds st.map idx piece ∧ st.map.values idx = some v := by
  rw [fragmentAt, Calls.Holds]
  cases st.map.keys idx with
  | null => simp
  | marker => simp
  | data ptr =>
    rw [Option.map_eq_some_iff]
    constructor
    · rintro ⟨v', hvalue, heq⟩
      obtain ⟨hpiece, rfl⟩ := Prod.mk.inj heq
      exact ⟨⟨ptr, rfl, hpiece⟩, hvalue⟩
    · rintro ⟨⟨ptr', hptr, hpiece⟩, hvalue⟩
      obtain rfl := Ptr.data.inj hptr
      exact ⟨v, hvalue, by rw [hpiece]⟩

include hshort

theorem exists_fragment (h : ins.Complete st) (i : τ) :
    ∃ idx v, ins.fragmentAt st idx = some (ins.calls.bytes i, v) := by
  have hinv := inv_of_complete h
  obtain ⟨idx, hphase⟩ := h.2 i
  have hat := hinv.at_phase i
  rw [hphase] at hat
  obtain ⟨⟨inserted, hdone⟩, v, hvalue, -⟩ := hat
  exact ⟨idx, v, fragmentAt_eq_some_iff.mpr
    ⟨Calls.holds_of_done hshort hinv.map hdone, hvalue⟩⟩

theorem isGreatest_of_fragment (h : ins.Complete st)
    (hfrag : ins.fragmentAt st idx = some (piece, v)) : IsGreatest (ins.requested piece) v := by
  have hinv := inv_of_complete h
  obtain ⟨hholds, hvalue⟩ := fragmentAt_eq_some_iff.mp hfrag
  have hupper : v ∈ upperBounds (ins.requested piece) := by
    rintro _ ⟨i, rfl, rfl⟩
    obtain ⟨idx', hphase⟩ := h.2 i
    have hat := hinv.at_phase i
    rw [hphase] at hat
    obtain ⟨⟨inserted, hdone⟩, v', hvalue', hle⟩ := hat
    obtain rfl := Calls.eq_of_holds hshort hinv.map hholds
      (Calls.holds_of_done hshort hinv.map hdone)
    obtain rfl := Option.some.inj (hvalue.symm.trans hvalue')
    exact hle
  refine ⟨?_, hupper⟩
  rcases hinv.values idx v hvalue with rfl | ⟨i, inserted, hdone, rfl⟩
  · -- A fragment with alignment 0 is still that of some call.
    obtain ⟨i, -, hbytes, -⟩ := Calls.exists_done_of_holds hshort hinv.map hholds
    have hle := hupper ⟨i, hbytes, rfl⟩
    exact ⟨i, hbytes, UInt8.le_antisymm hle (UInt8.zero_le)⟩
  · have hholds' := Calls.holds_of_done hshort hinv.map hdone
    obtain ⟨ptr, hkey, hbytes⟩ := hholds
    obtain ⟨ptr', hkey', hbytes'⟩ := hholds'
    obtain rfl := Ptr.data.inj (hkey.symm.trans hkey')
    exact ⟨i, hbytes'.symm.trans hbytes, rfl⟩

theorem slot_unique (h : ins.Complete st) {idx' : UInt64} {v' : UInt8}
    (hfrag : ins.fragmentAt st idx = some (piece, v))
    (hfrag' : ins.fragmentAt st idx' = some (piece, v')) : idx = idx' :=
  Calls.eq_of_holds hshort (inv_of_complete h).map (fragmentAt_eq_some_iff.mp hfrag).1
    (fragmentAt_eq_some_iff.mp hfrag').1

end Complete

def start (ins : Inserts τ π) : State τ π where
  map :=
    { keys := fun _ => .null
      keySizes := fun _ => 0
      values := fun _ => none
      pc := fun i => Calls.loop (ins.calls.firstIdx (ins.calls.bytes i)) 0 }
  phase _ := .insert

omit [DecidableEq τ] in
theorem start_start (ins : Inserts τ π) : ins.Start ins.start :=
  ⟨⟨fun _ => rfl, fun _ => rfl⟩, fun _ => rfl, fun _ => rfl⟩

structure Waits (ins : Inserts τ π) (st : State τ π) (i : τ) : Prop where
  phase : st.phase i = .insert
  pc : st.map.pc i = .load (ins.calls.firstIdx (ins.calls.bytes i)) 0
  null : st.map.keys (ins.calls.firstIdx (ins.calls.bytes i)) = .null

theorem steps_of_map (phase : τ → Phase) (h : Relation.ReflTransGen ins.calls.Step map map') :
    Relation.ReflTransGen ins.Step ⟨map, phase⟩ ⟨map', phase⟩ := by
  induction h with
  | refl => exact .refl
  | tail _ hstep ih => exact ih.tail (.insert _ _ hstep)

theorem steps_call (h : ins.Waits st i) :
    ∃ st', Relation.ReflTransGen ins.Step st st' ∧ (∃ idx, st'.phase i = .done idx) ∧
      (∀ j ≠ i, st'.phase j = st.phase j ∧ st'.map.pc j = st.map.pc j) ∧
      ∀ idx ≠ ins.calls.firstIdx (ins.calls.bytes i), st'.map.keys idx = st.map.keys idx := by
  have hmap := steps_of_map st.phase
    (@Calls.steps_insert _ _ _ ins.calls _ st.map i _ 0 h.pc h.null)
  have hload := (hmap.tail (.returned _ i _ true h.phase (Function.update_self _ _ _))).tail
    (.load _ i _ (ins.calls.val i) (Function.update_self _ _ _) (Function.update_self _ _ _))
  by_cases hlt : ins.calls.val i < ins.p2align i
  · rw [next, if_pos hlt] at hload
    have hdone := hload.tail
      (.exchange _ i _ _ (Function.update_self _ _ _) (Function.update_self _ _ _))
    refine ⟨_, hdone, ⟨_, Function.update_self _ _ _⟩, fun j hj => ?_, fun idx hidx => ?_⟩
    · simp only [Function.update_of_ne hj, and_self]
    · exact Function.update_of_ne hidx _ _
  · rw [next, if_neg hlt] at hload
    refine ⟨_, hload, ⟨_, Function.update_self _ _ _⟩, fun j hj => ?_, fun idx hidx => ?_⟩
    · simp only [Function.update_of_ne hj, and_self]
    · exact Function.update_of_ne hidx _ _

theorem exists_complete {l : List τ} (hnodup : l.Nodup) (hall : ∀ i, i ∈ l)
    (hapart : Function.Injective fun i => ins.calls.firstIdx (ins.calls.bytes i)) :
    ∃ st, ins.Complete st := by
  have hrun : ∃ st, Relation.ReflTransGen ins.Step ins.start st ∧
      (∀ i ∈ l, ∃ idx, st.phase i = .done idx) ∧ ∀ i ∉ l, ins.Waits st i := by
    clear hall
    induction l with
    | nil => exact ⟨ins.start, .refl, fun i hi => absurd hi List.not_mem_nil,
        fun i _ => ⟨rfl, rfl, rfl⟩⟩
    | cons i l ih =>
      obtain ⟨hi, hnodup⟩ := List.nodup_cons.mp hnodup
      obtain ⟨st, hsteps, hdone, hwaits⟩ := ih hnodup
      obtain ⟨st', hsteps', hdone', hothers, hkeys⟩ := steps_call (hwaits i hi)
      refine ⟨st', hsteps.trans hsteps', fun j hj => ?_, fun j hj => ?_⟩
      · rcases List.mem_cons.mp hj with rfl | hj
        · exact hdone'
        · rw [(hothers j fun heq => hi (heq ▸ hj)).1]
          exact hdone j hj
      · obtain ⟨hji, hjl⟩ := not_or.mp (List.mem_cons.not.mp hj)
        have hold := hwaits j hjl
        exact ⟨(hothers j hji).1.trans hold.phase, (hothers j hji).2.trans hold.pc,
          (hkeys _ fun heq => hji (hapart heq)).trans hold.null⟩
  obtain ⟨st, hsteps, hdone, -⟩ := hrun
  exact ⟨st, ⟨ins.start, ins.start_start, hsteps⟩, fun i => hdone i (hall i)⟩

end Inserts

end Mold.Elf.MergedSection
