import Mathlib.Logic.Equiv.List
import Mold.Lib.Bisimulation
import Mold.Lib.Loop

/-!
# Propagation of digests

Identical code folding gives each section a digest of itself, and then again and again a
digest of itself and of the digests of the sections it refers to.  A section whose digest no
longer changes is not visited again.  The rounds end when ten of them leave the number of
different digests as it is.

If digests do not collide, the sections with equal digests are then those that cannot be told
apart by following references, however far.
-/

namespace Mold.Elf.Icf

open Mold.Lib Mold.Lib.Bisimulation

variable {D : Type*} {n : ℕ}

/-- The sections and their references.  `initial` is `digests[2]`. -/
structure Graph (D : Type*) (n : ℕ) where
  initial : Vector D n
  edges : List (Fin n)
  edgeIndices : Vector ℕ n

/-- The edges of a vertex, as `propagate` takes them from the array of all edges. -/
def Graph.outEdges (graph : Graph D n) (i : Fin n) : List (Fin n) :=
  let first := graph.edgeIndices.get i
  let last := if h : i + 1 < n then graph.edgeIndices.get ⟨i + 1, h⟩ else graph.edges.length
  (graph.edges.drop first).take (last - first)

/-- What the rounds change: two arrays of digests that switch roles. -/
structure State (D : Type*) (n : ℕ) where
  digests : Bool → Vector D n
  slot : Bool
  converged : Vector Bool n
  round : ℕ

def State.current (s : State D n) (i : Fin n) : D := (s.digests s.slot).get i

section Rounds

variable [DecidableEq D] (hash : List D → D) (lost : ℕ → Fin n → Bool) (graph : Graph D n)

def nextDigest (s : State D n) (i : Fin n) : D :=
  if s.converged.get i then (s.digests (!s.slot)).get i
  else hash (graph.initial.get i :: (graph.outEdges i).map s.current)

/-- The vertex is counted in `changed`. -/
def isChanged (s : State D n) (i : Fin n) : Bool :=
  !s.converged.get i && decide (s.current i ≠ nextDigest hash graph s i)

/-- `propagate`.  Marks share bytes and are not set atomically: those that `lost` tells are
overwritten by others of the same round. -/
def propagate (s : State D n) : State D n × ℕ :=
  ({ digests := Function.update s.digests (!s.slot) (Vector.ofFn (nextDigest hash graph s))
     slot := !s.slot
     converged := Vector.ofFn fun i =>
       s.converged.get i || decide (s.current i = nextDigest hash graph s i) && !lost s.round i
     round := s.round + 1 },
    (List.finRange n).countP (isChanged hash graph s))

def settle (s : State D n × ℤ) : (State D n × ℤ) × Bool :=
  let t := propagate hash lost graph s.1
  ((t.1, t.2), decide ((t.2 : ℤ) ≠ s.2))

end Rounds

section Loops

variable [LinearOrder D] (hash : List D → D) (lost : ℕ → Fin n → Bool) (graph : Graph D n)

def countNumClasses (digests : Vector D n) : ℕ :=
  numChanges (digests.toList.mergeSort fun a b => decide (a ≤ b))

def refine (s : State D n × ℤ) : (State D n × ℤ) × Bool :=
  let t := (fun t => (propagate hash lost graph t).1)^[10] s.1
  let num := countNumClasses (t.digests t.slot)
  ((t, num), decide ((num : ℤ) ≠ s.2))

/-- The state in which `icf_sections` enters the loops. -/
def start [Inhabited D] : State D n where
  digests := fun slot => if slot then Vector.replicate n default else graph.initial
  slot := false
  converged := Vector.replicate n false
  round := 0

/-- The loops of `icf_sections`. -/
def icfLoops [Inhabited D] (fuel : ℕ) : Option (State D n) :=
  (repeatWhile (fun _ s => some (settle hash lost graph s)) fuel 0 (start graph, -1)).bind
    fun s => (repeatWhile (fun _ s => some (refine hash lost graph s)) fuel 0 (s.1, -1)).map
      Prod.fst

end Loops

/-- Different texts have different digests: sequences of digests, and what describes one of
the sections. -/
structure CollisionFree (hash : List D → D) (graph : Graph D n) : Prop where
  injective : Function.Injective hash
  initial_ne : ∀ i ds, graph.initial.get i ≠ hash ds

/-! ## One round -/

/-- The digest of a vertex after a number of rounds, if none is left out. -/
def digestAt (hash : List D → D) (graph : Graph D n) : ℕ → Fin n → D :=
  unfold hash graph.initial.get graph.outEdges

/-- After `k` rounds, the digests are those of `k` rounds without any vertex left out, and a
vertex that is left out has its last digest in both arrays. -/
structure Reflects (hash : List D → D) (graph : Graph D n) (k : ℕ) (s : State D n) : Prop where
  current : ∀ i, s.current i = digestAt hash graph k i
  other : ∀ i, s.converged.get i = true → (s.digests (!s.slot)).get i = digestAt hash graph k i
  stays : ∀ i, s.converged.get i = true → ∀ j, k ≤ j →
    digestAt hash graph j i = digestAt hash graph k i

theorem get_ofFn {α : Type*} (f : Fin n → α) (i : Fin n) : (Vector.ofFn f).get i = f i :=
  Vector.getElem_ofFn i.isLt

section Round

variable [DecidableEq D] {hash : List D → D} {lost : ℕ → Fin n → Bool} {graph : Graph D n}
  {k : ℕ} {s : State D n}

omit [DecidableEq D] in
theorem Reflects.nextDigest (h : Reflects hash graph k s) (i : Fin n) :
    nextDigest hash graph s i = digestAt hash graph (k + 1) i := by
  rw [Icf.nextDigest]
  split
  case isTrue hconverged => rw [h.other i hconverged, h.stays i hconverged _ (Nat.le_succ k)]
  case isFalse =>
    rw [digestAt, unfold]
    congr 2
    exact List.map_congr_left fun j _ => h.current j

theorem Reflects.isChanged (h : Reflects hash graph k s) (i : Fin n) :
    isChanged hash graph s i =
      decide (digestAt hash graph k i ≠ digestAt hash graph (k + 1) i) := by
  rw [Icf.isChanged, h.nextDigest, h.current]
  by_cases hconverged : s.converged.get i = true
  · have hstay := h.stays i hconverged (k + 1) (Nat.le_succ k)
    rw [hconverged, Bool.not_true, Bool.false_and, hstay, decide_eq_false (not_not.mpr rfl)]
  · rw [Bool.eq_false_iff.mpr hconverged, Bool.not_false, Bool.true_and]

theorem Reflects.propagate (hfree : CollisionFree hash graph) (h : Reflects hash graph k s) :
    Reflects hash graph (k + 1) (propagate hash lost graph s).1 := by
  have hother : (Icf.propagate hash lost graph s).1.digests
      (!(Icf.propagate hash lost graph s).1.slot) = s.digests s.slot := by
    rw [Icf.propagate, Bool.not_not]
    exact Function.update_of_ne (Bool.self_ne_not s.slot) _ _
  have hstays : ∀ i, (Icf.propagate hash lost graph s).1.converged.get i = true →
      ∀ j, k ≤ j → digestAt hash graph j i = digestAt hash graph k i := by
    intro i hconverged
    rw [Icf.propagate, get_ofFn, Bool.or_eq_true, Bool.and_eq_true, decide_eq_true_eq, h.current,
      h.nextDigest] at hconverged
    rcases hconverged with hconverged | ⟨heq, -⟩
    · exact h.stays i hconverged
    · intro j hj
      exact unfold_eq_of_le hfree.injective hfree.initial_ne heq.symm hj
  refine ⟨fun i => ?_, fun i hi => ?_, fun i hi j hj => ?_⟩
  · rw [State.current, Icf.propagate]
    dsimp only
    rw [Function.update_self, get_ofFn, h.nextDigest]
  · rw [hother, hstays i hi (k + 1) (Nat.le_succ k)]
    exact h.current i
  · rw [hstays i hi (k + 1) (Nat.le_succ k), hstays i hi j (Nat.le_of_succ_le hj)]

theorem Reflects.iterate (hfree : CollisionFree hash graph) (h : Reflects hash graph k s)
    (m : ℕ) : Reflects hash graph (k + m) ((fun t => (Icf.propagate hash lost graph t).1)^[m] s) := by
  induction m with
  | zero => exact h
  | succ m ih =>
    rw [Function.iterate_succ_apply']
    exact ih.propagate hfree

end Round

section First

variable [DecidableEq D] {hash : List D → D} {lost : ℕ → Fin n → Bool} {graph : Graph D n}
  {s t : State D n × ℤ} {again : Bool}
variable (hash graph) in
def numChanged (k : ℕ) : ℕ :=
  (List.finRange n).countP fun i =>
    decide (digestAt hash graph k i ≠ digestAt hash graph (k + 1) i)

theorem numChanged_le (k : ℕ) : numChanged hash graph k ≤ n := by
  rw [numChanged]
  exact List.countP_le_length.trans List.length_finRange.le

theorem numChanged_succ_le (hfree : CollisionFree hash graph) (k : ℕ) :
    numChanged hash graph (k + 1) ≤ numChanged hash graph k := by
  apply List.countP_mono_left
  intro i _ hchanged
  rw [decide_eq_true_eq] at hchanged ⊢
  intro heq
  have hstay := fun j => @unfold_eq_of_le _ _ _ _ _ hfree.injective hfree.initial_ne j k i heq.symm
  exact hchanged ((hstay (k + 1) (Nat.le_succ k)).trans (hstay (k + 2) (by omega)).symm)

variable (hash graph) in
/-- What the first loop preserves: no more vertices change than in the round before. -/
def FirstInv (s : State D n × ℤ) : Prop :=
  ∃ k, Reflects hash graph k s.1 ∧ (s.2 = -1 ∨ (numChanged hash graph k : ℤ) ≤ s.2)

theorem settle_eq {k : ℕ} (h : Reflects hash graph k s.1) :
    settle hash lost graph s =
      (((propagate hash lost graph s.1).1, (numChanged hash graph k : ℤ)),
        decide ((numChanged hash graph k : ℤ) ≠ s.2)) := by
  have hcount : (propagate hash lost graph s.1).2 = numChanged hash graph k := by
    rw [propagate, numChanged, ← funext h.isChanged]
  rw [settle, hcount]

theorem FirstInv.settle (hfree : CollisionFree hash graph) (hs : FirstInv hash graph s)
    (h : settle hash lost graph s = (t, again)) : FirstInv hash graph t := by
  obtain ⟨k, hk, -⟩ := hs
  rw [settle_eq hk] at h
  obtain ⟨rfl, -⟩ := Prod.mk.inj h
  exact ⟨k + 1, hk.propagate hfree, Or.inr (Int.ofNat_le.mpr (numChanged_succ_le hfree k))⟩

def firstMeasure (s : State D n × ℤ) : ℕ := if s.2 = -1 then n + 1 else s.2.toNat

theorem firstMeasure_lt (hs : FirstInv hash graph s)
    (h : settle hash lost graph s = (t, true)) : firstMeasure t < firstMeasure s := by
  obtain ⟨k, hk, hlast⟩ := hs
  rw [settle_eq hk] at h
  obtain ⟨rfl, hne⟩ := Prod.mk.inj h
  have hne := of_decide_eq_true hne
  have hle := @numChanged_le _ _ _ hash graph k
  have hnonneg : ((numChanged hash graph k : ℕ) : ℤ) ≠ -1 := by omega
  rw [firstMeasure, firstMeasure, if_neg hnonneg, Int.toNat_natCast]
  split
  case isTrue => omega
  case isFalse hlast' =>
    have hle' := hlast.resolve_left hlast'
    omega

end First

section Second

variable [LinearOrder D] {hash : List D → D} {lost : ℕ → Fin n → Bool} {graph : Graph D n}
  {s t : State D n × ℤ} {again : Bool}

theorem toFinset_toList (digests : Vector D n) :
    digests.toList.toFinset = Finset.univ.image digests.get := by
  ext d
  rw [List.mem_toFinset, Vector.mem_toList_iff, Vector.mem_iff_getElem, Finset.mem_image]
  constructor
  · rintro ⟨i, hi, rfl⟩
    exact ⟨⟨i, hi⟩, Finset.mem_univ _, rfl⟩
  · rintro ⟨i, -, rfl⟩
    exact ⟨i, i.isLt, rfl⟩

theorem countNumClasses_eq (digests : Vector D n) :
    countNumClasses digests = numValues digests.get - 1 := by
  have hperm := digests.toList.mergeSort_perm fun a b => decide (a ≤ b)
  have hsorted := digests.toList.pairwise_mergeSort' (· ≤ ·)
  have hset := List.toFinset_eq_of_perm _ _ hperm
  rw [toFinset_toList] at hset
  rw [countNumClasses, numValues, ← hset]
  cases hlist : digests.toList.mergeSort fun a b => decide (a ≤ b) with
  | nil => rfl
  | cons d ds =>
    rw [hlist] at hsorted
    rw [card_toFinset_of_sorted hsorted, Nat.add_sub_cancel]

theorem countNumClasses_of_reflects {k : ℕ} {s : State D n} (h : Reflects hash graph k s) :
    countNumClasses (s.digests s.slot) = numValues (digestAt hash graph k) - 1 := by
  have hget : (s.digests s.slot).get = digestAt hash graph k := funext h.current
  rw [countNumClasses_eq, hget]

theorem numValues_mono (hfree : CollisionFree hash graph) {j k : ℕ} (hle : k ≤ j) :
    numValues (digestAt hash graph k) ≤ numValues (digestAt hash graph j) := by
  apply numValues_le
  intro u v h
  rw [digestAt, unfold_eq_iff hfree.injective] at h ⊢
  exact h.mono hle

variable (hash graph) in
def SecondInv (s : State D n × ℤ) : Prop :=
  ∃ k, Reflects hash graph k s.1 ∧ (s.2 = -1 ∨ s.2 = (numValues (digestAt hash graph k) - 1 : ℕ))

theorem SecondInv.refine (hfree : CollisionFree hash graph) (hs : SecondInv hash graph s)
    (h : refine hash lost graph s = (t, again)) : SecondInv hash graph t := by
  obtain ⟨k, hk, -⟩ := hs
  have hround := @Reflects.iterate _ _ _ _ lost _ _ _ hfree hk 10
  rw [Icf.refine] at h
  obtain ⟨rfl, -⟩ := Prod.mk.inj h
  exact ⟨k + 10, hround, Or.inr (congrArg Nat.cast (countNumClasses_of_reflects hround))⟩

def secondMeasure (s : State D n × ℤ) : ℕ := (n - s.2).toNat

theorem secondMeasure_lt (hfree : CollisionFree hash graph) (hs : SecondInv hash graph s)
    (h : refine hash lost graph s = (t, true)) : secondMeasure t < secondMeasure s := by
  obtain ⟨k, hk, hlast⟩ := hs
  have hround := @Reflects.iterate _ _ _ _ lost _ _ _ hfree hk 10
  have hcount := countNumClasses_of_reflects hround
  have hmono := @numValues_mono _ _ _ _ _ hfree _ _ (Nat.le_add_right k 10)
  have hcard := numValues_le_card (digestAt hash graph (k + 10))
  rw [Fintype.card_fin] at hcard
  rw [Icf.refine] at h
  obtain ⟨rfl, hne⟩ := Prod.mk.inj h
  have hne := of_decide_eq_true hne
  rw [hcount] at hne
  rw [secondMeasure, secondMeasure, hcount]
  omega

theorem bisimilar_of_refine (hfree : CollisionFree hash graph) (hs : SecondInv hash graph s)
    (h : refine hash lost graph s = (t, false)) (u v : Fin n) :
    t.1.current u = t.1.current v ↔ Bisimilar graph.initial.get graph.outEdges u v := by
  obtain ⟨k, hk, hlast⟩ := hs
  have hround := @Reflects.iterate _ _ _ _ lost _ _ _ hfree hk 10
  have hcount := countNumClasses_of_reflects hround
  have hpos (k : ℕ) : 0 < numValues (digestAt hash graph k) :=
    Finset.card_pos.mpr ⟨_, Finset.mem_image_of_mem _ (Finset.mem_univ u)⟩
  rw [Icf.refine] at h
  obtain ⟨rfl, heq⟩ := Prod.mk.inj h
  have heq := not_not.mp (of_decide_eq_false heq)
  rw [hcount] at heq
  have hcard : numValues (digestAt hash graph k) = numValues (digestAt hash graph (k + 10)) := by
    have hpos₀ := hpos k
    have hpos₁ := hpos (k + 10)
    omega
  rw [hround.current, hround.current]
  exact unfold_eq_iff_bisimilar hfree.injective (Nat.lt_add_of_pos_right (by decide)) hcard

end Second

section Both

variable [LinearOrder D] [Inhabited D] {hash : List D → D} {graph : Graph D n}

omit [LinearOrder D] in
theorem reflects_start : Reflects hash graph 0 (start graph) where
  current _ := rfl
  other i hi := absurd hi (by simp [start, Vector.get])
  stays i hi := absurd hi (by simp [start, Vector.get])

/-- For every graph and whichever marks are lost: the loops end, and two vertices have the
same digest exactly if they are bisimilar. -/
theorem icfLoops_coarsest (hfree : CollisionFree hash graph) (lost : ℕ → Fin n → Bool)
    {fuel : ℕ} (hfuel : n + 2 ≤ fuel) :
    ∃ s, icfLoops hash lost graph fuel = some s ∧
      ∀ u v, s.current u = s.current v ↔ Bisimilar graph.initial.get graph.outEdges u v := by
  have hfirst : FirstInv hash graph (start graph, -1) := ⟨0, reflects_start, Or.inl rfl⟩
  obtain ⟨s, hs⟩ := Option.isSome_iff_exists.mp
    (@repeatWhile_isSome_of_inv _ (fun _ s => some (settle hash lost graph s))
      (FirstInv hash graph) firstMeasure (fun _ _ => rfl)
      (fun _ _ _ _ hinv h => hinv.settle hfree (Option.some.inj h))
      (fun _ _ _ hinv h => firstMeasure_lt hinv (Option.some.inj h))
      fuel 0 (start graph, -1) hfirst (by rw [firstMeasure, if_pos rfl]; omega))
  obtain ⟨⟨k, hk, -⟩, -⟩ := @repeatWhile_spec _ _ (FirstInv hash graph)
    (fun _ _ _ _ hinv h => hinv.settle hfree (Option.some.inj h)) _ _ _ _ hfirst hs
  have hsecond : SecondInv hash graph (s.1, -1) := ⟨k, hk, Or.inl rfl⟩
  obtain ⟨t, ht⟩ := Option.isSome_iff_exists.mp
    (@repeatWhile_isSome_of_inv _ (fun _ s => some (refine hash lost graph s))
      (SecondInv hash graph) secondMeasure (fun _ _ => rfl)
      (fun _ _ _ _ hinv h => hinv.refine hfree (Option.some.inj h))
      (fun _ _ _ hinv h => secondMeasure_lt hfree hinv (Option.some.inj h))
      fuel 0 (s.1, -1) hsecond (by rw [secondMeasure]; omega))
  obtain ⟨-, j, r, hr, hlast⟩ := @repeatWhile_spec _ _ (SecondInv hash graph)
    (fun _ _ _ _ hinv h => hinv.refine hfree (Option.some.inj h)) _ _ _ _ hsecond ht
  refine ⟨t.1, ?_, bisimilar_of_refine hfree hr (Option.some.inj hlast)⟩
  rw [icfLoops, hs, Option.bind_some, ht, Option.map_some]

end Both

/-- A hash of numbers without collisions, whose values are odd. -/
def pairHash (ds : List ℕ) : ℕ := 2 * Encodable.encode ds + 1

/-- `A` and `C` call each other, and so do `B` and `D`. -/
def callGraph : Graph ℕ 4 where
  initial := #v[2, 2, 4, 4]
  edges := [2, 3, 0, 1].map (Fin.ofNat 4)
  edgeIndices := #v[0, 1, 2, 3]

theorem collisionFree_callGraph : CollisionFree pairHash callGraph where
  injective ds ds' h := Encodable.encode_injective (by unfold pairHash at h; omega)
  initial_ne i ds := by
    have heven : callGraph.initial.get i % 2 = 0 := by
      revert i
      decide
    rw [pairHash]
    omega

theorem icfLoops_coarsest_callGraph :
    ∃ s, icfLoops pairHash (fun _ _ => false) callGraph 6 = some s ∧
      ∀ u v, s.current u = s.current v ↔ Bisimilar callGraph.initial.get callGraph.outEdges u v :=
  icfLoops_coarsest collisionFree_callGraph (fun _ _ => false) (by decide)

end Mold.Elf.Icf
