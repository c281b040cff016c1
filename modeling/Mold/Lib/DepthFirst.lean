import Mathlib.Data.Set.Finite.Basic
import Mathlib.Order.WellFounded

/-!
# Marking depth-first search

A recursive visit marks a node before it looks at the successors and returns
at once from a marked node.  The recursion is bounded by fuel; a visit that
runs out of it has no result, and `visit_isSome` says how much is enough.

`Explores` is the contract of a visit: the marks only grow, every new mark is
reachable from a start, and all successors of a new mark are marked as well.
Contracts compose, so that a list of visits explores from all its starts.

A recursive visit that does not mark nodes comes to a node once for every path that leads
to it.  It ends if and only if it meets no cycle, and the nodes that it then has come to are
those that can be reached.  The recursion is bounded by fuel, and has no result if it runs
out of it.
-/

namespace Mold.Lib

variable {α : Type*} [DecidableEq α] (next : α → List α)

/-- Mark `a` and visit its successors from left to right, unless `a` is marked
already. -/
def visit : ℕ → Finset α → α → Option (Finset α)
  | 0, _, _ => none
  | fuel + 1, marked, a =>
    if a ∈ marked then some marked
    else (next a).foldlM (visit fuel) (insert a marked)

def visitAll (fuel : ℕ) (marked : Finset α) (starts : List α) : Option (Finset α) :=
  starts.foldlM (visit next fuel) marked

/-- `b` is a successor of `a`. -/
def Edge (a b : α) : Prop := b ∈ next a

/-- What a visit of `starts` may do to the marks. -/
structure Explores (starts : List α) (marked marked' : Finset α) : Prop where
  mono : marked ⊆ marked'
  starts_mem : ∀ a ∈ starts, a ∈ marked'
  closed : ∀ a ∈ marked', a ∉ marked → ∀ b ∈ next a, b ∈ marked'
  reachable : ∀ b ∈ marked', b ∉ marked → ∃ a ∈ starts, Relation.ReflTransGen (Edge next) a b

variable {next}

/-! ## Composition of contracts -/

omit [DecidableEq α] in
theorem Explores.refl (marked : Finset α) : Explores next [] marked marked where
  mono := Finset.Subset.refl marked
  starts_mem := by simp
  closed := fun _ ha hnot => absurd ha hnot
  reachable := fun _ hb hnot => absurd hb hnot

variable {marked : Finset α}

omit [DecidableEq α] in
theorem Explores.of_mem {a : α} (ha : a ∈ marked) : Explores next [a] marked marked where
  mono := Finset.Subset.refl marked
  starts_mem := by simpa using ha
  closed := fun _ hb hnot => absurd hb hnot
  reachable := fun _ hb hnot => absurd hb hnot

omit [DecidableEq α] in
theorem Explores.trans {starts₁ starts₂ : List α} {m₁ m₂ m₃ : Finset α}
    (h₁ : Explores next starts₁ m₁ m₂) (h₂ : Explores next starts₂ m₂ m₃) :
    Explores next (starts₁ ++ starts₂) m₁ m₃ where
  mono := h₁.mono.trans h₂.mono
  starts_mem := by
    intro a ha
    rcases List.mem_append.mp ha with ha | ha
    · exact h₂.mono (h₁.starts_mem a ha)
    · exact h₂.starts_mem a ha
  closed := by
    intro a ha hnot b hb
    by_cases ha₂ : a ∈ m₂
    · exact h₂.mono (h₁.closed a ha₂ hnot b hb)
    · exact h₂.closed a ha ha₂ b hb
  reachable := by
    intro b hb hnot
    by_cases hb₂ : b ∈ m₂
    · obtain ⟨a, ha, hreach⟩ := h₁.reachable b hb₂ hnot
      exact ⟨a, List.mem_append_left _ ha, hreach⟩
    · obtain ⟨a, ha, hreach⟩ := h₂.reachable b hb hb₂
      exact ⟨a, List.mem_append_right _ ha, hreach⟩

variable {marked marked' : Finset α}

/-- Exploring the successors of a fresh node explores from the node. -/
theorem Explores.of_insert {a : α} (h : Explores next (next a) (insert a marked) marked') :
    Explores next [a] marked marked' where
  mono := (Finset.subset_insert a marked).trans h.mono
  starts_mem := by
    intro b hb
    rw [List.mem_singleton.mp hb]
    exact h.mono (Finset.mem_insert_self a marked)
  closed := by
    intro b hb hnot c hc
    by_cases hba : b = a
    · subst hba
      exact h.starts_mem c hc
    · exact h.closed b hb (by simp [hba, hnot]) c hc
  reachable := by
    intro b hb hnot
    refine ⟨a, List.mem_singleton_self a, ?_⟩
    by_cases hba : b = a
    · rw [hba]
    · obtain ⟨c, hc, hreach⟩ := h.reachable b hb (by simp [hba, hnot])
      exact Relation.ReflTransGen.head hc hreach

/-! ## The visit meets its contract -/

omit [DecidableEq α] in
theorem foldlM_explores {f : Finset α → α → Option (Finset α)}
    (hf : ∀ m a m', f m a = some m' → Explores next [a] m m')
    {starts : List α}
    (h : starts.foldlM f marked = some marked') :
    Explores next starts marked marked' := by
  induction starts generalizing marked with
  | nil =>
    obtain rfl : marked = marked' := by simpa using h
    exact Explores.refl marked
  | cons a starts ih =>
    rw [List.foldlM_cons] at h
    obtain ⟨middle, hhead, htail⟩ := Option.bind_eq_some_iff.mp h
    exact (hf _ _ _ hhead).trans (ih htail)

theorem visit_explores (fuel : ℕ) {a : α} (h : visit next fuel marked a = some marked') :
    Explores next [a] marked marked' := by
  induction fuel generalizing marked marked' a with
  | zero => simp [visit] at h
  | succ fuel ih =>
    rw [visit] at h
    split at h
    · next ha =>
        obtain rfl : marked = marked' := by simpa using h
        exact Explores.of_mem ha
    · exact Explores.of_insert (foldlM_explores (fun _ _ _ => ih) h)

variable {fuel : ℕ}

theorem visitAll_explores
    {starts : List α} (h : visitAll next fuel marked starts = some marked') :
    Explores next starts marked marked' :=
  foldlM_explores (fun _ _ _ => visit_explores fuel) h

section Fuel

variable [Fintype α]

theorem foldlM_isSome {f : Finset α → α → Option (Finset α)} {bound : ℕ}
    (hf : ∀ m a m', f m a = some m' → m ⊆ m')
    (hsome : ∀ m a, (Finset.univ \ m).card ≤ bound → (f m a).isSome)
    (starts : List α)
    (hmarked : (Finset.univ \ marked).card ≤ bound) :
    (starts.foldlM f marked).isSome := by
  induction starts generalizing marked with
  | nil => rfl
  | cons a starts ih =>
    obtain ⟨middle, hmiddle⟩ := Option.isSome_iff_exists.mp (hsome marked a hmarked)
    rw [List.foldlM_cons, hmiddle]
    apply ih
    have hsub := Finset.sdiff_subset_sdiff (Finset.Subset.refl Finset.univ) (hf _ _ _ hmiddle)
    exact (Finset.card_le_card hsub).trans hmarked

/-- A visit needs no more fuel than one unit for every unmarked node. -/
theorem visit_isSome (fuel : ℕ) (a : α) (hfuel : (Finset.univ \ marked).card < fuel) :
    (visit next fuel marked a).isSome := by
  induction fuel generalizing marked a with
  | zero => omega
  | succ fuel ih =>
    rw [visit]
    split
    · rfl
    · next ha =>
        have hlt : (Finset.univ \ insert a marked).card < (Finset.univ \ marked).card := by
          apply Finset.card_lt_card
          rw [Finset.ssubset_iff_of_subset (Finset.sdiff_subset_sdiff
            (Finset.Subset.refl _) (Finset.subset_insert a marked))]
          exact ⟨a, by simp [ha], by simp⟩
        cases fuel with
        | zero => omega
        | succ fuel =>
          apply foldlM_isSome (fun _ _ _ h => (visit_explores _ h).mono)
          · intro m b hm
            exact ih b (Nat.lt_succ_of_le hm)
          · omega

theorem visit_isSome_of_card_lt (hfuel : Fintype.card α < fuel)
    (marked : Finset α) (a : α) : (visit next fuel marked a).isSome :=
  visit_isSome fuel a ((Finset.card_le_univ _).trans_lt hfuel)

theorem visitAll_isSome_of_card_lt (hfuel : Fintype.card α < fuel)
    (marked : Finset α) (starts : List α) :
    (visitAll next fuel marked starts).isSome :=
  foldlM_isSome (fun _ _ _ h => (visit_explores fuel h).mono)
    (fun m a _ => visit_isSome_of_card_lt hfuel m a) starts
    (Finset.card_le_univ _)

end Fuel

/-! ## Recursion over a graph without marks -/

variable {α : Type*} {next : α → List α} {n m : ℕ} {starts l : List α} {a b : α}

/-- The nodes that a visit comes to, each before its successors. -/
def descend (next : α → List α) : ℕ → List α → Option (List α)
  | 0, _ => none
  | _ + 1, [] => some []
  | n + 1, a :: rest =>
    (descend next n (next a)).bind fun below =>
      (descend next n rest).map fun others => a :: (below ++ others)

theorem descend_cons_eq_some_iff {rest : List α} :
    descend next (n + 1) (a :: rest) = some l ↔
      ∃ below others, descend next n (next a) = some below ∧ descend next n rest = some others ∧
        a :: (below ++ others) = l := by
  simp only [descend, Option.bind_eq_some_iff, Option.map_eq_some_iff]
  constructor
  · rintro ⟨below, hbelow, others, hothers, hl⟩
    exact ⟨below, others, hbelow, hothers, hl⟩
  · rintro ⟨below, others, hbelow, hothers, hl⟩
    exact ⟨below, hbelow, others, hothers, hl⟩

/-- More fuel does not change the result. -/
theorem descend_mono (h : descend next n starts = some l) (hle : n ≤ m) :
    descend next m starts = some l := by
  induction n generalizing m starts l with
  | zero => cases h
  | succ n ih =>
    obtain ⟨m, rfl⟩ :=
      Nat.exists_eq_succ_of_ne_zero (Nat.ne_of_gt (Nat.lt_of_lt_of_le n.succ_pos hle))
    have hle' : n ≤ m := Nat.le_of_succ_le_succ hle
    cases starts with
    | nil => exact h
    | cons a rest =>
      obtain ⟨below, others, hbelow, hothers, hl⟩ := descend_cons_eq_some_iff.mp h
      exact descend_cons_eq_some_iff.mpr ⟨below, others, ih hbelow hle', ih hothers hle', hl⟩

/-- A visit comes to the nodes that can be reached. -/
theorem mem_descend_iff (h : descend next n starts = some l) :
    b ∈ l ↔ ∃ a ∈ starts, Relation.ReflTransGen (Edge next) a b := by
  induction n generalizing starts l with
  | zero => cases h
  | succ n ih =>
    cases starts with
    | nil =>
      cases h
      simp only [List.not_mem_nil, false_and, exists_false]
    | cons a rest =>
      obtain ⟨below, others, hbelow, hothers, rfl⟩ := descend_cons_eq_some_iff.mp h
      rw [List.mem_cons, List.mem_append, ih hbelow, ih hothers, List.exists_mem_cons_iff,
        Relation.ReflTransGen.cases_head_iff, ← or_assoc, @eq_comm _ a b]
      rfl

theorem exists_descend_of_forall (h : ∀ a ∈ starts, ∃ n l, descend next n (next a) = some l) :
    ∃ n l, descend next n starts = some l := by
  induction starts with
  | nil => exact ⟨1, [], rfl⟩
  | cons a rest ih =>
    obtain ⟨n, below, hbelow⟩ := h a List.mem_cons_self
    obtain ⟨m, others, hothers⟩ := ih fun b hb => h b (List.mem_cons_of_mem _ hb)
    exact ⟨max n m + 1, _, descend_cons_eq_some_iff.mpr ⟨below, others,
      descend_mono hbelow (Nat.le_max_left n m), descend_mono hothers (Nat.le_max_right n m), rfl⟩⟩

/-- A visit needs more fuel than the visits below the nodes that it comes to. -/
theorem exists_descend_lt (h : descend next n starts = some l) (ha : a ∈ starts)
    (hreach : Relation.ReflTransGen (Edge next) a b) :
    ∃ k < n, ∃ below, descend next k (next b) = some below := by
  induction n generalizing starts l a with
  | zero => cases h
  | succ n ih =>
    cases starts with
    | nil => exact absurd ha List.not_mem_nil
    | cons c rest =>
      obtain ⟨below, others, hbelow, hothers, -⟩ := descend_cons_eq_some_iff.mp h
      have hn : n < n + 1 := Nat.lt_succ_self n
      rcases List.mem_cons.mp ha with rfl | ha
      · rcases hreach.cases_head with rfl | ⟨d, hd, hreach⟩
        · exact ⟨n, hn, below, hbelow⟩
        · obtain ⟨k, hk, hlast⟩ := ih hbelow hd hreach
          exact ⟨k, hk.trans hn, hlast⟩
      · obtain ⟨k, hk, hlast⟩ := ih hothers ha hreach
        exact ⟨k, hk.trans hn, hlast⟩

/-- A visit does not come to a node that leads back to itself. -/
theorem not_transGen_of_descend (h : descend next n starts = some l) (hb : b ∈ l) :
    ¬ Relation.TransGen (Edge next) b b := by
  intro hcycle
  obtain ⟨a, ha, hreach⟩ := (mem_descend_iff h).mp hb
  obtain ⟨k, -, below, hbelow⟩ := exists_descend_lt h ha hreach
  obtain ⟨c, hc, hback⟩ := Relation.TransGen.head'_iff.mp hcycle
  -- Every visit below `b` has in it another one, with less fuel.
  have hnone : ∀ k below, descend next k (next b) ≠ some below := by
    intro k
    induction k using Nat.strong_induction_on with
    | _ k ih =>
      intro below hbelow
      obtain ⟨k', hk', below', hbelow'⟩ := exists_descend_lt hbelow hc hback
      exact ih k' hk' below' hbelow'
  exact hnone k below hbelow

/-- In a finite part of a graph that has no cycle every visit ends. -/
theorem exists_descend_of_acyclic {s : Set α} (hfinite : s.Finite)
    (hclosed : ∀ a ∈ s, ∀ b ∈ next a, b ∈ s)
    (hacyclic : ∀ a ∈ s, ¬ Relation.TransGen (Edge next) a a) (ha : a ∈ s) :
    ∃ n l, descend next n (next a) = some l := by
  have : Finite s := hfinite
  let below : s → s → Prop := fun x y => Relation.TransGen (Edge next) y.1 x.1
  have : IsTrans s below := ⟨fun _ _ _ hxy hyz => hyz.trans hxy⟩
  have : Std.Irrefl below := ⟨fun x hx => hacyclic x.1 x.2 hx⟩
  have hwf : WellFounded below := Finite.wellFounded_of_trans_of_irrefl below
  have hall : ∀ x : s, ∃ n l, descend next n (next x.1) = some l := fun x => by
    induction x using hwf.induction with
    | _ x ih =>
      exact exists_descend_of_forall fun b hb =>
        ih ⟨b, hclosed x.1 x.2 b hb⟩ (Relation.TransGen.single hb)
  exact hall ⟨a, ha⟩

/-- A visit ends if and only if no node that can be reached leads back to itself. -/
theorem exists_descend_iff {s : Set α} (hfinite : s.Finite)
    (hstarts : ∀ a ∈ starts, a ∈ s) (hclosed : ∀ a ∈ s, ∀ b ∈ next a, b ∈ s) :
    (∃ n l, descend next n starts = some l) ↔
      ∀ a ∈ starts, ∀ b, Relation.ReflTransGen (Edge next) a b →
        ¬ Relation.TransGen (Edge next) b b := by
  constructor
  · rintro ⟨n, l, h⟩ a ha b hreach
    exact not_transGen_of_descend h ((mem_descend_iff h).mpr ⟨a, ha, hreach⟩)
  · intro hacyclic
    let reached : Set α := {b | b ∈ s ∧ ∃ a ∈ starts, Relation.ReflTransGen (Edge next) a b}
    refine exists_descend_of_forall fun a ha =>
      exists_descend_of_acyclic (s := reached) (hfinite.subset fun b hb => hb.1) ?_ ?_
        ⟨hstarts a ha, a, ha, .refl⟩
    · rintro b ⟨hb, c, hc, hreach⟩ d hd
      exact ⟨hclosed b hb d hd, c, hc, hreach.tail hd⟩
    · rintro b ⟨-, c, hc, hreach⟩
      exact hacyclic c hc b hreach

end Mold.Lib
