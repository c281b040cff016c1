import Mathlib.Data.List.Basic
import Mathlib.Data.Nat.ModEq

/-!
# Laying out items with alignments

A counter goes over a list of items.  For each item it is rounded up to the
alignment of the item and then advanced by the size of the item.  The items are
aligned and apart.

Two counters that go over the same items make the same steps exactly if they
begin at places that are congruent modulo every alignment.

Groups of items are laid out by themselves from zero on.  A counter then goes over the groups,
is rounded up to the alignment of each of them and advanced by its size.  If the alignment of a
group is a multiple of those of its items, this is the layout of all items one after another,
in which an empty item with the alignment of the group stands in front of each group.
-/

namespace Mold.Lib

/-! ## Rounding up -/

/-- The smallest multiple of `a` that is not below `n`. -/
def alignUp (a n : ℕ) : ℕ := (n + a - 1) / a * a

theorem dvd_alignUp (a n : ℕ) : a ∣ alignUp a n :=
  Nat.dvd_mul_left a _

theorem le_alignUp {a : ℕ} (ha : 0 < a) (n : ℕ) : n ≤ alignUp a n := by
  have hdiv := Nat.div_add_mod (n + a - 1) a
  have hmod := Nat.mod_lt (n + a - 1) ha
  rw [alignUp, Nat.mul_comm]
  omega

theorem alignUp_lt_add {a : ℕ} (ha : 0 < a) (n : ℕ) : alignUp a n < n + a := by
  have hle := Nat.div_mul_le_self (n + a - 1) a
  rw [alignUp]
  omega

theorem alignUp_mono {m n : ℕ} (a : ℕ) (h : m ≤ n) : alignUp a m ≤ alignUp a n :=
  Nat.mul_le_mul_right a (Nat.div_le_div_right (by omega))

theorem alignUp_add_mul {a : ℕ} (ha : 0 < a) (n k : ℕ) :
    alignUp a (n + a * k) = alignUp a n + a * k := by
  have hsum : n + a * k + a - 1 = n + a - 1 + a * k := by omega
  rw [alignUp, alignUp, hsum, Nat.add_mul_div_left _ _ ha, Nat.add_mul, Nat.mul_comm k a]

theorem alignUp_eq_self {a n : ℕ} (ha : 0 < a) (h : a ∣ n) : alignUp a n = n := by
  obtain ⟨k, rfl⟩ := h
  rw [← Nat.zero_add (a * k), alignUp_add_mul ha, alignUp,
    Nat.zero_add, Nat.div_eq_of_lt (Nat.sub_lt ha Nat.one_pos), Nat.zero_mul]

theorem modEq_of_add_eq {a p q x y : ℕ} (hp : a ∣ p) (hq : a ∣ q)
    (h : p + y = q + x) : x ≡ y [MOD a] := by
  calc
    x = 0 + x := (Nat.zero_add x).symm
    _ ≡ q + x [MOD a] := hq.modEq_zero_nat.symm.add_right x
    _ = p + y := h.symm
    _ ≡ 0 + y [MOD a] := hp.modEq_zero_nat.add_right y
    _ = y := Nat.zero_add y

/-- Rounding makes steps of the same length at `m` and at `n` exactly if the two
are congruent.  They are given by their distances to `x` and `y`. -/
theorem alignUp_add_eq_iff {a m n x y : ℕ} (ha : 0 < a) (h : m + y = n + x) :
    alignUp a m + y = alignUp a n + x ↔ x ≡ y [MOD a] := by
  constructor
  · intro heq
    exact modEq_of_add_eq (dvd_alignUp a m) (dvd_alignUp a n) heq
  · intro hmod
    rcases Nat.le_total x y with hle | hle
    · obtain ⟨k, hk⟩ := (Nat.modEq_iff_dvd' hle).mp hmod
      have hn : n = m + a * k := by omega
      rw [hn, alignUp_add_mul ha]
      omega
    · obtain ⟨k, hk⟩ := (Nat.modEq_iff_dvd' hle).mp hmod.symm
      have hm : m = n + a * k := by omega
      rw [hm, alignUp_add_mul ha]
      omega

/-- The same with a place that is only known modulo `N`. -/
theorem alignUp_mod_add_eq_iff {a m n x y N : ℕ} (ha : 0 < a) (hN : a ∣ N)
    (hpos : 0 < N) (h : m + y = n + x) :
    alignUp a m % N + y = alignUp a n + x ↔ x ≡ y [MOD a] ∧ alignUp a m < N := by
  constructor
  · intro heq
    have hmod : x ≡ y [MOD a] :=
      modEq_of_add_eq ((Nat.dvd_mod_iff hN).mpr (dvd_alignUp a m)) (dvd_alignUp a n) heq
    have hexact := (alignUp_add_eq_iff ha h).mpr hmod
    have hlt := Nat.mod_lt (alignUp a m) hpos
    exact ⟨hmod, by omega⟩
  · rintro ⟨hmod, hlt⟩
    rw [Nat.mod_eq_of_lt hlt]
    exact (alignUp_add_eq_iff ha h).mpr hmod

/-! ## Running maxima -/

theorem le_foldl_max {α : Type*} (f : α → ℕ) (l : List α) (init : ℕ) :
    init ≤ l.foldl (fun m x => max m (f x)) init ∧
      ∀ x ∈ l, f x ≤ l.foldl (fun m x => max m (f x)) init := by
  induction l generalizing init with
  | nil => exact ⟨Nat.le_refl init, fun x hx => absurd hx List.not_mem_nil⟩
  | cons y l ih =>
    obtain ⟨hle, hmem⟩ := ih (max init (f y))
    refine ⟨(Nat.le_max_left _ _).trans hle, fun x hx => ?_⟩
    rcases List.mem_cons.mp hx with rfl | hx
    · exact (Nat.le_max_right _ _).trans hle
    · exact hmem x hx

/-! ## One counter -/

variable {α : Type*} (align size : α → ℕ)

/-- The items with their places behind `start`. -/
def place : ℕ → List α → List (α × ℕ)
  | _, [] => []
  | start, x :: l =>
    (x, alignUp (align x) start) :: place (alignUp (align x) start + size x) l

def placeEnd : ℕ → List α → ℕ
  | start, [] => start
  | start, x :: l => placeEnd (alignUp (align x) start + size x) l

variable {align size}

theorem place_append (start : ℕ) (l l' : List α) :
    place align size start (l ++ l') =
      place align size start l ++ place align size (placeEnd align size start l) l' := by
  induction l generalizing start with
  | nil => rfl
  | cons x l ih => rw [List.cons_append, place, place, placeEnd, ih]; rfl

theorem placeEnd_append (start : ℕ) (l l' : List α) :
    placeEnd align size start (l ++ l') =
      placeEnd align size (placeEnd align size start l) l' := by
  induction l generalizing start with
  | nil => rfl
  | cons x l ih => rw [List.cons_append, placeEnd, placeEnd, ih]

theorem place_map_fst (start : ℕ) (l : List α) : (place align size start l).map Prod.fst = l := by
  induction l generalizing start with
  | nil => rfl
  | cons x l ih => rw [place, List.map_cons, ih]

variable {start : ℕ}

theorem dvd_of_mem_place {l : List α} {x : α × ℕ}
    (hx : x ∈ place align size start l) : align x.1 ∣ x.2 := by
  induction l generalizing start with
  | nil => exact absurd hx List.not_mem_nil
  | cons y l ih =>
    rcases List.mem_cons.mp hx with rfl | hx
    · exact dvd_alignUp _ _
    · exact ih hx

theorem le_placeEnd {l : List α} (hpos : ∀ x ∈ l, 0 < align x) (start : ℕ) :
    start ≤ placeEnd align size start l := by
  induction l generalizing start with
  | nil => exact Nat.le_refl start
  | cons y l ih =>
    calc
      start ≤ alignUp (align y) start := le_alignUp (hpos y List.mem_cons_self) _
      _ ≤ alignUp (align y) start + size y := Nat.le_add_right _ _
      _ ≤ placeEnd align size start (y :: l) :=
        ih (fun x hx => hpos x (List.mem_cons_of_mem _ hx)) _

theorem bounds_of_mem_place {l : List α} {x : α × ℕ}
    (hpos : ∀ x ∈ l, 0 < align x) (hx : x ∈ place align size start l) :
    start ≤ x.2 ∧ x.2 + size x.1 ≤ placeEnd align size start l := by
  induction l generalizing start with
  | nil => exact absurd hx List.not_mem_nil
  | cons y l ih =>
    have hpos' : ∀ x ∈ l, 0 < align x :=
      fun x hx => hpos x (List.mem_cons_of_mem _ hx)
    have hstart := le_alignUp (hpos y List.mem_cons_self) start
    rcases List.mem_cons.mp hx with rfl | hx
    · exact ⟨hstart, le_placeEnd hpos' _⟩
    · obtain ⟨hle, hend⟩ := ih hpos' hx
      exact ⟨by omega, hend⟩

/-- Each item ends before the next ones begin. -/
theorem pairwise_place {l : List α} (hpos : ∀ x ∈ l, 0 < align x) :
    (place align size start l).Pairwise fun x y => x.2 + size x.1 ≤ y.2 := by
  induction l generalizing start with
  | nil => exact List.Pairwise.nil
  | cons y l ih =>
    have hpos' : ∀ x ∈ l, 0 < align x :=
      fun x hx => hpos x (List.mem_cons_of_mem _ hx)
    exact List.Pairwise.cons (fun x hx => (bounds_of_mem_place hpos' hx).1) (ih hpos')

/-! ## Layouts that begin elsewhere -/

theorem placeEnd_add {d : ℕ} {l : List α} (hpos : ∀ x ∈ l, 0 < align x)
    (hd : ∀ x ∈ l, align x ∣ d) (start : ℕ) :
    placeEnd align size (start + d) l = placeEnd align size start l + d := by
  induction l generalizing start with
  | nil => rfl
  | cons x l ih =>
    obtain ⟨k, rfl⟩ := hd x List.mem_cons_self
    rw [placeEnd, placeEnd, alignUp_add_mul (hpos x List.mem_cons_self), Nat.add_right_comm,
      ih (fun y hy => hpos y (List.mem_cons_of_mem x hy))
        fun y hy => hd y (List.mem_cons_of_mem x hy)]

/-! ## Layouts in groups -/

variable {α : Type*} (align size : α → ℕ) (groupAlign : List α → ℕ)

/-- The places of the items of all groups, behind `start`. -/
def placeGroups : ℕ → List (List α) → List (α × ℕ)
  | _, [] => []
  | start, g :: gs =>
    place align size (alignUp (groupAlign g) start) g ++
      placeGroups (alignUp (groupAlign g) start + placeEnd align size 0 g) gs

def placeGroupsEnd : ℕ → List (List α) → ℕ
  | start, [] => start
  | start, g :: gs =>
    placeGroupsEnd (alignUp (groupAlign g) start + placeEnd align size 0 g) gs

def withStarts (gs : List (List α)) : List (ℕ ⊕ α) :=
  gs.flatMap fun g => .inl (groupAlign g) :: g.map .inr

def startAlign : ℕ ⊕ α → ℕ := Sum.elim id align

def startSize : ℕ ⊕ α → ℕ := Sum.elim (fun _ => 0) size

def itemOf (x : (ℕ ⊕ α) × ℕ) : Option (α × ℕ) := x.1.getRight?.map (·, x.2)

variable {align size groupAlign}

theorem place_map_inr (start : ℕ) (g : List α) :
    place (startAlign align) (startSize size) start (g.map .inr) =
      (place align size start g).map fun x => (.inr x.1, x.2) := by
  induction g generalizing start with
  | nil => rfl
  | cons x g ih =>
    rw [List.map_cons, place, place, List.map_cons, ih]
    rfl

theorem placeEnd_map_inr (start : ℕ) (g : List α) :
    placeEnd (startAlign align) (startSize size) start (g.map .inr) =
      placeEnd align size start g := by
  induction g generalizing start with
  | nil => rfl
  | cons x g ih =>
    rw [List.map_cons, placeEnd, placeEnd, ← ih]
    rfl

theorem placeEnd_group {g : List α} (hpos : ∀ x ∈ g, 0 < align x)
    (hdvd : ∀ x ∈ g, align x ∣ groupAlign g) (start : ℕ) :
    placeEnd align size (alignUp (groupAlign g) start) g =
      alignUp (groupAlign g) start + placeEnd align size 0 g := by
  have hd : ∀ x ∈ g, align x ∣ alignUp (groupAlign g) start :=
    fun x hx => (hdvd x hx).trans (dvd_alignUp _ _)
  have hadd : placeEnd align size (0 + alignUp (groupAlign g) start) g = _ :=
    placeEnd_add hpos hd 0
  rw [Nat.zero_add] at hadd
  rw [hadd, Nat.add_comm]

theorem placeGroups_eq {gs : List (List α)} (hpos : ∀ g ∈ gs, ∀ x ∈ g, 0 < align x)
    (hdvd : ∀ g ∈ gs, ∀ x ∈ g, align x ∣ groupAlign g) (start : ℕ) :
    placeGroups align size groupAlign start gs =
      (place (startAlign align) (startSize size) start (withStarts groupAlign gs)).filterMap
        itemOf := by
  induction gs generalizing start with
  | nil => rfl
  | cons g gs ih =>
    have hrest := ih (fun g' hg' => hpos g' (List.mem_cons_of_mem g hg'))
      fun g' hg' => hdvd g' (List.mem_cons_of_mem g hg')
    have hitems (l : List (α × ℕ)) :
        (l.map fun x : α × ℕ => ((.inr x.1, x.2) : (ℕ ⊕ α) × ℕ)).filterMap itemOf = l := by
      rw [List.filterMap_map]
      exact List.filterMap_some
    rw [withStarts, List.flatMap_cons, List.cons_append, place, place_append, place_map_inr,
      placeEnd_map_inr, List.filterMap_cons_none rfl, List.filterMap_append, hitems,
      placeGroups, hrest, ← placeEnd_group (hpos g List.mem_cons_self)
        (hdvd g List.mem_cons_self) start]
    rfl

section Groups

variable {gs : List (List α)} {start : ℕ}

theorem startAlign_pos (hpos : ∀ g ∈ gs, ∀ x ∈ g, 0 < align x)
    (hgroup : ∀ g ∈ gs, 0 < groupAlign g) :
    ∀ y ∈ withStarts groupAlign gs, 0 < startAlign align y := by
  intro y hy
  obtain ⟨g, hg, hy⟩ := List.mem_flatMap.mp hy
  rcases List.mem_cons.mp hy with rfl | hy
  · exact hgroup g hg
  · obtain ⟨x, hx, rfl⟩ := List.mem_map.mp hy
    exact hpos g hg x hx

theorem dvd_of_mem_placeGroups {x : α × ℕ}
    (hpos : ∀ g ∈ gs, ∀ x ∈ g, 0 < align x) (hdvd : ∀ g ∈ gs, ∀ x ∈ g, align x ∣ groupAlign g)
    (hx : x ∈ placeGroups align size groupAlign start gs) : align x.1 ∣ x.2 := by
  rw [placeGroups_eq hpos hdvd, List.mem_filterMap] at hx
  obtain ⟨⟨y, k⟩, hy, hitem⟩ := hx
  cases y with
  | inl a => cases hitem
  | inr y =>
    cases hitem
    have hy' : startAlign align (.inr y) ∣ k := dvd_of_mem_place hy
    exact hy'

/-- Each item ends before the next ones begin, also over the bounds of groups. -/
theorem pairwise_placeGroups (hpos : ∀ g ∈ gs, ∀ x ∈ g, 0 < align x)
    (hgroup : ∀ g ∈ gs, 0 < groupAlign g) (hdvd : ∀ g ∈ gs, ∀ x ∈ g, align x ∣ groupAlign g) :
    (placeGroups align size groupAlign start gs).Pairwise fun x y => x.2 + size x.1 ≤ y.2 := by
  rw [placeGroups_eq hpos hdvd]
  refine List.Pairwise.filterMap itemOf ?_ (pairwise_place (startAlign_pos hpos hgroup))
  rintro ⟨x, i⟩ ⟨y, j⟩ hle x' hx y' hy
  cases x with
  | inl a => cases hx
  | inr x =>
    cases y with
    | inl a => cases hy
    | inr y =>
      cases hx
      cases hy
      exact hle

theorem placeGroups_map_fst (start : ℕ) (gs : List (List α)) :
    (placeGroups align size groupAlign start gs).map Prod.fst = gs.flatten := by
  induction gs generalizing start with
  | nil => rfl
  | cons g gs ih =>
    rw [placeGroups, List.map_append, place_map_fst, ih, List.flatten_cons]

theorem getLast?_place {l : List α} (h : l ≠ []) (start : ℕ) :
    ∃ x, (place align size start l).getLast? = some x ∧
      x.2 + size x.1 = placeEnd align size start l := by
  induction l generalizing start with
  | nil => exact absurd rfl h
  | cons x l ih =>
    cases l with
    | nil => exact ⟨_, rfl, rfl⟩
    | cons y l =>
      obtain ⟨z, hz, hend⟩ :=
        ih (List.cons_ne_nil y l) (alignUp (align x) start + size x)
      refine ⟨z, ?_, hend⟩
      rw [place, List.getLast?_cons, hz]
      rfl

/-- The end of groups that are not empty is the end of the last item. -/
theorem placeGroupsEnd_eq (hpos : ∀ g ∈ gs, ∀ x ∈ g, 0 < align x)
    (hdvd : ∀ g ∈ gs, ∀ x ∈ g, align x ∣ groupAlign g) (hne : ∀ g ∈ gs, g ≠ []) (start : ℕ) :
    placeGroupsEnd align size groupAlign start gs =
      ((placeGroups align size groupAlign start gs).getLast?.map fun x =>
        x.2 + size x.1).getD start := by
  induction gs generalizing start with
  | nil => rfl
  | cons g gs ih =>
    obtain ⟨x, hlast, hend⟩ : ∃ x,
        (place align size (alignUp (groupAlign g) start) g).getLast? = some x ∧
          x.2 + size x.1 = placeEnd align size (alignUp (groupAlign g) start) g :=
      getLast?_place (hne g List.mem_cons_self) _
    rw [placeEnd_group (hpos g List.mem_cons_self) (hdvd g List.mem_cons_self)] at hend
    rw [placeGroupsEnd, placeGroups, ih (fun g' hg' => hpos g' (List.mem_cons_of_mem g hg'))
      (fun g' hg' => hdvd g' (List.mem_cons_of_mem g hg'))
      (fun g' hg' => hne g' (List.mem_cons_of_mem g hg')), List.getLast?_append, hlast]
    cases (placeGroups align size groupAlign
        (alignUp (groupAlign g) start + placeEnd align size 0 g) gs).getLast? with
    | none => exact hend.symm
    | some y => rfl

end Groups

end Mold.Lib
