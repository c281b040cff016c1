import Mathlib.Data.List.Forall2

/-!
# Maps that can fail

`List.mapM` in `Option` maps every element or fails.  In `Except` a result comes from results.
-/

namespace Mold.Lib

variable {α β : Type*} {f : α → Option β} {l : List α} {r : List β}

theorem mapM_eq_some_iff (d : α → β) :
    l.mapM f = some r ↔ r = l.map (fun x => (f x).getD (d x)) ∧ ∀ x ∈ l, f x ≠ none := by
  induction l generalizing r with
  | nil => simp [eq_comm]
  | cons x l ih =>
    rw [List.mapM_cons, List.map_cons, List.forall_mem_cons]
    constructor
    · intro h
      obtain ⟨y, hy, h⟩ := Option.bind_eq_some_iff.mp h
      obtain ⟨rest, hrest, h⟩ := Option.bind_eq_some_iff.mp h
      obtain rfl := Option.some.inj h
      obtain ⟨heq, hall⟩ := ih.mp hrest
      rw [hy, ← heq]
      exact ⟨rfl, Option.some_ne_none y, hall⟩
    · rintro ⟨rfl, hx, hall⟩
      obtain ⟨y, hy⟩ := Option.ne_none_iff_exists'.mp hx
      rw [hy, ih.mpr ⟨rfl, hall⟩]
      rfl

theorem mapM_eq_some_map {g : α → β} (h : ∀ x ∈ l, f x = some (g x)) :
    l.mapM f = some (l.map g) := by
  induction l with
  | nil => rfl
  | cons x l ih =>
    rw [List.mapM_cons, h x List.mem_cons_self, ih fun y hy => h y (List.mem_cons_of_mem x hy)]
    rfl

/-- A map succeeds if it does so at every element. -/
theorem mapM_isSome_iff : (∃ r, l.mapM f = some r) ↔ ∀ x ∈ l, ∃ y, f x = some y := by
  induction l with
  | nil => exact ⟨fun _ _ h => absurd h List.not_mem_nil, fun _ => ⟨[], rfl⟩⟩
  | cons x l ih =>
    rw [List.forall_mem_cons, ← ih, List.mapM_cons]
    constructor
    · rintro ⟨r, h⟩
      obtain ⟨y, hy, h⟩ := Option.bind_eq_some_iff.mp h
      obtain ⟨rest, hrest, -⟩ := Option.bind_eq_some_iff.mp h
      exact ⟨⟨y, hy⟩, rest, hrest⟩
    · rintro ⟨⟨y, hy⟩, rest, hrest⟩
      exact ⟨y :: rest, by rw [hy, hrest]; rfl⟩

/-- What a map makes is what it makes of an element. -/
theorem mem_of_mapM_eq_some (h : l.mapM f = some r) {y : β} : y ∈ r ↔ ∃ x ∈ l, f x = some y := by
  induction l generalizing r with
  | nil =>
    obtain rfl := Option.some.inj h
    simp
  | cons x l ih =>
    rw [List.mapM_cons] at h
    obtain ⟨z, hz, h⟩ := Option.bind_eq_some_iff.mp h
    obtain ⟨rest, hrest, h⟩ := Option.bind_eq_some_iff.mp h
    obtain rfl := Option.some.inj h
    rw [List.mem_cons, List.exists_mem_cons_iff, ih hrest, hz, Option.some.injEq, eq_comm]

/-- A result has a property exactly if an element has the one that it comes from. -/
theorem exists_mem_of_mapM (h : l.mapM f = some r) {p : β → Prop}
    {q : α → Prop} (hpq : ∀ x ∈ l, ∀ y, f x = some y → (p y ↔ q x)) :
    (∃ y ∈ r, p y) ↔ ∃ x ∈ l, q x := by
  constructor
  · rintro ⟨y, hy, hp⟩
    obtain ⟨x, hx, hfx⟩ := (mem_of_mapM_eq_some h).mp hy
    exact ⟨x, hx, (hpq x hx y hfx).mp hp⟩
  · rintro ⟨x, hx, hq⟩
    obtain ⟨y, hy⟩ := mapM_isSome_iff.mp ⟨r, h⟩ x hx
    exact ⟨y, (mem_of_mapM_eq_some h).mpr ⟨x, hx, hy⟩, (hpq x hx y hy).mpr hq⟩

/-- What is known of the elements that are made. -/
theorem map_of_mapM_eq_some {γ : Type*} {g : β → γ} {k : α → γ}
    (hf : ∀ x y, f x = some y → g y = k x) (h : l.mapM f = some r) :
    r.map g = l.map k := by
  induction l generalizing r with
  | nil =>
    obtain rfl := Option.some.inj h
    rfl
  | cons x l ih =>
    rw [List.mapM_cons] at h
    obtain ⟨y, hy, h⟩ := Option.bind_eq_some_iff.mp h
    obtain ⟨rest, hrest, h⟩ := Option.bind_eq_some_iff.mp h
    obtain rfl := Option.some.inj h
    rw [List.map_cons, List.map_cons, hf x y hy, ih hrest]

theorem length_of_mapM_eq_some (h : l.mapM f = some r) : r.length = l.length := by
  have hmap : r.map (fun _ => ()) = l.map (fun _ => ()) :=
    map_of_mapM_eq_some (fun _ _ _ => rfl) h
  simpa only [List.length_map] using congrArg List.length hmap

/-- One step that can fail in front of others: all results are related to what they are for
exactly if the first is and the others are. -/
theorem exists_forall₂_cons_iff {γ : Type*} {R : γ → β → Prop} {first : Option β}
    {rest : Option (List β)} {z : γ} {zs : List γ} :
    (∃ r, (first.bind fun y => rest.map (y :: ·)) = some r ∧ List.Forall₂ R (z :: zs) r) ↔
      (∃ y, first = some y ∧ R z y) ∧ ∃ r, rest = some r ∧ List.Forall₂ R zs r := by
  constructor
  · rintro ⟨r, h, hrel⟩
    obtain ⟨y, hy, h⟩ := Option.bind_eq_some_iff.mp h
    obtain ⟨r', hr', rfl⟩ := Option.map_eq_some_iff.mp h
    obtain ⟨hhead, htail⟩ := List.forall₂_cons.mp hrel
    exact ⟨⟨y, hy, hhead⟩, r', hr', htail⟩
  · rintro ⟨⟨y, hy, hhead⟩, r, hr, htail⟩
    refine ⟨y :: r, ?_, .cons hhead htail⟩
    rw [hy, hr, Option.bind_some, Option.map_some]

/-- A map succeeds with results that are right exactly if it does so at every element. -/
theorem exists_mapM_forall₂_iff {R : α → β → Prop} :
    (∃ r, l.mapM f = some r ∧ List.Forall₂ R l r) ↔ ∀ x ∈ l, ∃ y, f x = some y ∧ R x y := by
  induction l with
  | nil => exact ⟨fun _ _ h => absurd h List.not_mem_nil, fun _ => ⟨[], rfl, .nil⟩⟩
  | cons x l ih =>
    have hcons : (x :: l).mapM f = (f x).bind fun y => (l.mapM f).map (y :: ·) := by
      rw [List.mapM_cons]
      cases f x <;> cases l.mapM f <;> rfl
    rw [hcons, exists_forall₂_cons_iff, ih, List.forall_mem_cons]

theorem bind_eq_ok_iff {ε α β : Type*} {x : Except ε α} {f : α → Except ε β} {b : β} :
    x.bind f = .ok b ↔ ∃ a, x = .ok a ∧ f a = .ok b := by
  cases x with
  | error e =>
    refine iff_of_false (fun h => ?_) fun h => ?_
    · cases h
    · obtain ⟨a, ha, -⟩ := h
      cases ha
  | ok a => simp [Except.bind]

theorem map_eq_ok_iff {ε α β : Type*} {x : Except ε α} {f : α → β} {b : β} :
    x.map f = .ok b ↔ ∃ a, x = .ok a ∧ f a = b := by
  cases x with
  | error e =>
    refine iff_of_false (fun h => ?_) fun h => ?_
    · cases h
    · obtain ⟨a, ha, -⟩ := h
      cases ha
  | ok a => simp [Except.map]

end Mold.Lib
