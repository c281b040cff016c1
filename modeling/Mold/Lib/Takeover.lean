import Mathlib.Data.List.MinMax

/-!
# Takeover folds

A holder of a resource is challenged by a list of candidates, one after the
other.  A candidate makes a `bid`; it takes the resource over when the bid is
strictly below the `value` at which the present holder keeps it.  The two
functions need not agree on one candidate: a candidate may bid lower than the
value it can defend afterwards, and then the order of the challenges matters.

The lemmas below say when nobody takes over, when one candidate ends up as
the holder whatever the order is, and which candidate wins a last challenge.
-/

namespace Mold.Lib

variable {α β : Type*} [LinearOrder β]

/-- One challenge: `x` replaces the holder when its bid is below the value of
the holder. -/
def takeover (bid value : α → β) (holder x : α) : α :=
  if bid x < value holder then x else holder

def takeovers (bid value : α → β) (holder : α) (xs : List α) : α :=
  xs.foldl (takeover bid value) holder

variable {bid value : α → β}

@[simp] theorem takeovers_nil (holder : α) : takeovers bid value holder [] = holder := rfl

@[simp] theorem takeovers_cons (holder x : α) (xs : List α) :
    takeovers bid value holder (x :: xs) =
      takeovers bid value (takeover bid value holder x) xs := rfl

theorem takeovers_append (holder : α) (xs ys : List α) :
    takeovers bid value holder (xs ++ ys) =
      takeovers bid value (takeovers bid value holder xs) ys := by
  simp [takeovers, List.foldl_append]

/-- The final holder is the first one or one of the candidates. -/
theorem takeovers_eq_or_mem (holder : α) (xs : List α) :
    takeovers bid value holder xs = holder ∨ takeovers bid value holder xs ∈ xs := by
  induction xs generalizing holder with
  | nil => exact Or.inl rfl
  | cons x xs ih =>
    rw [takeovers_cons]
    rcases ih (takeover bid value holder x) with h | h
    · rw [h, takeover]
      split
      · exact Or.inr List.mem_cons_self
      · exact Or.inl rfl
    · exact Or.inr (List.mem_cons_of_mem x h)

/-- If everybody defends what he bids, the final holder has the least value. -/
theorem takeovers_value_le (holder : α) (xs : List α) :
    value (takeovers value value holder xs) ≤ value holder ∧
      ∀ x ∈ xs, value (takeovers value value holder xs) ≤ value x := by
  induction xs generalizing holder with
  | nil => exact ⟨le_rfl, by simp⟩
  | cons x xs ih =>
    obtain ⟨hle, hxs⟩ := ih (takeover value value holder x)
    have hmin : value (takeover value value holder x) ≤ value holder ∧
        value (takeover value value holder x) ≤ value x := by
      rw [takeover]
      split
      case isTrue h => exact ⟨h.le, le_rfl⟩
      case isFalse h => exact ⟨le_rfl, not_lt.mp h⟩
    rw [takeovers_cons]
    refine ⟨le_trans hle hmin.1, ?_⟩
    intro y hy
    rcases List.mem_cons.mp hy with rfl | hy
    · exact le_trans hle hmin.2
    · exact hxs y hy

theorem takeovers_eq_or_lt (holder : α) (xs : List α) :
    takeovers value value holder xs = holder ∨
      value (takeovers value value holder xs) < value holder := by
  induction xs generalizing holder with
  | nil => exact Or.inl rfl
  | cons x xs ih =>
    rw [takeovers_cons, takeover]
    split
    case isTrue h =>
      rcases ih x with hx | hx
      · rw [hx]
        exact Or.inr h
      · exact Or.inr (lt_trans hx h)
    case isFalse => exact ih holder

variable {xs : List α}

/-- If everybody defends what he bids and all bids are below the value of the first
holder, the first one of the least bids wins. -/
theorem takeovers_eq_argmin {holder : α} (h : ∀ x ∈ xs, value x < value holder) :
    takeovers value value holder xs = (List.argmin value xs).getD holder := by
  induction xs using List.reverseRecOn with
  | nil => rfl
  | append_singleton xs x ih =>
    have hxs := ih fun y hy => h y (List.mem_append_left _ hy)
    rw [takeovers_append, takeovers_cons, takeovers_nil, hxs, List.argmin_concat]
    cases List.argmin value xs with
    | none =>
      have hx := h x (List.mem_append_right _ List.mem_cons_self)
      simp [takeover, hx]
    | some c =>
      simp only [Option.getD_some, takeover]
      split <;> rfl

/-- The least of the images is the image of the least. -/
theorem argmin_map {γ : Type*} (g : γ → α) (xs : List γ) :
    List.argmin value (xs.map g) = (List.argmin (value ∘ g) xs).map g := by
  induction xs with
  | nil => rfl
  | cons x xs ih =>
    rw [List.map_cons, List.argmin_cons, List.argmin_cons, ih]
    cases List.argmin (value ∘ g) xs with
    | none => rfl
    | some c =>
      simp only [Option.map_some, Function.comp_apply]
      split <;> rfl

theorem argmin_congr {value' : α → β} (h : ∀ x ∈ xs, value x = value' x) :
    List.argmin value xs = List.argmin value' xs := by
  induction xs with
  | nil => rfl
  | cons x xs ih =>
    rw [List.argmin_cons, List.argmin_cons, ih fun y hy => h y (List.mem_cons_of_mem x hy)]
    cases hmin : List.argmin value' xs with
    | none => rfl
    | some c =>
      have hc : value c = value' c :=
        h c (List.mem_cons_of_mem x (List.argmin_mem (Option.mem_def.mpr hmin)))
      simp only [hc, h x List.mem_cons_self]

/-- Nobody takes over from a holder whose value is at most every bid. -/
theorem takeovers_eq_holder {holder : α} (h : ∀ x ∈ xs, value holder ≤ bid x) :
    takeovers bid value holder xs = holder := by
  induction xs with
  | nil => rfl
  | cons x xs ih =>
    have hx : takeover bid value holder x = holder :=
      if_neg (not_lt.mpr (h x List.mem_cons_self))
    rw [takeovers_cons, hx]
    exact ih fun y hy => h y (List.mem_cons_of_mem x hy)

/-- A candidate that bids below everything the holder and the others defend
wins the last challenge. -/
theorem takeovers_concat_eq {holder m : α} (hholder : bid m < value holder)
    (hxs : ∀ x ∈ xs, bid m < value x) :
    takeovers bid value holder (xs ++ [m]) = m := by
  rw [takeovers_append, takeovers_cons, takeovers_nil]
  apply if_pos
  rcases @takeovers_eq_or_mem _ _ _ bid value holder xs with h | h
  · rw [h]
    exact hholder
  · exact hxs _ h

/-- A candidate that outbids everybody and whose value nobody outbids is the
final holder wherever it stands in the list. -/
theorem takeovers_eq_of_mem {holder m : α} (hm : m ∈ xs) (hholder : bid m < value holder)
    (hxs : ∀ x ∈ xs, x ≠ m → bid m < value x)
    (hkeep : ∀ x ∈ xs, x ≠ m → value m ≤ bid x) :
    takeovers bid value holder xs = m := by
  obtain ⟨before, after, rfl, hbefore⟩ := List.eq_append_cons_of_mem hm
  have htaken : takeovers bid value holder (before ++ [m]) = m := by
    apply takeovers_concat_eq hholder
    intro x hx
    exact hxs x (List.mem_append_left _ hx) (fun heq => hbefore (heq ▸ hx))
  rw [show before ++ m :: after = (before ++ [m]) ++ after by simp, takeovers_append, htaken]
  have hafter : ∀ x ∈ after, x ≠ m → value m ≤ bid x := by
    intro x hx
    exact hkeep x (List.mem_append_right _ (List.mem_cons_of_mem m hx))
  clear htaken hbefore hkeep hxs hm
  induction after with
  | nil => rfl
  | cons y ys ih =>
    have hy : takeover bid value m y = m := by
      by_cases hym : y = m
      · simp [takeover, hym]
      · exact if_neg (not_lt.mpr (hafter y List.mem_cons_self hym))
    rw [takeovers_cons, hy]
    exact ih fun x hx => hafter x (List.mem_cons_of_mem y hx)

end Mold.Lib
