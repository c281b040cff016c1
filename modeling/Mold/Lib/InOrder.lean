import Mathlib.Data.List.Nodup

/-!
# Releasing items in order

Items with numbers arrive in any order.  A buffer keeps them until all items
with smaller numbers have been released; taking from the buffer releases what
can be released.  If every number arrives at most once, the released items are
those with the numbers `0, 1, 2, ...`, and after taking nothing more can be
released.
-/

namespace Mold.Lib

/-- The items that are waiting, with their numbers, and the number that is
released next. -/
structure Buffer (α : Type*) where
  ready : List (ℕ × α) := []
  next : ℕ := 0

namespace Buffer

variable {α : Type*}

/-- An item arrives.  An item with a number that is waiting already is dropped. -/
def put (b : Buffer α) (k : ℕ) (x : α) : Buffer α :=
  if (b.ready.lookup k).isSome then b else { b with ready := (k, x) :: b.ready }

/-- Release at most `n` items. -/
def takeUpTo : ℕ → Buffer α → List α × Buffer α
  | 0, b => ([], b)
  | n + 1, b =>
    match b.ready.lookup b.next with
    | none => ([], b)
    | some x =>
      let r := takeUpTo n
        { ready := b.ready.filter fun y => y.1 ≠ b.next, next := b.next + 1 }
      (x :: r.1, r.2)

def take (b : Buffer α) : List α × Buffer α := takeUpTo b.ready.length b

/-! ## What has arrived and what has been released -/

/-- After the arrivals in `puts`, the items in `taken` have been released. -/
structure Released (puts : List (ℕ × α)) (taken : List α) (b : Buffer α) : Prop where
  length_eq : taken.length = b.next
  getElem? : ∀ (i : ℕ) x, taken[i]? = some x → (i, x) ∈ puts
  mem_ready : ∀ k x, (k, x) ∈ b.ready ↔ (k, x) ∈ puts ∧ b.next ≤ k

variable {puts : List (ℕ × α)} {taken : List α} {b : Buffer α}

theorem Released.empty : Released [] [] ({} : Buffer α) where
  length_eq := rfl
  getElem? i x h := by simp at h
  mem_ready k x := by simp

variable {k : ℕ}

theorem Released.exists_of_lt (h : Released puts taken b) (hk : k < b.next) :
    ∃ x, (k, x) ∈ puts := by
  have hlt : k < taken.length := by
    rw [h.length_eq]
    exact hk
  exact ⟨taken[k], h.getElem? k _ (List.getElem?_eq_getElem hlt)⟩

theorem lookup_eq_none_iff {l : List (ℕ × α)} : l.lookup k = none ↔ ∀ x, (k, x) ∉ l := by
  rw [List.lookup_eq_none_iff]
  constructor
  · intro h x hx
    exact absurd (h (k, x) hx) (by simp)
  · intro h y hy
    rw [bne_iff_ne]
    rintro rfl
    exact h y.2 hy

theorem mem_of_lookup_eq_some {l : List (ℕ × α)} {x : α}
    (h : l.lookup k = some x) : (k, x) ∈ l := by
  obtain ⟨l₁, l₂, rfl, -⟩ := List.lookup_eq_some_iff.mp h
  exact List.mem_append_right _ List.mem_cons_self

theorem Released.put (h : Released puts taken b) {x : α}
    (hk : k ∉ puts.map Prod.fst) : Released (puts ++ [(k, x)]) taken (b.put k x) := by
  have hnew : ∀ y, (k, y) ∉ puts :=
    fun y hy => hk (List.mem_map_of_mem hy)
  have hle : b.next ≤ k := by
    by_contra hlt
    obtain ⟨y, hy⟩ := h.exists_of_lt (Nat.lt_of_not_le hlt)
    exact hnew y hy
  have hlookup : b.ready.lookup k = none :=
    lookup_eq_none_iff.mpr fun y hy => hnew y ((h.mem_ready k y).mp hy).1
  rw [Buffer.put, hlookup, if_neg (by simp)]
  constructor
  · exact h.length_eq
  · intro i y hy
    exact List.mem_append_left _ (h.getElem? i y hy)
  · intro j y
    rw [List.mem_cons, List.mem_append, List.mem_singleton, h.mem_ready]
    constructor
    · rintro (heq | ⟨hmem, hnext⟩)
      · obtain ⟨rfl, rfl⟩ := Prod.mk.injEq .. ▸ heq
        exact ⟨Or.inr rfl, hle⟩
      · exact ⟨Or.inl hmem, hnext⟩
    · rintro ⟨hmem | heq, hnext⟩
      · exact Or.inr ⟨hmem, hnext⟩
      · exact Or.inl heq

theorem Released.takeUpTo (h : Released puts taken b) (n : ℕ) :
    Released puts (taken ++ (b.takeUpTo n).1) (b.takeUpTo n).2 := by
  induction n generalizing taken b with
  | zero => simpa [Buffer.takeUpTo] using h
  | succ n ih =>
    rw [Buffer.takeUpTo]
    split
    · simpa using h
    · next x hx =>
        have hmem := mem_of_lookup_eq_some hx
        have hstep : Released puts (taken ++ [x])
            { ready := b.ready.filter fun y => y.1 ≠ b.next, next := b.next + 1 } := by
          constructor
          · rw [List.length_append, h.length_eq]
            rfl
          · intro i y hy
            rcases Nat.lt_or_ge i taken.length with hlt | hge
            · rw [List.getElem?_append_left hlt] at hy
              exact h.getElem? i y hy
            · rw [List.getElem?_append_right hge, List.getElem?_singleton] at hy
              split at hy
              · next hi =>
                  obtain rfl := Option.some.inj hy
                  have hi' : i = b.next := by
                    rw [← h.length_eq]
                    omega
                  rw [hi']
                  exact ((h.mem_ready _ _).mp hmem).1
              · exact absurd hy (by simp)
          · intro k y
            rw [List.mem_filter, h.mem_ready, decide_eq_true_eq]
            constructor
            · rintro ⟨⟨hput, hle⟩, hne⟩
              exact ⟨hput, Nat.lt_of_le_of_ne hle (Ne.symm hne)⟩
            · rintro ⟨hput, hle⟩
              exact ⟨⟨hput, Nat.le_of_succ_le hle⟩, Nat.ne_of_gt hle⟩
        have hrest := ih hstep
        rwa [List.append_assoc, List.singleton_append] at hrest

theorem Released.take (h : Released puts taken b) : Released puts (taken ++ b.take.1) b.take.2 :=
  h.takeUpTo _

/-- After taking, the next number has not arrived. -/
theorem lookup_next_takeUpTo {n : ℕ} (h : b.ready.length ≤ n) :
    (b.takeUpTo n).2.ready.lookup (b.takeUpTo n).2.next = none := by
  induction n generalizing b with
  | zero =>
    have hnil : b.ready = [] := List.length_eq_zero_iff.mp (Nat.le_zero.mp h)
    rw [takeUpTo, hnil]
    rfl
  | succ n ih =>
    rw [takeUpTo]
    split
    · next hnone => exact hnone
    · next x hx =>
        refine ih (Nat.le_of_lt_succ (Nat.lt_of_lt_of_le ?_ h))
        have hmem := mem_of_lookup_eq_some hx
        exact List.length_filter_lt_length_iff_exists.mpr ⟨_, hmem, by simp⟩

theorem Released.notMem_next (h : Released puts taken b) (x : α) : (b.take.2.next, x) ∉ puts := by
  intro hx
  have hready := (h.take.mem_ready _ x).mpr ⟨hx, Nat.le_refl _⟩
  exact lookup_eq_none_iff.mp (lookup_next_takeUpTo (Nat.le_refl _)) x hready

theorem Released.le_next_take (h : Released puts taken b) {n : ℕ}
    (hn : ∀ k < n, ∃ x, (k, x) ∈ puts) : n ≤ b.take.2.next := by
  by_contra hlt
  obtain ⟨x, hx⟩ := hn _ (Nat.lt_of_not_le hlt)
  exact h.notMem_next x hx

/-! ## Sequences of operations -/

inductive Op (α : Type*) where
  | put (k : ℕ) (x : α)
  | take

def arrivals : List (Op α) → List (ℕ × α)
  | [] => []
  | .put k x :: ops => (k, x) :: arrivals ops
  | .take :: ops => arrivals ops

def run : Buffer α → List (Op α) → List (List α) × Buffer α
  | b, [] => ([], b)
  | b, .put k x :: ops => run (b.put k x) ops
  | b, .take :: ops => ((b.take.1 :: (run b.take.2 ops).1), (run b.take.2 ops).2)

theorem Released.run (h : Released puts taken b) (ops : List (Op α))
    (hnodup : ((puts ++ arrivals ops).map Prod.fst).Nodup) :
    Released (puts ++ arrivals ops) (taken ++ (b.run ops).1.flatten) (b.run ops).2 := by
  induction ops generalizing puts taken b with
  | nil => simpa [Buffer.run, arrivals] using h
  | cons op ops ih =>
    cases op with
    | put k x =>
      have hsplit : puts ++ arrivals (.put k x :: ops) = puts ++ [(k, x)] ++ arrivals ops := by
        rw [arrivals, List.append_assoc, List.singleton_append]
      rw [hsplit] at hnodup ⊢
      have hk : k ∉ puts.map Prod.fst := by
        rw [List.map_append, List.map_append] at hnodup
        have hleft := hnodup.of_append_left
        exact fun hmem => (List.nodup_append.mp hleft).2.2 k hmem k List.mem_cons_self rfl
      exact ih (h.put hk) hnodup
    | take =>
      rw [Buffer.run, List.flatten_cons, ← List.append_assoc]
      exact ih h.take hnodup

end Buffer

end Mold.Lib
