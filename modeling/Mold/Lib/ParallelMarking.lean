import Mathlib.Data.Finset.Card
import Mathlib.Order.WellFounded

/-!
# Marking in parallel

Every marked node has a task, which is the list of its successors.  Workers
take successors from any of the tasks; a worker that takes a node that is not
marked marks it and adds its task.  Marking is a test-and-set, so every node is
marked once.  All runs end, and what is marked at the end does not depend on
the run: it is what can be reached from the roots.
-/

namespace Mold.Lib

variable {α : Type*} [DecidableEq α]

structure Marking (α : Type*) where
  marked : α → Bool
  tasks : List (List α)

namespace Marking

variable {next : α → List α}

def visit (next : α → List α) (marked : α → Bool) (a : α) : (α → Bool) × List (List α) :=
  if marked a then (marked, []) else (Function.update marked a true, [next a])

/-- A worker takes the first node of a task. -/
inductive Step (next : α → List α) : Marking α → Marking α → Prop
  | take (marked : α → Bool) (front back : List (List α)) (a : α) (l : List α) :
      Step next ⟨marked, front ++ (a :: l) :: back⟩
        ⟨(visit next marked a).1, front ++ l :: back ++ (visit next marked a).2⟩

def start (next : α → List α) (marked : α → Bool) (roots : List α) : Marking α where
  marked := marked
  tasks := roots.map next

def Finished (m : Marking α) : Prop := ∀ l ∈ m.tasks, l = []

def Run (next : α → List α) (marked : α → Bool) (roots : List α) (m : Marking α) : Prop :=
  Relation.ReflTransGen (Step next) (start next marked roots) m ∧ m.Finished

theorem visit_marked {marked : α → Bool} {a b : α} :
    (visit next marked a).1 b = true ↔ marked b = true ∨ b = a := by
  rw [visit]
  by_cases hba : b = a
  · subst hba
    split <;> simp [*]
  · split <;> simp [hba]

/-! ## Waiting nodes -/

def Waits (tasks : List (List α)) (a : α) : Prop := ∃ l ∈ tasks, a ∈ l

section Tasks

variable {front back : List (List α)} {l : List α} {a b : α}

omit [DecidableEq α] in
theorem waits_cons : Waits (front ++ (a :: l) :: back) b ↔
    b = a ∨ Waits (front ++ l :: back) b := by
  simp only [Waits, List.mem_append, List.mem_cons, or_and_right, exists_or, exists_eq_left]
  rw [or_assoc, or_left_comm]

/-- What waits after a node has been taken. -/
theorem waits_visit {marked : α → Bool} :
    Waits (front ++ l :: back ++ (visit next marked a).2) b ↔
      Waits (front ++ l :: back) b ∨ (marked a = false ∧ b ∈ next a) := by
  have happend : ∀ new : List (List α), Waits (front ++ l :: back ++ new) b ↔
      Waits (front ++ l :: back) b ∨ Waits new b := by
    intro new
    simp only [Waits, List.mem_append, or_and_right, exists_or]
  rw [happend, visit]
  cases marked a <;> simp [Waits]

end Tasks

/-! ## What is marked -/

/-- What holds during a run from the given marks and roots. -/
structure Explored (next : α → List α) (marked : α → Bool) (roots : List α)
    (m : Marking α) : Prop where
  mono : ∀ a, marked a = true → m.marked a = true
  sound : ∀ a, m.marked a = true ∨ Waits m.tasks a →
    marked a = true ∨ ∃ r ∈ roots, Relation.ReflTransGen (fun a b => b ∈ next a) r a
  complete : ∀ a, a ∈ roots ∨ (m.marked a = true ∧ marked a = false) →
    ∀ b ∈ next a, m.marked b = true ∨ Waits m.tasks b

variable {marked : α → Bool} {roots : List α} {m m' : Marking α}

omit [DecidableEq α] in
theorem explored_start : Explored next marked roots (start next marked roots) where
  mono a h := h
  sound a h := by
    rcases h with h | ⟨l, hl, ha⟩
    · exact Or.inl h
    · obtain ⟨r, hr, rfl⟩ := List.mem_map.mp hl
      exact Or.inr ⟨r, hr, Relation.ReflTransGen.single ha⟩
  complete a h b hb := by
    rcases h with h | ⟨h, hnot⟩
    · exact Or.inr ⟨next a, List.mem_map_of_mem h, hb⟩
    · change marked a = true at h
      rw [h] at hnot
      cases hnot

theorem Explored.step (h : Explored next marked roots m) (hstep : Step next m m') :
    Explored next marked roots m' := by
  obtain ⟨before, front, back, a, l⟩ := hstep
  have ha : Waits (front ++ (a :: l) :: back) a := waits_cons.mpr (Or.inl rfl)
  constructor
  · intro b hb
    exact visit_marked.mpr (Or.inl (h.mono b hb))
  · intro b hb
    rw [visit_marked, waits_visit] at hb
    rcases hb with (hb | rfl) | hb | ⟨hfresh, hb⟩
    · exact h.sound b (Or.inl hb)
    · exact h.sound b (Or.inr ha)
    · exact h.sound b (Or.inr (waits_cons.mpr (Or.inr hb)))
    · rcases h.sound a (Or.inr ha) with hmarked | ⟨r, hr, hreach⟩
      · exact absurd (h.mono a hmarked) (by simp [hfresh])
      · exact Or.inr ⟨r, hr, hreach.tail hb⟩
  · intro c hc b hb
    rw [visit_marked, waits_visit]
    rw [visit_marked] at hc
    by_cases hnew : c = a ∧ before a = false
    · obtain ⟨rfl, hfresh⟩ := hnew
      exact Or.inr (Or.inr ⟨hfresh, hb⟩)
    · have hold : c ∈ roots ∨ (before c = true ∧ marked c = false) := by
        rcases hc with hc | ⟨hc | rfl, hnot⟩
        · exact Or.inl hc
        · exact Or.inr ⟨hc, hnot⟩
        · exact Or.inr ⟨by simpa using hnew, hnot⟩
      rcases h.complete c hold b hb with hmarked | hwaits
      · exact Or.inl (Or.inl hmarked)
      · rcases waits_cons.mp hwaits with rfl | hwaits
        · exact Or.inl (Or.inr rfl)
        · exact Or.inr (Or.inl hwaits)

theorem explored_of_reaches (h : Relation.ReflTransGen (Step next) (start next marked roots) m) :
    Explored next marked roots m := by
  induction h with
  | refl => exact explored_start
  | tail _ hstep ih => exact ih.step hstep

omit [DecidableEq α] in
theorem Explored.congr {tasks tasks' : List (List α)} {now : α → Bool}
    (h : Explored next marked roots ⟨now, tasks⟩)
    (hwaits : ∀ a, Waits tasks' a ↔ Waits tasks a) :
    Explored next marked roots ⟨now, tasks'⟩ where
  mono := h.mono
  sound a ha := h.sound a (ha.imp_right (hwaits a).mp)
  complete a ha b hb := (h.complete a ha b hb).imp_right (hwaits b).mpr

omit [DecidableEq α] in
/-- If nothing waits, the nodes that can be reached from the roots are marked.  The roots
must contain the marked nodes that are successors. -/
theorem Explored.marked_iff (hexplored : Explored next marked roots m)
    (hidle : ∀ b, ¬ Waits m.tasks b)
    (hmarked : ∀ a b, b ∈ next a → marked b = true → b ∈ roots)
    (hroots : ∀ r ∈ roots, marked r = true) (a : α) :
    m.marked a = true ↔ marked a = true ∨
      ∃ r ∈ roots, Relation.ReflTransGen (fun a b => b ∈ next a) r a := by
  constructor
  · intro ha
    exact hexplored.sound a (Or.inl ha)
  · rintro (ha | ⟨r, hr, hreach⟩)
    · exact hexplored.mono a ha
    · have hfed : a ∈ roots ∨ (m.marked a = true ∧ marked a = false) := by
        induction hreach with
        | refl => exact Or.inl hr
        | @tail b c _ hbc ih =>
          have hc := (hexplored.complete b ih c hbc).resolve_right (hidle c)
          cases hbefore : marked c with
          | true => exact Or.inl (hmarked b c hbc hbefore)
          | false => exact Or.inr ⟨hc, rfl⟩
      rcases hfed with ha | ha
      · exact hexplored.mono a (hroots a ha)
      · exact ha.1

theorem Run.marked_iff (h : Run next marked roots m)
    (hmarked : ∀ a b, b ∈ next a → marked b = true → b ∈ roots)
    (hroots : ∀ r ∈ roots, marked r = true) (a : α) :
    m.marked a = true ↔ marked a = true ∨
      ∃ r ∈ roots, Relation.ReflTransGen (fun a b => b ∈ next a) r a := by
  refine (explored_of_reaches h.1).marked_iff ?_ hmarked hroots a
  rintro b ⟨l, hl, hb⟩
  rw [h.2 l hl] at hb
  exact List.not_mem_nil hb

/-! ## All runs end -/

/-- The nodes of the tasks are in `s`. -/
def Within (s : Finset α) (m : Marking α) : Prop := ∀ a, Waits m.tasks a → a ∈ s

variable {s : Finset α}

theorem Within.step (hnext : ∀ a ∈ s, ∀ b ∈ next a, b ∈ s)
    (h : Within s m) (hstep : Step next m m') : Within s m' := by
  obtain ⟨before, front, back, a, l⟩ := hstep
  intro b hb
  rcases waits_visit.mp hb with hb | ⟨-, hb⟩
  · exact h b (waits_cons.mpr (Or.inr hb))
  · exact hnext a (h a (waits_cons.mpr (Or.inl rfl))) b hb

def size (s : Finset α) (m : Marking α) : ℕ × ℕ :=
  ((s.filter fun a => m.marked a = false).card, m.tasks.flatten.length)

theorem size_step (h : Within s m) (hstep : Step next m m') :
    Prod.Lex (· < ·) (· < ·) (size s m') (size s m) := by
  obtain ⟨before, front, back, a, l⟩ := hstep
  have ha : a ∈ s := h a (waits_cons.mpr (Or.inl rfl))
  simp only [size, visit]
  split
  case isTrue =>
    apply Prod.Lex.right
    simp
  case isFalse hfresh =>
    apply Prod.Lex.left
    apply Finset.card_lt_card
    apply (Finset.ssubset_iff_of_subset ?_).mpr
    · refine ⟨a, Finset.mem_filter.mpr ⟨ha, by simpa using hfresh⟩, ?_⟩
      simp
    · intro b hb
      obtain ⟨hbs, hb⟩ := Finset.mem_filter.mp hb
      by_cases hba : b = a
      · subst hba
        simp at hb
      · have hbefore : before b = false := by simpa [hba] using hb
        exact Finset.mem_filter.mpr ⟨hbs, hbefore⟩

/-- There is no infinite run. -/
theorem acc_step (hnext : ∀ a ∈ s, ∀ b ∈ next a, b ∈ s)
    (h : Within s m) : Acc (fun m' m => Step next m m') m := by
  have hwf : WellFounded (Prod.Lex (· < ·) (· < ·) : ℕ × ℕ → ℕ × ℕ → Prop) :=
    WellFounded.prod_lex wellFounded_lt wellFounded_lt
  induction hsize : size s m using hwf.induction generalizing m with
  | _ n ih =>
    constructor
    intro m' hstep
    exact ih _ (hsize ▸ size_step h hstep) (h.step hnext hstep) rfl

theorem exists_finished (hnext : ∀ a ∈ s, ∀ b ∈ next a, b ∈ s) (h : Within s m) :
    ∃ m', Relation.ReflTransGen (Step next) m m' ∧ m'.Finished := by
  induction acc_step hnext h with
  | intro m _ ih =>
    by_cases hfinished : m.Finished
    · exact ⟨m, Relation.ReflTransGen.refl, hfinished⟩
    · obtain ⟨marked, tasks⟩ := m
      simp only [Finished, not_forall] at hfinished
      obtain ⟨l, hl, hne⟩ := hfinished
      obtain ⟨front, back, rfl⟩ := List.append_of_mem hl
      obtain ⟨a, l, rfl⟩ := List.exists_cons_of_ne_nil hne
      have hstep := @Step.take _ _ next marked front back a l
      obtain ⟨m', hreach, hm'⟩ := ih _ hstep (h.step hnext hstep)
      exact ⟨m', hreach.head hstep, hm'⟩

end Marking

end Mold.Lib
