import Mathlib.Order.WellFounded

/-!
# Deterministic machines

A machine is a step function on configurations; it has halted where the step
function gives `none`.  The rules below are the ones a verification of a
machine needs: an invariant that holds at the start and over every step holds
of every configuration a run reaches, a run that halts halts in one place, and
a machine whose steps decrease a well-founded measure halts.

The body of a loop goes to the next turn or leaves the loop with a result.  A loop is a
machine that halts with the result.  It ends if its turns decrease a measure, and it never
ends if each turn leads to another one of which the same can be said.

`repeatWhile` runs the rounds `body 0`, `body 1`, … and stops after the first
round that does not ask for another one.  A round may fail, and so does a loop
that runs out of fuel.
-/

namespace Mold.Lib

variable {σ : Type*} {step : σ → Option σ} {a b c : σ}

/-- A run of the machine leads from `a` to `b`. -/
def Reaches (step : σ → Option σ) : σ → σ → Prop :=
  Relation.ReflTransGen fun a b => step a = some b

/-- The run from `a` ends in the halted configuration `b`. -/
def HaltsAt (step : σ → Option σ) (a b : σ) : Prop :=
  Reaches step a b ∧ step b = none

theorem Reaches.refl : Reaches step a a :=
  Relation.ReflTransGen.refl

theorem Reaches.tail (hab : Reaches step a b) (hbc : step b = some c) : Reaches step a c :=
  Relation.ReflTransGen.tail hab hbc

theorem Reaches.head (hab : step a = some b) (hbc : Reaches step b c) : Reaches step a c :=
  Relation.ReflTransGen.head hab hbc

theorem Reaches.invariant {P : σ → Prop} (hab : Reaches step a b) (ha : P a)
    (hstep : ∀ b c, Reaches step a b → P b → step b = some c → P c) : P b := by
  induction hab with
  | refl => exact ha
  | tail hreach hnext ih => exact hstep _ _ hreach ih hnext

theorem HaltsAt.unique {b' : σ} (h : HaltsAt step a b) (h' : HaltsAt step a b') : b = b' := by
  obtain ⟨hreach, hhalt⟩ := h
  induction hreach using Relation.ReflTransGen.head_induction_on with
  | refl =>
    cases h'.1.cases_head with
    | inl heq => exact heq
    | inr hnext =>
      obtain ⟨d, hd, -⟩ := hnext
      rw [hhalt] at hd
      cases hd
  | head hnext _ ih =>
    apply ih
    refine ⟨?_, h'.2⟩
    cases h'.1.cases_head with
    | inl heq =>
      rw [heq, h'.2] at hnext
      cases hnext
    | inr hnext' =>
      obtain ⟨d, hd, hreach'⟩ := hnext'
      rw [hnext] at hd
      cases hd
      exact hreach'

/-! ## Running a machine -/

/-- The configuration after `n` steps, or `none` if the machine halts before. -/
def runSteps (step : σ → Option σ) : ℕ → σ → Option σ
  | 0, a => some a
  | n + 1, a => (step a).bind (runSteps step n)

theorem reaches_of_runSteps {n : ℕ} (h : runSteps step n a = some b) : Reaches step a b := by
  induction n generalizing a with
  | zero =>
    cases h
    exact Reaches.refl
  | succ n ih =>
    obtain ⟨c, hnext, hrest⟩ := Option.bind_eq_some_iff.mp h
    exact Reaches.head hnext (ih hrest)

/-- What holds during the first steps holds of every configuration that is
reached, if the machine has halted by then. -/
theorem Reaches.of_runSteps {P : σ → Prop} {n : ℕ} (hab : Reaches step a b)
    (hhalt : runSteps step n a = none)
    (h : ∀ k < n, ∀ c ∈ runSteps step k a, P c) : P b := by
  induction n generalizing a with
  | zero => cases hhalt
  | succ n ih =>
    rcases hab.cases_head with rfl | ⟨c, hnext, hreach⟩
    · exact h 0 (Nat.succ_pos n) a rfl
    · have hrun : ∀ k, runSteps step (k + 1) a = runSteps step k c := by
        intro k
        rw [runSteps, hnext, Option.bind_some]
      apply ih hreach
      · rw [← hrun]
        exact hhalt
      · intro k hk d hd
        rw [← hrun] at hd
        exact h (k + 1) (Nat.succ_lt_succ hk) d hd

/-! ## Loops -/

/-- What one turn of a loop leads to: the state for another turn, or the result. -/
inductive Turn (σ ρ : Type*) where
  | next (s : σ)
  | done (r : ρ)
  deriving DecidableEq

variable {σ ρ : Type*} {turn : σ → Turn σ ρ} {s s' : σ} {r r' : ρ}

def loopStep (turn : σ → Turn σ ρ) : Turn σ ρ → Option (Turn σ ρ)
  | .next s => some (turn s)
  | .done _ => none

def Ends (turn : σ → Turn σ ρ) (s : σ) (r : ρ) : Prop :=
  HaltsAt (loopStep turn) (.next s) (.done r)

theorem ends_of_done (h : turn s = .done r) : Ends turn s r :=
  ⟨.head rfl (h ▸ .refl), rfl⟩

theorem ends_of_next (h : turn s = .next s') (hends : Ends turn s' r) : Ends turn s r :=
  ⟨.head (congrArg some h) hends.1, rfl⟩

theorem ends_of_reaches (hreach : Reaches (loopStep turn) (.next s) (.next s'))
    (h : turn s' = .done r) : Ends turn s r :=
  ⟨hreach.tail (congrArg some h), rfl⟩

theorem Ends.unique (h : Ends turn s r) (h' : Ends turn s r') : r = r' :=
  Turn.done.inj (HaltsAt.unique h h')

theorem Ends.cases (h : Ends turn s r) :
    turn s = .done r ∨ ∃ s', turn s = .next s' ∧ Ends turn s' r := by
  rcases h.1.cases_head with heq | ⟨t, ht, hreach⟩
  · cases heq
  · obtain rfl : turn s = t := Option.some.inj ht
    cases hturn : turn s with
    | next s' => exact .inr ⟨s', rfl, hturn ▸ hreach, rfl⟩
    | done r' =>
      rw [hturn] at hreach
      rcases hreach.cases_head with heq | ⟨t, ht', -⟩
      · exact .inl heq
      · cases ht'

theorem ends_iff_of_next (h : turn s = .next s') : Ends turn s r ↔ Ends turn s' r := by
  refine ⟨fun hends => ?_, ends_of_next h⟩
  rcases hends.cases with hdone | ⟨t, ht, hrest⟩
  · rw [h] at hdone
    cases hdone
  · rw [h] at ht
    cases ht
    exact hrest

/-- The rule for what holds at the end and is carried back over a turn. -/
theorem Ends.induction {P : σ → Prop} (h : Ends turn s r) (hdone : ∀ s, turn s = .done r → P s)
    (hnext : ∀ s s', turn s = .next s' → Ends turn s' r → P s' → P s) : P s := by
  suffices hP : ∀ t, Reaches (loopStep turn) t (.done r) → ∀ s, t = .next s → P s from
    hP _ h.1 s rfl
  intro t hreach
  induction hreach using Relation.ReflTransGen.head_induction_on with
  | refl =>
    intro s hs
    cases hs
  | head hstep hrest ih =>
    rintro s rfl
    obtain rfl := Option.some.inj hstep
    cases hturn : turn s with
    | done r' =>
      rw [hturn] at hrest
      rcases hrest.cases_head with heq | ⟨t, ht, -⟩
      · exact hdone s (hturn.trans heq)
      · cases ht
    | next s' => exact hnext s s' hturn ⟨hturn ▸ hrest, rfl⟩ (ih s' hturn)

theorem Ends.exists_last (h : Ends turn s r) :
    ∃ s', Reaches (loopStep turn) (.next s) (.next s') ∧ turn s' = .done r := by
  refine Ends.induction
    (P := fun s => ∃ s', Reaches (loopStep turn) (.next s) (.next s') ∧ turn s' = .done r) h
    (fun s hdone => ⟨s, .refl, hdone⟩) fun s s' hnext _ ih => ?_
  obtain ⟨t, hreach, hdone⟩ := ih
  exact ⟨t, .head (congrArg some hnext) hreach, hdone⟩

/-- A loop that ends does so from each state that it comes to. -/
theorem Ends.of_reaches (h : Ends turn s r)
    (hreach : Reaches (loopStep turn) (.next s) (.next s')) : Ends turn s' r := by
  suffices hends : ∀ t, Reaches (loopStep turn) (.next s) t → ∀ s', t = .next s' → Ends turn s' r from
    hends _ hreach s' rfl
  intro t hreach
  induction hreach with
  | refl =>
    intro s' hs'
    cases hs'
    exact h
  | @tail t t' _ hstep ih =>
    rintro s' rfl
    cases t with
    | next s => exact (ends_iff_of_next (Option.some.inj hstep)).mp (ih s rfl)
    | done r => cases hstep

theorem exists_ends_of_invariant {Inv : σ → Prop} (measure : σ → ℕ)
    (h : ∀ s s', Inv s → turn s = .next s' → Inv s' ∧ measure s' < measure s) (hs : Inv s) :
    ∃ r, Ends turn s r := by
  induction hm : measure s using Nat.strong_induction_on generalizing s with
  | _ m ih =>
    cases hturn : turn s with
    | done r => exact ⟨r, ends_of_done hturn⟩
    | next s' =>
      obtain ⟨hs', hlt⟩ := h s s' hs hturn
      obtain ⟨r, hr⟩ := ih (measure s') (hm ▸ hlt) hs' rfl
      exact ⟨r, ends_of_next hturn hr⟩

theorem exists_ends (measure : σ → ℕ)
    (h : ∀ s s', turn s = .next s' → measure s' < measure s) (s : σ) : ∃ r, Ends turn s r :=
  @exists_ends_of_invariant _ _ turn s (fun _ => True) measure
    (fun s s' _ hnext => ⟨trivial, h s s' hnext⟩) trivial

/-- A loop never ends if there is always another turn. -/
theorem not_ends {Inv : σ → Prop} (h : ∀ s, Inv s → ∃ s', turn s = .next s' ∧ Inv s')
    (hs : Inv s) : ¬ Ends turn s r := by
  intro hends
  refine Ends.induction (P := fun s => ¬ Inv s) hends (fun s hdone hinv => ?_)
    (fun s s' hnext _ ih hinv => ?_) hs
  · obtain ⟨s', hs', -⟩ := h s hinv
    rw [hdone] at hs'
    cases hs'
  · obtain ⟨t, ht, hinv'⟩ := h s hinv
    rw [hnext] at ht
    cases ht
    exact ih hinv'

/-! ## Repeat-while loops -/

variable {σ : Type*} (body : ℕ → σ → Option (σ × Bool))

/-- `do { … } while (repeat)`, starting with round `k`. -/
def repeatWhile : ℕ → ℕ → σ → Option σ
  | 0, _, _ => none
  | fuel + 1, k, s =>
    match body k s with
    | none => none
    | some (s', again) =>
      if again then repeatWhile fuel (k + 1) s' else some s'

variable {body}

/-- What every round preserves holds after the loop, and the final state is
what a last round left without asking for another one. -/
theorem repeatWhile_spec {Inv : σ → Prop}
    (hbody : ∀ k s s' again, Inv s → body k s = some (s', again) → Inv s')
    {fuel k : ℕ} {s s' : σ} (hs : Inv s)
    (h : repeatWhile body fuel k s = some s') :
    Inv s' ∧ ∃ j t, Inv t ∧ body j t = some (s', false) := by
  induction fuel generalizing k s with
  | zero => simp [repeatWhile] at h
  | succ fuel ih =>
    rw [repeatWhile] at h
    cases hround : body k s with
    | none => simp [hround] at h
    | some result =>
      obtain ⟨t, again⟩ := result
      have ht : Inv t := hbody k s t again hs hround
      cases again with
      | true => exact ih ht (by simpa [hround] using h)
      | false =>
        obtain rfl : t = s' := by simpa [hround] using h
        exact ⟨ht, k, s, hs, hround⟩

/-- A loop whose rounds never fail and whose repeated rounds decrease a measure, as long as
an invariant holds, ends. -/
theorem repeatWhile_isSome_of_inv {Inv : σ → Prop} (measure : σ → ℕ)
    (hsome : ∀ k s, (body k s).isSome)
    (hbody : ∀ k s s' again, Inv s → body k s = some (s', again) → Inv s')
    (hdecr : ∀ k s s', Inv s → body k s = some (s', true) → measure s' < measure s)
    (fuel k : ℕ) (s : σ) (hs : Inv s) (hfuel : measure s < fuel) :
    (repeatWhile body fuel k s).isSome := by
  induction fuel generalizing k s with
  | zero => omega
  | succ fuel ih =>
    obtain ⟨⟨t, again⟩, hround⟩ := Option.isSome_iff_exists.mp (hsome k s)
    rw [repeatWhile, hround]
    cases again with
    | true =>
      have hlt := hdecr k s t hs hround
      exact ih (k + 1) t (hbody k s t true hs hround) (by omega)
    | false => rfl

theorem repeatWhile_isSome (measure : σ → ℕ) (hsome : ∀ k s, (body k s).isSome)
    (hdecr : ∀ k s s', body k s = some (s', true) → measure s' < measure s)
    (fuel k : ℕ) (s : σ) (hfuel : measure s < fuel) :
    (repeatWhile body fuel k s).isSome :=
  @repeatWhile_isSome_of_inv _ _ (fun _ => True) measure hsome (fun _ _ _ _ _ _ => trivial)
    (fun k s s' _ => hdecr k s s') fuel k s trivial hfuel

end Mold.Lib
