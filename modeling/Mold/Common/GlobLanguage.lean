import Mold.Common.Glob

/-!
# The language of a glob pattern

The language of a pattern is the concatenation of the languages of its elements.  `doMatch`
looks for a match by trying how many bytes the stars take, with as few bytes as possible for
the first star, and then for the next.  So what it comes to first is what is less in the
lexicographic order of these numbers.

It is right where it comes to a match before it comes to a byte above 0x7f at a bracket
expression, and to neither of them for a string that is not in the language.  It does not
see matches in which a star that is not the last element leaves nothing of the string.
-/

namespace Mold.Glob

variable {elements : List Element} {str : List UInt8}

def Element.Matches : Element → List UInt8 → Prop
  | .string s, u => u = s
  | .star, _ => True
  | .question, u => ∃ c, u = [c]
  | .bracket bitset, u => ∃ c, u = [c] ∧ bitset c = true

def Language : List Element → List UInt8 → Prop
  | [], str => str = []
  | e :: elements, str => ∃ u v, str = u ++ v ∧ e.Matches u ∧ Language elements v

/-! ## Attempts -/

/-- The pattern matches the string, and the stars take the given numbers of bytes.  A star
that is not the last element leaves something. -/
inductive Found : List Element → List ℕ → List UInt8 → Prop
  | nil : Found [] [] []
  | string (s : List UInt8) {elements : List Element} {ns : List ℕ} {v : List UInt8}
      (h : Found elements ns v) : Found (.string s :: elements) ns (s ++ v)
  | question (c : UInt8) {elements : List Element} {ns : List ℕ} {v : List UInt8}
      (h : Found elements ns v) : Found (.question :: elements) ns (c :: v)
  | bracket (bitset : UInt8 → Bool) (c : UInt8) {elements : List Element} {ns : List ℕ}
      {v : List UInt8} (hc : bitset c = true) (h : Found elements ns v) :
      Found (.bracket bitset :: elements) ns (c :: v)
  | last (u : List UInt8) : Found [.star] [u.length] u
  | star (u : List UInt8) {e : Element} {elements : List Element} {ns : List ℕ}
      {v : List UInt8} (hv : v ≠ []) (h : Found (e :: elements) ns v) :
      Found (.star :: e :: elements) (u.length :: ns) (u ++ v)

/-- The elements before a bracket expression match, with the given numbers of bytes for the
stars, and the next byte is above 0x7f. -/
inductive Meets : List Element → List ℕ → List UInt8 → Prop
  | here (bitset : UInt8 → Bool) (c : UInt8) (elements : List Element) (v : List UInt8)
      (hc : 0x80 ≤ c) : Meets (.bracket bitset :: elements) [] (c :: v)
  | string (s : List UInt8) {elements : List Element} {ns : List ℕ} {v : List UInt8}
      (h : Meets elements ns v) : Meets (.string s :: elements) ns (s ++ v)
  | question (c : UInt8) {elements : List Element} {ns : List ℕ} {v : List UInt8}
      (h : Meets elements ns v) : Meets (.question :: elements) ns (c :: v)
  | bracket (bitset : UInt8 → Bool) (c : UInt8) {elements : List Element} {ns : List ℕ}
      {v : List UInt8} (hc : bitset c = true) (h : Meets elements ns v) :
      Meets (.bracket bitset :: elements) ns (c :: v)
  | star (u : List UInt8) {elements : List Element} {ns : List ℕ} {v : List UInt8}
      (h : Meets elements ns v) : Meets (.star :: elements) (u.length :: ns) (u ++ v)

variable {ns : List ℕ}

theorem Found.language (h : Found elements ns str) : Language elements str := by
  induction h with
  | nil => rfl
  | @string s elements ns v _ ih => exact ⟨s, v, rfl, rfl, ih⟩
  | @question c elements ns v _ ih => exact ⟨[c], v, rfl, ⟨c, rfl⟩, ih⟩
  | @bracket bitset c elements ns v hc _ ih => exact ⟨[c], v, rfl, ⟨c, rfl, hc⟩, ih⟩
  | last u => exact ⟨u, [], (List.append_nil u).symm, trivial, rfl⟩
  | @star u e elements ns v _ _ ih => exact ⟨u, v, rfl, trivial, ih⟩

/-- The search has a result: the least success, if nothing undefined comes before it. -/
structure Decides (res : Option Bool) (found meets : List ℕ → Prop) : Prop where
  true_iff : res = some true ↔ ∃ ms, found ms ∧ ∀ ns, meets ns → ms < ns
  false_iff : res = some false ↔ (∀ ms, ¬ found ms) ∧ ∀ ns, ¬ meets ns

section

variable {res : Option Bool} {found found' meets meets' : List ℕ → Prop}

theorem Decides.congr (h : Decides res found meets) (hfound : ∀ ms, found' ms ↔ found ms)
    (hmeets : ∀ ns, meets' ns ↔ meets ns) : Decides res found' meets' := by
  obtain rfl : found' = found := funext fun ms => propext (hfound ms)
  obtain rfl : meets' = meets := funext fun ns => propext (hmeets ns)
  exact h

theorem Decides.fails (hfound : ∀ ms, ¬ found ms) (hmeets : ∀ ns, ¬ meets ns) :
    Decides (some false) found meets where
  true_iff := by
    refine iff_of_false (fun h => ?_) fun h => ?_
    · cases h
    · obtain ⟨ms, hms, -⟩ := h
      exact hfound ms hms
  false_iff := iff_of_true rfl ⟨hfound, hmeets⟩

theorem Decides.undefined (hmeets : meets []) : Decides none found meets where
  true_iff := by
    refine iff_of_false (fun h => ?_) fun h => ?_
    · cases h
    · obtain ⟨ms, -, hms⟩ := h
      exact List.not_lt_nil ms (hms [] hmeets)
  false_iff := by
    refine iff_of_false (fun h => ?_) fun h => ?_
    · cases h
    · exact h.2 [] hmeets

/-- A predicate about attempts with a star in front: `p₁` is about those in which the star
takes no byte, and `p₂` about the others, with one byte less for it. -/
structure Splits (p p₁ p₂ : List ℕ → Prop) : Prop where
  nil : ¬ p []
  zero_iff (ns : List ℕ) : p (0 :: ns) ↔ p₁ ns
  succ_iff (n : ℕ) (ns : List ℕ) : p ((n + 1) :: ns) ↔ p₂ (n :: ns)
  second (ns : List ℕ) : p₂ ns → ns ≠ []

variable {ms ns : List ℕ}

theorem zero_cons_lt {n : ℕ} : 0 :: ms < (n + 1) :: ns :=
  List.cons_lt_cons_iff.mpr (.inl (Nat.succ_pos n))

theorem zero_cons_lt_iff : 0 :: ms < 0 :: ns ↔ ms < ns := by
  rw [List.cons_lt_cons_iff]
  simp

theorem not_succ_cons_lt {n : ℕ} : ¬ (n + 1) :: ms < 0 :: ns := by
  rw [List.cons_lt_cons_iff]
  simp

theorem succ_cons_lt_iff {m n : ℕ} : (m + 1) :: ms < (n + 1) :: ns ↔ m :: ms < n :: ns := by
  rw [List.cons_lt_cons_iff, List.cons_lt_cons_iff, Nat.succ_lt_succ_iff, Nat.succ_inj]

variable {p p₁ p₂ found₁ found₂ meets₁ meets₂ : List ℕ → Prop} {res₁ res₂ : Option Bool}

theorem Splits.of_first (h : Splits p p₁ p₂) (hp : p₁ ns) : p (0 :: ns) :=
  (h.zero_iff ns).mpr hp

theorem Splits.exists_second (h : Splits p p₁ p₂) (hfirst : ∀ ns, ¬ p₁ ns)
    (hp : p ns) : ∃ n ns', ns = (n + 1) :: ns' ∧ p₂ (n :: ns') := by
  match ns with
  | [] => exact absurd hp h.nil
  | 0 :: ns => exact absurd ((h.zero_iff ns).mp hp) (hfirst ns)
  | (n + 1) :: ns => exact ⟨n, ns, rfl, (h.succ_iff n ns).mp hp⟩

theorem Splits.of_second (h : Splits p p₁ p₂) (hp : p₂ ns) :
    ∃ n ns', ns = n :: ns' ∧ p ((n + 1) :: ns') := by
  match ns with
  | [] => exact absurd rfl (h.second [] hp)
  | n :: ns => exact ⟨n, ns, rfl, (h.succ_iff n ns).mpr hp⟩

theorem Splits.not_least (hfound : Splits found found₁ found₂)
    (hmeets : Splits meets meets₁ meets₂)
    (hfirst : ¬ ∃ ms, found₁ ms ∧ ∀ ns, meets₁ ns → ms < ns) {ns₀ : List ℕ}
    (hns₀ : meets₁ ns₀) : ¬ ∃ ms, found ms ∧ ∀ ns, meets ns → ms < ns := by
  rintro ⟨ms, hms, hbefore⟩
  match ms with
  | [] => exact hfound.nil hms
  | 0 :: ms =>
    refine hfirst ⟨ms, (hfound.zero_iff ms).mp hms, fun ns hns => ?_⟩
    exact zero_cons_lt_iff.mp (hbefore (0 :: ns) (hmeets.of_first hns))
  | (n + 1) :: ms => exact not_succ_cons_lt (hbefore (0 :: ns₀) (hmeets.of_first hns₀))

theorem Decides.orElse (h₁ : Decides res₁ found₁ meets₁) (h₂ : Decides res₂ found₂ meets₂)
    (hfound : Splits found found₁ found₂) (hmeets : Splits meets meets₁ meets₂) :
    Decides (res₁.bind fun b => if b then some true else res₂) found meets := by
  match res₁ with
  | none =>
    have hnot_found : ¬ ∃ ms, found₁ ms ∧ ∀ ns, meets₁ ns → ms < ns := fun h =>
      Option.some_ne_none true (h₁.true_iff.mpr h).symm
    have hmet : ∃ ns, meets₁ ns := by
      by_contra hmet
      have hnone : ∀ ns, ¬ meets₁ ns := fun ns hns => hmet ⟨ns, hns⟩
      refine Option.some_ne_none false (h₁.false_iff.mpr ⟨fun ms hms => ?_, hnone⟩).symm
      exact hnot_found ⟨ms, hms, fun ns hns => absurd hns (hnone ns)⟩
    obtain ⟨ns₀, hns₀⟩ := hmet
    constructor
    · exact iff_of_false (fun h => Option.some_ne_none true h.symm) (hfound.not_least hmeets hnot_found hns₀)
    · exact iff_of_false (fun h => Option.some_ne_none false h.symm) fun h => h.2 (0 :: ns₀) (hmeets.of_first hns₀)
  | some true =>
    obtain ⟨ms, hms, hbefore⟩ := h₁.true_iff.mp rfl
    constructor
    · refine iff_of_true rfl ⟨0 :: ms, hfound.of_first hms, fun ns hns => ?_⟩
      match ns with
      | [] => exact absurd hns hmeets.nil
      | 0 :: ns => exact zero_cons_lt_iff.mpr (hbefore ns ((hmeets.zero_iff ns).mp hns))
      | (n + 1) :: ns => exact zero_cons_lt
    · refine iff_of_false (fun h => ?_) fun h => h.1 (0 :: ms) (hfound.of_first hms)
      cases h
  | some false =>
    obtain ⟨hnot_found, hnot_meets⟩ := h₁.false_iff.mp rfl
    constructor
    · refine h₂.true_iff.trans ⟨fun h => ?_, fun h => ?_⟩
      · obtain ⟨ms, hms, hbefore⟩ := h
        obtain ⟨n, ms, rfl, hms'⟩ := hfound.of_second hms
        refine ⟨(n + 1) :: ms, hms', fun ns hns => ?_⟩
        obtain ⟨n', ns, rfl, hns'⟩ := hmeets.exists_second hnot_meets hns
        exact succ_cons_lt_iff.mpr (hbefore (n' :: ns) hns')
      · obtain ⟨ms, hms, hbefore⟩ := h
        obtain ⟨n, ms, rfl, hms'⟩ := hfound.exists_second hnot_found hms
        refine ⟨n :: ms, hms', fun ns hns => ?_⟩
        obtain ⟨n', ns, rfl, hns'⟩ := hmeets.of_second hns
        exact succ_cons_lt_iff.mp (hbefore ((n' + 1) :: ns) hns')
    · refine h₂.false_iff.trans ⟨fun h => ⟨fun ms hms => ?_, fun ns hns => ?_⟩,
        fun h => ⟨fun ms hms => ?_, fun ns hns => ?_⟩⟩
      · obtain ⟨n, ms, rfl, hms'⟩ := hfound.exists_second hnot_found hms
        exact h.1 (n :: ms) hms'
      · obtain ⟨n, ns, rfl, hns'⟩ := hmeets.exists_second hnot_meets hns
        exact h.2 (n :: ns) hns'
      · obtain ⟨n, ms, rfl, hms'⟩ := hfound.of_second hms
        exact h.1 ((n + 1) :: ms) hms'
      · obtain ⟨n, ns, rfl, hns'⟩ := hmeets.of_second hns
        exact h.2 ((n + 1) :: ns) hns'

end

/-! ## The loops over a star -/

/-- The string is some bytes for a star and then something that is not empty. -/
def After (p : List ℕ → List UInt8 → Prop) (ms : List ℕ) (str : List UInt8) : Prop :=
  ∃ u v ns, str = u ++ v ∧ v ≠ [] ∧ ms = u.length :: ns ∧ p ns v

section

variable {p found meets : List ℕ → List UInt8 → Prop} {ms : List ℕ} {c : UInt8}

theorem not_after_nil : ¬ After p ms [] := by
  rintro ⟨u, v, ns, h, hv, -, -⟩
  exact hv (List.append_eq_nil_iff.mp h.symm).2

theorem after_zero : After p (0 :: ns) (c :: str) ↔ p ns (c :: str) := by
  constructor
  · rintro ⟨u, v, ns', h, -, hns, hp⟩
    obtain ⟨hu, rfl⟩ := List.cons.inj hns
    obtain rfl := List.length_eq_zero_iff.mp hu.symm
    rw [h]
    exact hp
  · exact fun hp => ⟨[], c :: str, ns, rfl, List.cons_ne_nil c str, rfl, hp⟩

theorem after_succ {n : ℕ} : After p ((n + 1) :: ns) (c :: str) ↔ After p (n :: ns) str := by
  constructor
  · rintro ⟨u, v, ns', h, hv, hns, hp⟩
    obtain ⟨hu, rfl⟩ := List.cons.inj hns
    cases u with
    | nil => cases hu
    | cons d u =>
      obtain ⟨-, rfl⟩ := List.cons.inj h
      refine ⟨u, v, ns, rfl, hv, ?_, hp⟩
      rw [Nat.succ.inj hu]
  · rintro ⟨u, v, ns', rfl, hv, hns, hp⟩
    obtain ⟨rfl, rfl⟩ := List.cons.inj hns
    exact ⟨c :: u, v, ns, rfl, hv, rfl, hp⟩

theorem splits_after (c : UInt8) (str : List UInt8) :
    Splits (After p · (c :: str)) (p · (c :: str)) (After p · str) where
  nil := by
    rintro ⟨u, v, ns, -, -, h, -⟩
    cases h
  zero_iff _ := after_zero
  succ_iff _ _ := after_succ
  second := by
    rintro ns ⟨u, v, ns', -, -, rfl, -⟩
    exact List.cons_ne_nil _ _

theorem decides_tryAll {k : List UInt8 → Option Bool}
    (hk : ∀ v, Decides (k v) (found · v) (meets · v)) (str : List UInt8) :
    Decides (tryAll k str) (After found · str) (After meets · str) := by
  induction str with
  | nil => exact .fails (fun ms => not_after_nil) fun ns => not_after_nil
  | cons c str ih => exact (hk (c :: str)).orElse ih (splits_after c str) (splits_after c str)

theorem tryFind_eq_tryAll (s : List UInt8) (k : List UInt8 → Option Bool) (str : List UInt8) :
    tryFind s k str =
      tryAll (fun v => if s.isPrefixOf v then k (v.drop s.length) else some false) str := by
  induction str with
  | nil => rfl
  | cons c str ih =>
    rw [tryFind, tryAll, ih]
    by_cases h : s.isPrefixOf (c :: str)
    · rw [if_pos h, if_pos h]
    · rw [if_neg h, if_neg h]
      rfl

end

/-! ## The search -/

section

variable {s : List UInt8} {bitset : UInt8 → Bool} {c : UInt8} {ns : List ℕ} {e : Element}

theorem Meets.ne_nil (h : Meets elements ns str) : str ≠ [] := by
  induction h with
  | here bitset c elements v hc => exact List.cons_ne_nil c v
  | string s _ ih => exact List.append_ne_nil_of_right_ne_nil s ih
  | @question c elements ns v _ ih => exact List.cons_ne_nil c v
  | @bracket bitset c elements ns v hc _ ih => exact List.cons_ne_nil c v
  | star u _ ih => exact List.append_ne_nil_of_right_ne_nil u ih

theorem found_nil_iff : Found [] ns str ↔ ns = [] ∧ str = [] := by
  constructor
  · intro h
    cases h
    exact ⟨rfl, rfl⟩
  · rintro ⟨rfl, rfl⟩
    exact .nil

theorem not_meets_nil : ¬ Meets [] ns str := by
  intro h
  cases h

theorem found_string_iff :
    Found (.string s :: elements) ns str ↔ ∃ v, str = s ++ v ∧ Found elements ns v := by
  constructor
  · intro h
    cases h with
    | @string _ _ _ v h => exact ⟨v, rfl, h⟩
  · rintro ⟨v, rfl, h⟩
    exact .string s h

theorem meets_string_iff :
    Meets (.string s :: elements) ns str ↔ ∃ v, str = s ++ v ∧ Meets elements ns v := by
  constructor
  · intro h
    cases h with
    | @string _ _ _ v h => exact ⟨v, rfl, h⟩
  · rintro ⟨v, rfl, h⟩
    exact .string s h

theorem not_found_question_nil : ¬ Found (.question :: elements) ns [] := by
  intro h
  cases h

theorem found_question_cons_iff :
    Found (.question :: elements) ns (c :: str) ↔ Found elements ns str := by
  constructor
  · intro h
    cases h with
    | question _ h => exact h
  · exact .question c

theorem meets_question_cons_iff :
    Meets (.question :: elements) ns (c :: str) ↔ Meets elements ns str := by
  constructor
  · intro h
    cases h with
    | question _ h => exact h
  · exact .question c

theorem not_found_bracket_nil : ¬ Found (.bracket bitset :: elements) ns [] := by
  intro h
  cases h

theorem found_bracket_cons_iff :
    Found (.bracket bitset :: elements) ns (c :: str) ↔
      bitset c = true ∧ Found elements ns str := by
  constructor
  · intro h
    cases h with
    | bracket _ _ hc h => exact ⟨hc, h⟩
  · exact fun h => .bracket bitset c h.1 h.2

theorem meets_bracket_cons_iff (hc : ¬ 0x80 ≤ c) :
    Meets (.bracket bitset :: elements) ns (c :: str) ↔
      bitset c = true ∧ Meets elements ns str := by
  constructor
  · intro h
    cases h with
    | here _ _ _ _ hc' => exact absurd hc' hc
    | bracket _ _ hc h => exact ⟨hc, h⟩
  · exact fun h => .bracket bitset c h.1 h.2

theorem found_star_iff :
    Found (.star :: e :: elements) ns str ↔ After (Found (e :: elements)) ns str := by
  constructor
  · intro h
    cases h with
    | @star u _ _ ns v hv h => exact ⟨u, v, ns, rfl, hv, rfl, h⟩
  · rintro ⟨u, v, ns, rfl, hv, rfl, h⟩
    exact .star u hv h

theorem meets_star_iff : Meets (.star :: elements) ns str ↔ After (Meets elements) ns str := by
  constructor
  · intro h
    cases h with
    | @star u _ ns v h => exact ⟨u, v, ns, rfl, h.ne_nil, rfl, h⟩
  · rintro ⟨u, v, ns, rfl, -, rfl, h⟩
    exact .star u h

/-! ### Each element -/

theorem doMatch_star (hs : ∀ s, e = .string s → s ≠ []) (elements : List Element)
    (str : List UInt8) :
    doMatch (.star :: e :: elements) str = tryAll (doMatch (e :: elements)) str := by
  cases e with
  | string s =>
    rw [doMatch, tryFind_eq_tryAll]
    congr 1
    exact funext fun v => (doMatch_string (hs s rfl) elements v).symm
  | star => rfl
  | question => rfl
  | bracket bitset => rfl

theorem decides_nil (str : List UInt8) :
    Decides (doMatch [] str) (Found [] · str) (Meets [] · str) := by
  cases str with
  | nil =>
    constructor
    · exact iff_of_true rfl ⟨[], .nil, fun ns h => absurd h not_meets_nil⟩
    · exact iff_of_false (fun h => Bool.noConfusion (Option.some.inj h)) fun h => h.1 [] .nil
  | cons c str =>
    refine .fails (fun ms h => ?_) fun ns => not_meets_nil
    exact List.cons_ne_nil c str (found_nil_iff.mp h).2

theorem decides_last (str : List UInt8) :
    Decides (doMatch [.star] str) (Found [.star] · str) (Meets [.star] · str) := by
  have hmeets : ∀ ns, ¬ Meets [.star] ns str := fun ns h => by
    obtain ⟨u, v, ns, -, -, -, h⟩ := meets_star_iff.mp h
    exact not_meets_nil h
  constructor
  · exact iff_of_true rfl ⟨[str.length], .last str, fun ns h => absurd h (hmeets ns)⟩
  · exact iff_of_false (fun h => Bool.noConfusion (Option.some.inj h))
      fun h => h.1 [str.length] (.last str)

theorem decides_doMatch (hs : ∀ s, .string s ∈ elements → s ≠ []) (str : List UInt8) :
    Decides (doMatch elements str) (Found elements · str) (Meets elements · str) := by
  induction elements generalizing str with
  | nil => exact decides_nil str
  | cons e elements ih =>
    have hrest := ih fun s h => hs s (List.mem_cons_of_mem e h)
    cases e with
    | string s =>
      rw [doMatch_string (hs s List.mem_cons_self)]
      by_cases h : s.isPrefixOf str
      · obtain ⟨v, rfl⟩ := List.isPrefixOf_iff_prefix.mp h
        rw [if_pos h, List.drop_left]
        refine (hrest v).congr (fun ms => found_string_iff.trans ?_)
          fun ns => meets_string_iff.trans ?_
        · exact ⟨fun ⟨v', hv, h⟩ => List.append_cancel_left hv ▸ h, fun h => ⟨v, rfl, h⟩⟩
        · exact ⟨fun ⟨v', hv, h⟩ => List.append_cancel_left hv ▸ h, fun h => ⟨v, rfl, h⟩⟩
      · rw [if_neg h]
        have hprefix : ∀ v, str ≠ s ++ v := fun v hv =>
          h (List.isPrefixOf_iff_prefix.mpr ⟨v, hv.symm⟩)
        refine .fails (fun ms h => ?_) fun ns h => ?_
        · obtain ⟨v, hv, -⟩ := found_string_iff.mp h
          exact hprefix v hv
        · obtain ⟨v, hv, -⟩ := meets_string_iff.mp h
          exact hprefix v hv
    | star =>
      cases elements with
      | nil => exact decides_last str
      | cons e elements =>
        rw [doMatch_star fun s h => hs s (h ▸ List.mem_cons_of_mem _ List.mem_cons_self)]
        exact (decides_tryAll hrest str).congr (fun ms => found_star_iff) fun ns => meets_star_iff
    | question =>
      cases str with
      | nil => exact .fails (fun ms => not_found_question_nil) fun ns h => h.ne_nil rfl
      | cons c str =>
        exact (hrest str).congr (fun ms => found_question_cons_iff)
          fun ns => meets_question_cons_iff
    | bracket bitset =>
      cases str with
      | nil => exact .fails (fun ms => not_found_bracket_nil) fun ns h => h.ne_nil rfl
      | cons c str =>
        rw [doMatch]
        by_cases hc : 0x80 ≤ c
        · rw [if_pos hc]
          exact .undefined (.here bitset c elements str hc)
        · rw [if_neg hc]
          by_cases hbit : bitset c = true
          · rw [if_pos hbit]
            refine (hrest str).congr (fun ms => found_bracket_cons_iff.trans ?_)
              fun ns => (meets_bracket_cons_iff hc).trans ?_
            · exact and_iff_right hbit
            · exact and_iff_right hbit
          · rw [if_neg hbit]
            refine .fails (fun ms h => ?_) fun ns h => ?_
            · exact hbit (found_bracket_cons_iff.mp h).1
            · exact hbit ((meets_bracket_cons_iff hc).mp h).1

end

/-! ## Patterns -/

/-- The search comes to a match before it meets a byte above 0x7f at a bracket expression,
and for a string that is not in the language it does not meet any. -/
structure Reaches (elements : List Element) (str : List UInt8) : Prop where
  found : Language elements str → ∃ ms, Found elements ms str ∧ ∀ ns, Meets elements ns str → ms < ns
  not_meets : ¬ Language elements str → ∀ ns, ¬ Meets elements ns str

/-- `match` tells whether the string is in the language. -/
def Recognizes (elements : List Element) (str : List UInt8) : Prop :=
  ∃ b, doMatch elements str = some b ∧ (b = true ↔ Language elements str)

theorem recognizes_iff {pat : List UInt8} (h : compile pat = some elements) (str : List UInt8) :
    Recognizes elements str ↔ Reaches elements str := by
  have hdecides := decides_doMatch (ne_nil_of_compile h) str
  constructor
  · rintro ⟨b, hres, hb⟩
    cases b with
    | true =>
      have hlang := hb.mp rfl
      exact ⟨fun _ => hdecides.true_iff.mp hres, fun hnot => absurd hlang hnot⟩
    | false =>
      have hlang : ¬ Language elements str := fun hlang => Bool.noConfusion (hb.mpr hlang)
      exact ⟨fun h => absurd h hlang, fun _ => (hdecides.false_iff.mp hres).2⟩
  · intro hreach
    by_cases hlang : Language elements str
    · exact ⟨true, hdecides.true_iff.mpr (hreach.found hlang), iff_of_true rfl hlang⟩
    · refine ⟨false, hdecides.false_iff.mpr ⟨fun ms hms => hlang hms.language,
        hreach.not_meets hlang⟩, iff_of_false Bool.noConfusion hlang⟩

theorem recognizes_iff_anyBytes :
    Recognizes [.question, .star] [0xc3, 0xa9] ↔ Reaches [.question, .star] [0xc3, 0xa9] := by
  refine @recognizes_iff _ [ch '?', ch '*'] ?_ [0xc3, 0xa9]
  rw [compile, compileLoop, if_neg (by decide), if_pos rfl, compileLoop, if_neg (by decide),
    if_neg (by decide), if_pos rfl, compileLoop]
  rfl

theorem bracketLoop_single (bitset : UInt8 → Bool) :
    bracketLoop [0xe9, ch ']'] bitset = some (setRange bitset (0xe9, 0xe9), []) := by
  rw [bracketLoop, if_neg (by decide)]
  split
  case h_1 hitem => cases hitem
  case h_2 hitem =>
    cases hitem
    rw [bracketLoop, if_pos rfl]

/-- Two stars in a row do not match the empty string, and a byte above 0x7f is not looked up
in a bracket expression. -/
theorem not_recognizes_twoStars :
    (compile [ch '*', ch '*'] = some [.star, .star] ∧ ¬ Recognizes [.star, .star] []) ∧
      ∃ bitset, compile [ch '[', 0xe9, ch ']'] = some [.bracket bitset] ∧ bitset 0xe9 = true ∧
        ¬ Recognizes [.bracket bitset] [0xe9] := by
  refine ⟨⟨?_, ?_⟩, fun c => false || (0xe9 ≤ c && c ≤ 0xe9), ?_, rfl, ?_⟩
  · rw [compile, compileLoop, if_neg (by decide), if_neg (by decide), if_pos rfl, compileLoop,
      if_neg (by decide), if_neg (by decide), if_pos rfl, compileLoop]
    rfl
  · rintro ⟨b, hres, hb⟩
    cases hres
    exact Bool.noConfusion (hb.mpr ⟨[], [], rfl, trivial, [], [], rfl, trivial, rfl⟩)
  · rw [compile, compileLoop, if_pos rfl]
    split
    case h_1 hloop =>
      change bracketLoop [0xe9, ch ']'] _ = none at hloop
      rw [bracketLoop_single] at hloop
      cases hloop
    case h_2 hloop =>
      change bracketLoop [0xe9, ch ']'] _ = _ at hloop
      rw [bracketLoop_single] at hloop
      cases hloop
      rw [compileLoop]
      rfl
  · rintro ⟨b, hres, -⟩
    cases hres

/-! ### Where the search is right -/

theorem Language.eq_star (hs : ∀ s, .string s ∈ elements → s ≠ []) (h : Language elements [])
    {e : Element} (he : e ∈ elements) : e = .star := by
  induction elements with
  | nil => cases he
  | cons e' elements ih =>
    obtain ⟨u, v, huv, hmatch, hrest⟩ := h
    obtain ⟨rfl, rfl⟩ := List.append_eq_nil_iff.mp huv.symm
    rcases List.mem_cons.mp he with rfl | he
    · cases e with
      | string s => exact absurd hmatch.symm (hs s List.mem_cons_self)
      | star => rfl
      | question =>
        obtain ⟨c, hc⟩ := hmatch
        cases hc
      | bracket bitset =>
        obtain ⟨c, hc, -⟩ := hmatch
        cases hc
    · exact ih (fun s h => hs s (List.mem_cons_of_mem e' h)) hrest he

theorem twoStars_suffix {e : Element} (h : ∀ e' ∈ e :: elements, e' = .star) :
    [.star, .star] <:+ .star :: e :: elements := by
  obtain ⟨n, hn⟩ : ∃ n, elements = List.replicate n .star :=
    ⟨_, List.eq_replicate_of_mem fun e' he' => h e' (List.mem_cons_of_mem e he')⟩
  obtain rfl := h e List.mem_cons_self
  refine ⟨List.replicate n .star, ?_⟩
  rw [hn]
  exact List.replicate_append_replicate (n := n) (m := 2)

theorem Language.found (hs : ∀ s, .string s ∈ elements → s ≠ [])
    (hstars : ¬ [.star, .star] <:+ elements) (h : Language elements str) :
    ∃ ms, Found elements ms str := by
  induction elements generalizing str with
  | nil =>
    cases h
    exact ⟨[], .nil⟩
  | cons e elements ih =>
    obtain ⟨u, v, rfl, hmatch, hrest⟩ := h
    have hs' : ∀ s, .string s ∈ elements → s ≠ [] := fun s h => hs s (List.mem_cons_of_mem e h)
    obtain ⟨ms, hms⟩ := ih hs' (fun h => hstars (h.trans (List.suffix_cons e elements))) hrest
    cases e with
    | string s =>
      obtain rfl := hmatch
      exact ⟨ms, .string u hms⟩
    | star =>
      cases elements with
      | nil =>
        obtain rfl := hrest
        rw [List.append_nil]
        exact ⟨[u.length], .last u⟩
      | cons e elements =>
        refine ⟨u.length :: ms, .star u (fun hv => ?_) hms⟩
        subst hv
        exact hstars (twoStars_suffix fun e' he' => hrest.eq_star hs' he')
    | question =>
      obtain ⟨c, rfl⟩ := hmatch
      exact ⟨ms, .question c hms⟩
    | bracket bitset =>
      obtain ⟨c, rfl, hc⟩ := hmatch
      exact ⟨ms, .bracket bitset c hc hms⟩

theorem not_meets_of_no_bracket (h : ∀ bitset, .bracket bitset ∉ elements) :
    ¬ Meets elements ns str := by
  intro hmeets
  induction hmeets with
  | here bitset c elements v hc => exact h bitset List.mem_cons_self
  | string s _ ih => exact ih fun bitset hmem => h bitset (List.mem_cons_of_mem _ hmem)
  | question c _ ih => exact ih fun bitset hmem => h bitset (List.mem_cons_of_mem _ hmem)
  | bracket bitset c _ _ ih => exact h bitset List.mem_cons_self
  | star u _ ih => exact ih fun bitset hmem => h bitset (List.mem_cons_of_mem _ hmem)

theorem recognizes_of_not_meets (hs : ∀ s, .string s ∈ elements → s ≠ [])
    (hstars : ¬ [.star, .star] <:+ elements) (hmeets : ∀ ns, ¬ Meets elements ns str) :
    Recognizes elements str := by
  have hdecides := decides_doMatch hs str
  by_cases hlang : Language elements str
  · obtain ⟨ms, hms⟩ := hlang.found hs hstars
    refine ⟨true, hdecides.true_iff.mpr ⟨ms, hms, fun ns hns => ?_⟩, iff_of_true rfl hlang⟩
    exact absurd hns (hmeets ns)
  · refine ⟨false, hdecides.false_iff.mpr ⟨fun ms hms => hlang hms.language, hmeets⟩, ?_⟩
    exact iff_of_false Bool.noConfusion hlang

end Mold.Glob
