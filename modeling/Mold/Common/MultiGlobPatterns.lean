import Mold.Common.GlobLanguage
import Mold.Common.MultiGlob

/-!
# Simple patterns

A simple pattern is a plain word with a star in front, behind, at both sides or at none.  It
matches a string if and only if the word that is added to the trie for it, with a zero byte
at an end without a star, is a part of the string between two zero bytes.
-/

namespace Mold.MultiGlob

open Glob

variable {pat u str : List UInt8} {a b : Bool}

def stars (a : Bool) : List UInt8 :=
  if a then [ch '*'] else []

def mark (a : Bool) : List UInt8 :=
  if a then [] else [0]

def starElements (a : Bool) : List Element :=
  if a then [.star] else []

theorem head?_ne_star (hplain : ∀ c ∈ u, isPlain c = true) : u.head? ≠ some (ch '*') := by
  intro h
  exact absurd (hplain _ (List.mem_of_head? h)) (by decide)

theorem getLast?_ne_star (hplain : ∀ c ∈ u, isPlain c = true) : u.getLast? ≠ some (ch '*') := by
  intro h
  exact absurd (hplain _ (List.mem_of_getLast? h)) (by decide)

theorem exists_of_isSimplePattern (h : isSimplePattern pat = true) :
    ∃ a b u, u ≠ [] ∧ (∀ c ∈ u, isPlain c = true) ∧ pat = stars a ++ (u ++ stars b) := by
  rw [isSimplePattern, Bool.and_eq_true, decide_eq_true_eq, List.all_eq_true] at h
  have hfirst : ∃ a, pat = stars a ++ (if pat.head? = some (ch '*') then pat.tail else pat) := by
    by_cases hstar : pat.head? = some (ch '*')
    · rw [if_pos hstar]
      exact ⟨true, (List.cons_head?_tail hstar).symm⟩
    · rw [if_neg hstar]
      exact ⟨false, rfl⟩
  obtain ⟨a, ha⟩ := hfirst
  rw [stripStars] at h
  generalize (if pat.head? = some (ch '*') then pat.tail else pat) = rest at ha h
  by_cases hstar : rest.getLast? = some (ch '*')
  · rw [if_pos hstar] at h
    refine ⟨a, true, rest.dropLast, h.1, h.2, ?_⟩
    rw [ha, stars, stars, if_pos rfl, List.dropLast_append_getLast? _ hstar]
  · rw [if_neg hstar] at h
    refine ⟨a, false, rest, h.1, h.2, ?_⟩
    have hnil : rest ++ stars false = rest := List.append_nil rest
    rw [hnil]
    exact ha

theorem head?_pattern (hne : u ≠ []) (hplain : ∀ c ∈ u, isPlain c = true) (a b : Bool) :
    decide ((stars a ++ (u ++ stars b)).head? = some (ch '*')) = a := by
  cases a with
  | true => rfl
  | false =>
    refine decide_eq_false ?_
    change (u ++ stars b).head? ≠ _
    rw [List.head?_append_of_ne_nil u hne]
    exact head?_ne_star hplain

theorem getLast?_pattern (hne : u ≠ []) (hplain : ∀ c ∈ u, isPlain c = true) (a b : Bool) :
    decide ((stars a ++ (u ++ stars b)).getLast? = some (ch '*')) = b := by
  cases b with
  | true =>
    refine decide_eq_true ?_
    rw [← List.append_assoc]
    exact List.getLast?_concat
  | false =>
    refine decide_eq_false ?_
    change (stars a ++ (u ++ [])).getLast? ≠ _
    rw [List.append_nil, List.getLast?_append_of_ne_nil _ hne]
    exact getLast?_ne_star hplain

theorem handleStars_eq (hne : u ≠ []) (hplain : ∀ c ∈ u, isPlain c = true) (a b : Bool) :
    handleStars (stars a ++ (u ++ stars b)) = mark a ++ (u ++ mark b) := by
  rw [handleStars, head?_pattern hne hplain, getLast?_pattern hne hplain]
  have hfirst := head?_pattern hne hplain a b
  have hlast := getLast?_pattern hne hplain a b
  cases a with
  | true =>
    rw [if_pos (of_decide_eq_true hfirst)]
    cases b with
    | true =>
      change (u ++ [ch '*']).dropLast = u ++ []
      rw [List.dropLast_concat, List.append_nil]
    | false => exact congrArg (· ++ [0]) (List.append_nil u)
  | false =>
    rw [if_neg (of_decide_eq_false hfirst)]
    cases b with
    | true =>
      rw [if_pos (of_decide_eq_true hlast)]
      change 0 :: (u ++ [ch '*']).dropLast = 0 :: (u ++ [])
      rw [List.dropLast_concat, List.append_nil]
    | false =>
      rw [if_neg (of_decide_eq_false hlast)]
      exact congrArg (fun l => 0 :: (l ++ [0])) (List.append_nil u)

theorem pushChar_string (vec : List Element) (s : List UInt8) (c : UInt8) :
    pushChar (vec ++ [.string s]) c = vec ++ [.string (s ++ [c])] := by
  rw [pushChar, List.getLast?_concat]
  dsimp only
  rw [List.dropLast_concat]

theorem ne_of_isPlain {c : UInt8} (h : isPlain c = true) :
    c ≠ ch '[' ∧ c ≠ ch '?' ∧ c ≠ ch '*' := by
  rw [isPlain, Bool.and_eq_true, Bool.and_eq_true, decide_eq_true_eq, decide_eq_true_eq,
    decide_eq_true_eq] at h
  exact ⟨h.1.2, h.2, h.1.1⟩

theorem compileLoop_plain {c : UInt8} (hc : isPlain c = true) (rest : List UInt8)
    (vec : List Element) : compileLoop (c :: rest) vec = compileLoop rest (pushChar vec c) := by
  obtain ⟨hbracket, hquestion, hstar⟩ := ne_of_isPlain hc
  rw [compileLoop, if_neg hbracket, if_neg hquestion, if_neg hstar]

theorem compileLoop_star (rest : List UInt8) (vec : List Element) :
    compileLoop (ch '*' :: rest) vec = compileLoop rest (vec ++ [.star]) := by
  rw [compileLoop, if_neg (by decide), if_neg (by decide), if_pos rfl]

theorem compileLoop_word (hplain : ∀ c ∈ u, isPlain c = true) (rest s : List UInt8)
    (vec : List Element) : compileLoop (u ++ rest) (vec ++ [.string s]) =
      compileLoop rest (vec ++ [.string (s ++ u)]) := by
  induction u generalizing s with
  | nil => rw [List.nil_append, List.append_nil]
  | cons c u ih =>
    rw [List.cons_append, compileLoop_plain (hplain c List.mem_cons_self), pushChar_string,
      ih (fun d hd => hplain d (List.mem_cons_of_mem c hd)), List.append_assoc]
    rfl

theorem compile_pattern (hne : u ≠ []) (hplain : ∀ c ∈ u, isPlain c = true) (a b : Bool) :
    compile (stars a ++ (u ++ stars b)) =
      some (starElements a ++ [.string u] ++ starElements b) := by
  have hfirst : compile (stars a ++ (u ++ stars b)) =
      compileLoop (u ++ stars b) (starElements a) := by
    cases a with
    | true => exact compileLoop_star _ []
    | false => rfl
  obtain ⟨c, u, rfl⟩ := List.exists_cons_of_ne_nil hne
  have hpush : pushChar (starElements a) c = starElements a ++ [.string [c]] := by
    cases a with
    | true => rfl
    | false => rfl
  rw [hfirst, List.cons_append, compileLoop_plain (hplain c List.mem_cons_self), hpush,
    compileLoop_word fun d hd => hplain d (List.mem_cons_of_mem c hd)]
  cases b with
  | true =>
    refine (compileLoop_star [] _).trans ?_
    rw [compileLoop]
    rfl
  | false =>
    have hnil : starElements a ++ [Element.string (c :: u)] ++ starElements false =
        starElements a ++ [.string (c :: u)] := List.append_nil _
    rw [hnil]
    change compileLoop [] _ = _
    rw [compileLoop]
    rfl

/-! ## Matching a simple pattern -/

/-- `Glob::match` with a pattern alone.  A pattern that is not valid matches nothing. -/
def matchAlone (pat str : List UInt8) : Option Bool :=
  match compile pat with
  | none => some false
  | some glob => doMatch glob str

/-- The word is in the string, at those ends at which there is no star. -/
def Contains (a b : Bool) (u str : List UInt8) : Prop :=
  ∃ x y, str = x ++ (u ++ y) ∧ (a = false → x = []) ∧ (b = false → y = [])

theorem language_starElements (elements : List Element) (a : Bool) (str : List UInt8) :
    Language (starElements a ++ elements) str ↔
      ∃ x v, str = x ++ v ∧ (a = false → x = []) ∧ Language elements v := by
  cases a with
  | true =>
    constructor
    · rintro ⟨x, v, hstr, -, hv⟩
      exact ⟨x, v, hstr, fun h => Bool.noConfusion h, hv⟩
    · rintro ⟨x, v, hstr, -, hv⟩
      exact ⟨x, v, hstr, trivial, hv⟩
  | false =>
    constructor
    · exact fun h => ⟨[], str, rfl, fun _ => rfl, h⟩
    · rintro ⟨x, v, hstr, hx, hv⟩
      obtain rfl := hx rfl
      rw [hstr]
      exact hv

theorem language_pattern (a b : Bool) (u str : List UInt8) :
    Language (starElements a ++ [.string u] ++ starElements b) str ↔ Contains a b u str := by
  have hlast : ∀ y, Language (starElements b) y ↔ (b = false → y = []) := by
    intro y
    have h := language_starElements [] b y
    rw [List.append_nil] at h
    rw [h]
    constructor
    · rintro ⟨x, v, rfl, hx, rfl⟩ hb
      rw [hx hb]
      rfl
    · exact fun hy => ⟨y, [], (List.append_nil y).symm, hy, rfl⟩
  rw [List.append_assoc, language_starElements]
  constructor
  · rintro ⟨x, v, rfl, hx, w, y, rfl, rfl, hy⟩
    exact ⟨x, y, rfl, hx, (hlast y).mp hy⟩
  · rintro ⟨x, y, rfl, hx, hy⟩
    exact ⟨x, u ++ y, rfl, hx, u, y, rfl, rfl, (hlast y).mpr hy⟩

theorem matchAlone_pattern (hne : u ≠ []) (hplain : ∀ c ∈ u, isPlain c = true) (a b : Bool)
    (str : List UInt8) :
    ∃ found, matchAlone (stars a ++ (u ++ stars b)) str = some found ∧
      (found = true ↔ Contains a b u str) := by
  have hcompile := compile_pattern hne hplain a b
  have hrecognizes : Recognizes (starElements a ++ [.string u] ++ starElements b) str := by
    refine recognizes_of_not_meets (ne_nil_of_compile hcompile) ?_ fun ns =>
      not_meets_of_no_bracket ?_
    · cases a with
      | true =>
        cases b with
        | true => simp [starElements, List.suffix_cons_iff]
        | false => simp [starElements, List.suffix_cons_iff]
      | false =>
        cases b with
        | true => simp [starElements, List.suffix_cons_iff]
        | false => simp [starElements, List.suffix_cons_iff]
    · intro bitset
      cases a with
      | true =>
        cases b with
        | true => simp [starElements]
        | false => simp [starElements]
      | false =>
        cases b with
        | true => simp [starElements]
        | false => simp [starElements]
  obtain ⟨found, hfound, hiff⟩ := hrecognizes
  refine ⟨found, ?_, hiff.trans (language_pattern a b u str)⟩
  rw [matchAlone, hcompile]
  exact hfound

theorem eq_of_mark {x y : List UInt8} (hstr : 0 ∉ str) (h : x ++ 0 :: y = str ++ [0]) :
    x = str ∧ y = [] := by
  induction x generalizing str with
  | nil =>
    cases str with
    | nil => exact ⟨rfl, (List.cons.inj h).2⟩
    | cons d str => exact absurd ((List.cons.inj h).1 ▸ List.mem_cons_self) hstr
  | cons c x ih =>
    cases str with
    | nil =>
      have hnil : x ++ 0 :: y = [] := (List.cons.inj h).2
      exact absurd (List.append_eq_nil_iff.mp hnil).2 (List.cons_ne_nil 0 y)
    | cons d str =>
      obtain ⟨rfl, hrest⟩ := List.cons.inj h
      obtain ⟨rfl, rfl⟩ := ih (fun hmem => hstr (List.mem_cons_of_mem c hmem)) hrest
      exact ⟨rfl, rfl⟩

theorem exists_of_word {x y : List UInt8} (hne : u ≠ []) (hu : 0 ∉ u)
    (h : x ++ (u ++ y) = str ++ [0]) : ∃ z, y = z ++ [0] ∧ str = x ++ (u ++ z) := by
  rcases List.eq_nil_or_concat y with rfl | ⟨z, d, rfl⟩
  · rw [List.append_nil] at h
    have hlast := congrArg List.getLast? h
    rw [List.getLast?_append_of_ne_nil x hne, List.getLast?_concat] at hlast
    exact absurd (List.mem_of_getLast? hlast) hu
  · rw [List.concat_eq_append, ← List.append_assoc, ← List.append_assoc] at h
    obtain ⟨hstr, hd⟩ := List.append_inj' h rfl
    refine ⟨z, ?_, ?_⟩
    · rw [List.concat_eq_append, hd]
    · rw [← hstr, List.append_assoc]

theorem mark_infix_iff (hne : u ≠ []) (hu : 0 ∉ u) (hstr : 0 ∉ str) (a b : Bool) :
    mark a ++ (u ++ mark b) <:+: 0 :: (str ++ [0]) ↔ Contains a b u str := by
  constructor
  · rintro ⟨s, t, h⟩
    -- What is in front of the word is the first mark and something, or it is the mark alone.
    obtain ⟨x, hx, hrest⟩ : ∃ x, (a = false → x = []) ∧
        x ++ (u ++ (mark b ++ t)) = str ++ [0] := by
      cases s with
      | nil =>
        cases a with
        | true =>
          obtain ⟨c, u, rfl⟩ := List.exists_cons_of_ne_nil hne
          exact absurd ((List.cons.inj h).1 ▸ List.mem_cons_self) hu
        | false =>
          have hrest : u ++ mark b ++ t = str ++ [0] := (List.cons.inj h).2
          rw [List.append_assoc] at hrest
          exact ⟨[], fun _ => rfl, hrest⟩
      | cons c s =>
        cases a with
        | true =>
          have hrest : s ++ (u ++ mark b) ++ t = str ++ [0] := (List.cons.inj h).2
          rw [List.append_assoc, List.append_assoc] at hrest
          exact ⟨s, fun ha => Bool.noConfusion ha, hrest⟩
        | false =>
          have hrest : s ++ 0 :: (u ++ mark b) ++ t = str ++ [0] := (List.cons.inj h).2
          rw [List.append_assoc, List.cons_append] at hrest
          have hnil := (eq_of_mark hstr hrest).2
          rw [List.append_assoc] at hnil
          exact absurd (List.append_eq_nil_iff.mp hnil).1 hne
    cases b with
    | true =>
      obtain ⟨z, -, hz⟩ := exists_of_word hne hu hrest
      exact ⟨x, z, hz, hx, fun hb => Bool.noConfusion hb⟩
    | false =>
      have hmark : (x ++ u) ++ 0 :: t = str ++ [0] := by
        rw [← hrest, List.append_assoc]
        rfl
      obtain ⟨rfl, -⟩ := eq_of_mark hstr hmark
      exact ⟨x, [], by rw [List.append_nil], hx, fun _ => rfl⟩
  · rintro ⟨x, y, rfl, hx, hy⟩
    have hfront : ∃ s, s ++ mark a = 0 :: x := by
      cases a with
      | true => exact ⟨0 :: x, List.append_nil _⟩
      | false => exact ⟨[], by rw [hx rfl]; rfl⟩
    have hback : ∃ t, mark b ++ t = y ++ [0] := by
      cases b with
      | true => exact ⟨y ++ [0], rfl⟩
      | false => exact ⟨[], by rw [hy rfl]; rfl⟩
    obtain ⟨s, hs⟩ := hfront
    obtain ⟨t, ht⟩ := hback
    refine ⟨s, t, ?_⟩
    calc s ++ (mark a ++ (u ++ mark b)) ++ t = (s ++ mark a) ++ (u ++ (mark b ++ t)) := by
          simp only [List.append_assoc]
      _ = 0 :: x ++ (u ++ (y ++ [0])) := by rw [hs, ht]
      _ = 0 :: (x ++ (u ++ y) ++ [0]) := by simp only [List.append_assoc, List.cons_append]

end Mold.MultiGlob
