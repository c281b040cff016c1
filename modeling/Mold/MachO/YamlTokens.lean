import Mold.MachO.Yaml
import Mathlib.Data.List.TakeWhile

/-!
# Where the tokenizer ends

`tokenize_bare_string` is called wherever nothing else matches, also at a character that
strings without quotes do not have.  Then it adds an empty string and stays where it is, so
the loop that called it never ends.  `tokenize_list` skips blanks by `substr`, which throws
an exception if nothing but blanks follows.  The tokenizer ends in all other cases.
-/

namespace Mold.MachO.Yaml

open Mold.Lib

variable {n start m : ℕ} {s : Tokenizer} {c : Byte} {rest input : List Byte}

namespace Tokenizer

/-! ## What goes wrong -/

def Foreign (s : Tokenizer) : Prop :=
  match s.mode with
  | .line => False
  | .inLine _ => ∃ c ∈ s.str.head?, ¬ isBare c ∧ c ∉ text "\n['\"#:"
  | .list _ => ∃ c ∈ s.str.head?, ¬ isBare c ∧ c ∉ text "] \t\n'\","

def RunsOver (s : Tokenizer) : Prop :=
  (∃ start, s.mode = .list start) ∧ s.str ≠ [] ∧ ∀ c ∈ s.str, isListBlank c

theorem not_dash_prefix (h : ¬ isBare c) : ¬ text "- " <+: c :: rest := by
  intro hprefix
  obtain ⟨rfl, -⟩ := List.cons_prefix_cons.mp hprefix
  exact h (by decide)

theorem tokenizeBareString_of_not (hstr : s.str = c :: rest) (h : ¬ isBare c) :
    s.tokenizeBareString n = .next (s.push n (.string [])) := by
  rw [tokenizeBareString, hstr, List.takeWhile_cons_of_neg h, List.dropWhile_cons_of_neg h, ← hstr]
  rfl

theorem turn_of_foreign (h : s.Foreign) : s.turn n = .next (s.push n (.string [])) := by
  obtain ⟨str, indents, tokens, mode⟩ := s
  cases mode with
  | line => exact absurd h id
  | inLine start =>
    obtain ⟨c, hc, hbare, hother⟩ := h
    obtain ⟨rest, rfl⟩ := List.head?_eq_some_iff.mp hc
    obtain ⟨hnl, hbracket, hquote, hquote', hhash, hcolon⟩ :
        c ≠ ch '\n' ∧ c ≠ ch '[' ∧ c ≠ ch '\'' ∧ c ≠ ch '"' ∧ c ≠ ch '#' ∧ c ≠ ch ':' := by
      simpa [text] using hother
    rw [← tokenizeBareString_of_not rfl hbare]
    simp [turn, tokenizeInLine, hnl, hbracket, hquote, hquote', hhash, hcolon,
      not_dash_prefix hbare]
  | list start =>
    obtain ⟨c, hc, hbare, hother⟩ := h
    obtain ⟨rest, rfl⟩ := List.head?_eq_some_iff.mp hc
    obtain ⟨hbracket, hspace, htab, hnl, hquote, hquote', hcomma⟩ :
        c ≠ ch ']' ∧ c ≠ ch ' ' ∧ c ≠ ch '\t' ∧ c ≠ ch '\n' ∧ c ≠ ch '\'' ∧ c ≠ ch '"' ∧
          c ≠ ch ',' := by
      simpa [text] using hother
    rw [← tokenizeBareString_of_not rfl hbare]
    simp [turn, tokenizeList, isListBlank, isBlank, hbracket, hspace, htab, hnl, hquote,
      hquote', hcomma]

theorem Foreign.not_ends (h : s.Foreign) (o : Outcome) : ¬ Ends (turn n) s o :=
  Lib.not_ends (fun _ hs => ⟨_, turn_of_foreign hs, hs⟩) h

theorem RunsOver.turn (h : s.RunsOver) : s.turn n = .done .outOfRange := by
  obtain ⟨str, indents, tokens, mode⟩ := s
  obtain ⟨⟨start, rfl : mode = .list start⟩, hne, hblank⟩ := h
  obtain ⟨c, rest, rfl⟩ := List.exists_cons_of_ne_nil hne
  obtain ⟨hc, hrest⟩ := List.forall_mem_cons.mp hblank
  have hbracket : c ≠ ch ']' := by
    rintro rfl
    exact absurd hc (by decide)
  have hnone : rest.dropWhile isListBlank = [] := List.dropWhile_eq_nil_iff.mpr hrest
  simp [Tokenizer.turn, tokenizeList, hbracket, hc, hnone]

/-! ## What else the turns do -/

/-- It decreases from turn to turn: twice the length of the text, and one more at the start
of a line, where a turn may leave the text as it is. -/
def size (s : Tokenizer) : ℕ :=
  2 * s.str.length + if s.mode = .line then 1 else 0

def Advances (m : ℕ) : Turn Tokenizer Outcome → Prop
  | .next s => s.size < m
  | .done o => o ≠ .outOfRange

theorem advances_error {err : YamlError} : Advances m (.done (.error err)) := by
  simp [Advances]

theorem Advances.mono {t : Turn Tokenizer Outcome} {m' : ℕ} (h : Advances m t) (hle : m ≤ m') :
    Advances m' t := by
  cases t with
  | next s => exact h.trans_le hle
  | done o => exact h

theorem advances_next (h : s.str.length < m) : Advances (2 * m) (.next s) := by
  rw [Advances, size]
  split <;> omega

theorem length_dropWhile_le (p : Byte → Bool) (l : List Byte) :
    (l.dropWhile p).length ≤ l.length :=
  (List.dropWhile_suffix p).length_le

theorem advances_skipLine (h : s.str ≠ []) : Advances (2 * s.str.length) (.next s.skipLine) := by
  have hle := length_dropWhile_le (· ≠ ch '\n') s.str
  have hpos := List.length_pos_iff.mpr h
  apply advances_next
  rw [skipLine, List.length_tail]
  omega

theorem advances_align {pos : ℕ} : Advances (2 * s.str.length + 1) (s.align n pos) := by
  have hle : 2 * (s.str.drop pos).length < 2 * s.str.length + 1 := by
    rw [List.length_drop]
    omega
  rw [align]
  split
  · exact hle
  · dsimp only
    split
    · exact hle
    · exact advances_error

theorem advances_tokenizeLine : Advances (2 * s.str.length + 1) (s.tokenizeLine n) := by
  rw [tokenizeLine]
  split
  · simp [Advances]
  case isFalse hne =>
    have hskip : Advances (2 * s.str.length + 1) (.next s.skipLine) :=
      (advances_skipLine hne).mono (Nat.le_succ _)
    split
    · exact (@advances_skipLine (s.mark n) hne).mono (Nat.le_succ _)
    split
    · exact (advances_next (List.length_pos_iff.mpr hne)).mono (Nat.le_succ _)
    dsimp only
    split
    · exact hskip
    split
    · exact hskip
    · exact advances_align

theorem length_afterBlanks (h : s.str ≠ []) : s.afterBlanks.length < s.str.length := by
  have hle := length_dropWhile_le isBlank s.str.tail
  have hpos := List.length_pos_iff.mpr h
  rw [List.length_tail] at hle
  rw [afterBlanks]
  omega

theorem advances_continueLine {next : Tokenizer → Tokenizer} (h : s.str ≠ [])
    (hnext : ∀ s, (next s).str = s.str) : Advances (2 * s.str.length) (s.continueLine next) := by
  have hskip := advances_skipLine h
  have hlt := length_afterBlanks h
  rw [continueLine]
  split
  · exact hskip
  case h_2 c rest heq =>
    split
    · exact hskip
    · apply advances_next
      rw [hnext]
      exact heq ▸ hlt

theorem advances_tokenizeString (h : s.str ≠ []) :
    Advances (2 * s.str.length) (s.tokenizeString n c) := by
  have hle := length_dropWhile_le (· ≠ c) s.str.tail
  have hpos := List.length_pos_iff.mpr h
  rw [List.length_tail] at hle
  rw [tokenizeString]
  dsimp only
  split
  · apply advances_next
    rw [List.length_tail]
    omega
  · exact advances_error

theorem advances_tokenizeBareString (hstr : s.str = c :: rest) (hbare : isBare c) :
    Advances (2 * s.str.length) (s.tokenizeBareString n) := by
  have hle := length_dropWhile_le isBare rest
  apply advances_next
  rw [hstr, List.length_cons]
  simp only [List.dropWhile_cons_of_pos hbare]
  omega

theorem advances_tokenizeInLine (hmode : s.mode = .inLine start) (h : ¬ s.Foreign) :
    Advances (2 * s.str.length) (s.tokenizeInLine n start) := by
  rw [tokenizeInLine]
  split
  · simp [Advances]
  case h_2 c rest hstr =>
    have hne : s.str ≠ [] := hstr ▸ List.cons_ne_nil c rest
    have hrest : rest.length < s.str.length := by
      rw [hstr]
      exact Nat.lt_succ_self _
    split
    · exact advances_next hrest
    split
    · exact @advances_continueLine (s.push n .dash) _ hne fun _ => rfl
    split
    · exact advances_next hrest
    split
    · exact advances_tokenizeString hne
    split
    · exact advances_skipLine hne
    split
    · exact @advances_continueLine (s.push n .colon) _ hne fun _ => rfl
    · refine advances_tokenizeBareString hstr (by_contra fun hbare => h ?_)
      rw [Foreign, hmode]
      exact ⟨c, by rw [hstr]; rfl, hbare, by simp_all [text]⟩

theorem advances_endList (h : s.str ≠ []) : Advances (2 * s.str.length) (s.endList n) := by
  have hlt := length_afterBlanks h
  rw [endList]
  split
  · exact advances_error
  case h_2 c rest heq =>
    split
    · apply advances_next
      rw [heq] at hlt
      exact Nat.lt_of_succ_lt hlt
    · exact advances_error

theorem advances_tokenizeList (hmode : s.mode = .list start) (h : ¬ s.Foreign)
    (hover : ¬ s.RunsOver) : Advances (2 * s.str.length) (s.tokenizeList n start) := by
  rw [tokenizeList]
  split
  · exact advances_error
  case h_2 c rest hstr =>
    have hne : s.str ≠ [] := hstr ▸ List.cons_ne_nil c rest
    have hrest : rest.length < s.str.length := by
      rw [hstr]
      exact Nat.lt_succ_self _
    split
    · exact advances_endList hne
    split
    case isTrue hblank =>
      split
      case isTrue hnone =>
        refine absurd ⟨⟨start, hmode⟩, hne, ?_⟩ hover
        rw [hstr]
        exact List.forall_mem_cons.mpr ⟨hblank, List.dropWhile_eq_nil_iff.mp hnone⟩
      · exact advances_next ((length_dropWhile_le _ _).trans_lt hrest)
    split
    · exact advances_tokenizeString hne
    split
    · exact advances_next hrest
    · refine advances_tokenizeBareString hstr (by_contra fun hbare => h ?_)
      rw [Foreign, hmode]
      exact ⟨c, by rw [hstr]; rfl, hbare, by simp_all [text, isListBlank, isBlank]⟩

theorem advances_turn (h : ¬ s.Foreign) (hover : ¬ s.RunsOver) : Advances s.size (s.turn n) := by
  have hle : 2 * s.str.length ≤ s.size := Nat.le_add_right _ _
  rw [turn]
  split
  case h_1 hmode =>
    rw [size, if_pos hmode]
    exact advances_tokenizeLine
  case h_2 start hmode => exact (advances_tokenizeInLine hmode h).mono hle
  case h_3 start hmode => exact (advances_tokenizeList hmode h hover).mono hle

def Visits (input : List Byte) (s : Tokenizer) : Prop :=
  Reaches (loopStep (turn input.length)) (.next { str := input }) (.next s)

theorem exists_tokenizes_iff :
    (∃ o, Tokenizes input o ∧ o ≠ .outOfRange) ↔
      ∀ s, Visits input s → ¬ s.Foreign ∧ ¬ s.RunsOver := by
  constructor
  · rintro ⟨o, hends, ho⟩ s hs
    have hrest : Ends (turn input.length) s o := hends.of_reaches hs
    exact ⟨fun hforeign => hforeign.not_ends o hrest,
      fun hover => ho (hrest.unique (ends_of_done hover.turn))⟩
  · intro h
    have hadv : ∀ s, Visits input s → Advances s.size (s.turn input.length) := fun s hs =>
      advances_turn (h s hs).1 (h s hs).2
    obtain ⟨o, hends⟩ : ∃ o, Tokenizes input o := by
      refine exists_ends_of_invariant size (fun s s' hs hturn => ?_) (show Visits input _ from .refl)
      have hlt := hadv s hs
      rw [hturn] at hlt
      exact ⟨hs.tail (congrArg some hturn), hlt⟩
    refine ⟨o, hends, ?_⟩
    rintro rfl
    obtain ⟨s, hs, hdone⟩ := hends.exists_last
    have hne := hadv s hs
    rw [hdone] at hne
    exact hne rfl

end Tokenizer

end Mold.MachO.Yaml
