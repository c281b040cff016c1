import Mold.Common.Glob
import Mathlib.Data.List.TakeWhile

/-!
# The tokens of linker scripts

`tokenize` of `linker-script.cc` splits linker scripts, version scripts and dynamic lists.
Texts between quotes are tokens, and so are runs of word characters, and any other character
alone.  As the characters of comments are word characters, a comment begins only where a token
would begin: `foo/*bar*/` is one token.

`Renders` is the other direction: it says which texts have given tokens.
-/

namespace Mold.Elf.Script

open Glob (ch)

def str (s : String) : List UInt8 := s.toList.map ch

abbrev Token := List UInt8

/-- How a script is refused.  An error of the syntax is shown at a place in the script. -/
inductive Failure where
  | syntaxError (errpos : List UInt8) (message : String)
  | fatal (message : String)
  | outOfFuel
  deriving DecidableEq

section Results

variable {α β : Type} {x : Except Failure α} {f : α → Except Failure β} {a : α} {b : β}
  {post : α → Prop} {post' : β → Prop}

def Reads (x : Except Failure α) (a : α) : Prop := x = .error .outOfFuel ∨ x = .ok a

theorem Reads.bind (hx : Reads x a) (hf : Reads (f a) b) : Reads (x >>= f) b := by
  rcases hx with rfl | rfl
  · exact .inl rfl
  · exact hf

theorem Reads.ok_bind (hx : x = .ok a) (hf : Reads (f a) b) : Reads (x >>= f) b :=
  .bind (.inr hx) hf

/-- There is fuel enough, and every result has a property. -/
def Ensures (x : Except Failure α) (post : α → Prop) : Prop :=
  match x with
  | .error e => e ≠ .outOfFuel
  | .ok a => post a

theorem Ensures.bind (hx : Ensures x post) (hf : ∀ a, post a → Ensures (f a) post') :
    Ensures (x >>= f) post' := by
  cases x with
  | error e => exact hx
  | ok a => exact hf a hx

theorem Ensures.mono {weaker : α → Prop} (hx : Ensures x post) (h : ∀ a, post a → weaker a) :
    Ensures x weaker := by
  cases x with
  | error e => exact hx
  | ok a => exact h a hx

theorem Ensures.map {g : α → β} (hx : Ensures x post) (h : ∀ a, post a → post' (g a)) :
    Ensures (x.map g) post' := by
  cases x with
  | error e => exact hx
  | ok a => exact h a hx

theorem Ensures.eq_ok (hx : Ensures x post) (ha : Reads x a) : x = .ok a := by
  refine ha.resolve_left ?_
  rintro rfl
  exact hx rfl

end Results

/-! ## The tokenizer -/

/-- `std::string_view::find` for a text that is not empty. -/
def find (pat : List UInt8) : List UInt8 → Option ℕ
  | [] => none
  | c :: s => if pat <+: c :: s then some 0 else (find pat s).map (· + 1)

/-- `isspace` -/
def isSpace (c : UInt8) : Bool := c ∈ [9, 10, 11, 12, 13, 32]

def isWord (c : UInt8) : Bool :=
  c ∈ str "ABCDEFGHIJKLMNOPQRSTUVWXYZabcdefghijklmnopqrstuvwxyz" ++
    str "0123456789_.$/\\~=+[]*?-!^:"

def wordEnd (input : List UInt8) : ℕ :=
  let pos := (input.takeWhile isWord).length
  if pos = 0 then 1 else pos

theorem wordEnd_pos (input : List UInt8) : 0 < wordEnd input := by
  rw [wordEnd]
  split <;> omega

def tokenize (input : List UInt8) : Except Failure (List Token) :=
  match input with
  | [] => .ok []
  | c :: rest =>
    if isSpace c then tokenize rest
    else if str "/*" <+: c :: rest then
      match find (str "*/") ((c :: rest).drop 2) with
      | none => .error (.syntaxError (c :: rest) "unclosed comment")
      | some pos => tokenize ((c :: rest).drop (pos + 2 + 2))
    else if c = ch '#' then
      match find (str "\n") rest with
      | none => .ok []
      | some pos => tokenize ((c :: rest).drop (pos + 1 + 1))
    else if c = ch '"' then
      match find (str "\"") rest with
      | none => .error (.syntaxError (c :: rest) "unclosed string literal")
      | some pos =>
        (tokenize ((c :: rest).drop (pos + 1 + 1))).map ((c :: rest).take (pos + 1 + 1) :: ·)
    else
      (tokenize ((c :: rest).drop (wordEnd (c :: rest)))).map
        ((c :: rest).take (wordEnd (c :: rest)) :: ·)
termination_by input.length
decreasing_by
  all_goals simp only [List.length_drop, List.length_cons]
  all_goals have := wordEnd_pos (c :: rest)
  all_goals omega

/-! ## What renders tokens -/

inductive Renders : List Token → List UInt8 → Prop where
  | nil : Renders [] []
  | space {ts s c} (hc : isSpace c = true) (h : Renders ts s) : Renders ts (c :: s)
  | comment {ts s body} (hbody : ¬ str "*/" <:+: body ++ str "*") (h : Renders ts s) :
      Renders ts (str "/*" ++ (body ++ (str "*/" ++ s)))
  | line {ts s body} (hbody : ch '\n' ∉ body) (h : Renders ts s) :
      Renders ts (ch '#' :: (body ++ (str "\n" ++ s)))
  | lastLine {body} (hbody : ch '\n' ∉ body) : Renders [] (ch '#' :: body)
  | quoted {ts s body} (hbody : ch '"' ∉ body) (h : Renders ts s) :
      Renders ((ch '"' :: (body ++ str "\"")) :: ts) (ch '"' :: (body ++ (str "\"" ++ s)))
  -- A word goes on as far as it can.
  | word {ts s w} (hne : w ≠ []) (hw : ∀ c ∈ w, isWord c = true)
      (hopen : ¬ str "/*" <+: w) (hend : ∀ c ∈ s.head?, isWord c = false) (h : Renders ts s) :
      Renders (w :: ts) (w ++ s)
  | char {ts s c}
      (hc : isSpace c = false ∧ isWord c = false ∧ c ≠ ch '#' ∧ c ≠ ch '"') (h : Renders ts s) :
      Renders ([c] :: ts) (c :: s)

section Find

variable {pat s body rest : List UInt8}

theorem find_append (hpat : pat ≠ []) (hbody : ¬ pat <:+: (body ++ pat).dropLast)
    (rest : List UInt8) : find pat (body ++ (pat ++ rest)) = some body.length := by
  induction body with
  | nil =>
    obtain ⟨c, pat, rfl⟩ := List.exists_cons_of_ne_nil hpat
    exact if_pos (List.prefix_append (c :: pat) rest)
  | cons c body ih =>
    have hlast : (c :: body ++ pat).dropLast = c :: (body ++ pat).dropLast :=
      List.dropLast_cons_of_ne_nil (List.append_ne_nil_of_right_ne_nil _ hpat)
    rw [hlast, List.infix_cons_iff, not_or] at hbody
    have hfirst : ¬ pat <+: c :: (body ++ (pat ++ rest)) := by
      intro h
      refine hbody.1 (List.prefix_of_prefix_length_le h ?_ ?_)
      · rw [← hlast]
        refine (List.dropLast_prefix _).trans ?_
        exact ⟨rest, by simp⟩
      · simp only [List.length_cons, List.length_dropLast, List.length_append]
        omega
    exact (if_neg hfirst).trans (congrArg (Option.map (· + 1)) (ih hbody.2))

theorem exists_of_find {pos : ℕ} (hpat : pat ≠ []) (h : find pat s = some pos) :
    ∃ body rest, s = body ++ (pat ++ rest) ∧ body.length = pos ∧
      ¬ pat <:+: (body ++ pat).dropLast := by
  induction s generalizing pos with
  | nil => cases h
  | cons c s ih =>
    rw [find] at h
    split at h
    case isTrue hfirst =>
      obtain ⟨rest, hrest⟩ := hfirst
      refine ⟨[], rest, hrest.symm, Option.some.inj h, fun hinfix => ?_⟩
      have hlen := hinfix.length_le
      have hpos := List.length_pos_iff.mpr hpat
      rw [List.nil_append, List.length_dropLast] at hlen
      omega
    case isFalse hfirst =>
      obtain ⟨pos, hpos, rfl⟩ := Option.map_eq_some_iff.mp h
      obtain ⟨body, rest, rfl, rfl, hbody⟩ := ih hpos
      refine ⟨c :: body, rest, rfl, rfl, ?_⟩
      rw [List.cons_append,
        List.dropLast_cons_of_ne_nil (List.append_ne_nil_of_right_ne_nil _ hpat),
        List.infix_cons_iff, not_or]
      refine ⟨fun hpre => hfirst (hpre.trans ?_), hbody⟩
      refine (List.cons_prefix_cons.mpr ⟨rfl, List.dropLast_prefix _⟩).trans ?_
      exact ⟨rest, by simp⟩

theorem find_eq_none_iff (hpat : pat ≠ []) : find pat s = none ↔ ¬ pat <:+: s := by
  induction s with
  | nil => simp [find, hpat]
  | cons c s ih =>
    rw [find, List.infix_cons_iff, not_or]
    split
    case isTrue h => simp [h]
    case isFalse h => simp [h, ih]

end Find

section Loop

variable {ts : List Token} {s body rest w : List UInt8} {c : UInt8} {pos : ℕ}

theorem find_char_append (hbody : c ∉ body) (rest : List UInt8) :
    find [c] (body ++ ([c] ++ rest)) = some body.length := by
  refine find_append (List.cons_ne_nil c []) ?_ rest
  rwa [List.dropLast_concat, List.singleton_infix_iff]

theorem exists_of_find_char (h : find [c] s = some pos) :
    ∃ body rest, s = body ++ ([c] ++ rest) ∧ body.length = pos ∧ c ∉ body := by
  obtain ⟨body, rest, hs, hpos, hbody⟩ := exists_of_find (List.cons_ne_nil c []) h
  rw [List.dropLast_concat, List.singleton_infix_iff] at hbody
  exact ⟨body, rest, hs, hpos, hbody⟩

theorem find_char_eq_none_iff : find [c] s = none ↔ c ∉ s := by
  rw [find_eq_none_iff (List.cons_ne_nil c []), List.singleton_infix_iff]

theorem close_ne_nil : str "*/" ≠ [] := by decide

theorem dropLast_append_close (body : List UInt8) :
    (body ++ str "*/").dropLast = body ++ str "*" :=
  List.dropLast_append_of_ne_nil close_ne_nil

theorem of_isWord (h : isWord c = true) : isSpace c = false ∧ c ≠ ch '#' ∧ c ≠ ch '"' := by
  have hall : (str "ABCDEFGHIJKLMNOPQRSTUVWXYZabcdefghijklmnopqrstuvwxyz" ++
      str "0123456789_.$/\\~=+[]*?-!^:").all
        (fun c => !isSpace c && c != ch '#' && c != ch '"') = true := by
    decide
  simpa [and_assoc] using List.all_eq_true.mp hall c (of_decide_eq_true h)

theorem isWord_star : isWord (ch '*') = true := by decide

theorem isSpace_slash : isSpace (ch '/') = false := by decide

theorem tokenize_space (hc : isSpace c = true) : tokenize (c :: s) = tokenize s := by
  rw [tokenize, if_pos hc]

theorem drop_comment (body s : List UInt8) :
    (str "/*" ++ (body ++ (str "*/" ++ s))).drop (body.length + 2 + 2) = s := by
  have hopen : str "/*" = [ch '/', ch '*'] := rfl
  have hclose : str "*/" = [ch '*', ch '/'] := rfl
  simp [hopen, hclose]

theorem tokenize_comment (hbody : ¬ str "*/" <:+: body ++ str "*") :
    tokenize (str "/*" ++ (body ++ (str "*/" ++ s))) = tokenize s := by
  have hopen : str "/*" <+: ch '/' :: (str "*" ++ (body ++ (str "*/" ++ s))) :=
    List.prefix_append (str "/*") _
  have hfind : find (str "*/")
      ((ch '/' :: (str "*" ++ (body ++ (str "*/" ++ s)))).drop 2) = some body.length :=
    find_append close_ne_nil (dropLast_append_close body ▸ hbody) s
  change tokenize (ch '/' :: (str "*" ++ (body ++ (str "*/" ++ s)))) = _
  rw [tokenize, if_neg (Bool.eq_false_iff.mp isSpace_slash), if_pos hopen, hfind]
  exact congrArg tokenize (drop_comment body s)

theorem not_open_of_ne (hc : c ≠ ch '/') : ¬ str "/*" <+: c :: s :=
  fun h => hc (List.cons_prefix_cons.mp h).1.symm

theorem drop_behind (c d : UInt8) (body s : List UInt8) :
    (c :: (body ++ ([d] ++ s))).drop (body.length + 1 + 1) = s := by
  simp

theorem take_quoted (c d : UInt8) (body s : List UInt8) :
    (c :: (body ++ ([d] ++ s))).take (body.length + 1 + 1) = c :: (body ++ [d]) := by
  simp [List.take_append]

theorem tokenize_line (hbody : ch '\n' ∉ body) :
    tokenize (ch '#' :: (body ++ (str "\n" ++ s))) = tokenize s := by
  have hfind : find (str "\n") (body ++ (str "\n" ++ s)) = some body.length :=
    find_char_append hbody s
  rw [tokenize, if_neg (by decide), if_neg (not_open_of_ne (by decide)), if_pos rfl, hfind]
  exact congrArg tokenize (drop_behind _ _ body s)

theorem tokenize_lastLine (hbody : ch '\n' ∉ body) : tokenize (ch '#' :: body) = .ok [] := by
  have hfind : find (str "\n") body = none := find_char_eq_none_iff.mpr hbody
  rw [tokenize, if_neg (by decide), if_neg (not_open_of_ne (by decide)), if_pos rfl, hfind]

theorem tokenize_quoted (hbody : ch '"' ∉ body) :
    tokenize (ch '"' :: (body ++ (str "\"" ++ s))) =
      (tokenize s).map ((ch '"' :: (body ++ str "\"")) :: ·) := by
  have hfind : find (str "\"") (body ++ (str "\"" ++ s)) = some body.length :=
    find_char_append hbody s
  have htake : (ch '"' :: (body ++ (str "\"" ++ s))).take (body.length + 1 + 1) =
      ch '"' :: (body ++ str "\"") := take_quoted _ _ body s
  have hdrop : (ch '"' :: (body ++ (str "\"" ++ s))).drop (body.length + 1 + 1) = s :=
    drop_behind _ _ body s
  rw [tokenize, if_neg (by decide), if_neg (not_open_of_ne (by decide)), if_neg (by decide),
    if_pos rfl, hfind]
  dsimp only
  rw [htake, hdrop]

theorem tokenize_wordEnd (hc : isSpace c = false ∧ c ≠ ch '#' ∧ c ≠ ch '"')
    (hopen : ¬ str "/*" <+: c :: rest) :
    tokenize (c :: rest) = (tokenize ((c :: rest).drop (wordEnd (c :: rest)))).map
      ((c :: rest).take (wordEnd (c :: rest)) :: ·) := by
  rw [tokenize, if_neg (Bool.eq_false_iff.mp hc.1), if_neg hopen, if_neg hc.2.1, if_neg hc.2.2]

theorem wordEnd_word (hne : w ≠ []) (hw : ∀ c ∈ w, isWord c = true)
    (hend : ∀ c ∈ s.head?, isWord c = false) : wordEnd (w ++ s) = w.length := by
  have htake : (w ++ s).takeWhile isWord = w := by
    rw [List.takeWhile_append_of_pos hw]
    cases s with
    | nil => exact List.append_nil w
    | cons c s =>
      rw [List.takeWhile_cons_of_neg (Bool.eq_false_iff.mp (hend c rfl)), List.append_nil]
  rw [wordEnd, htake]
  exact if_neg fun h => hne (List.eq_nil_of_length_eq_zero h)

theorem wordEnd_char (hc : isWord c = false) : wordEnd (c :: s) = 1 := by
  rw [wordEnd, List.takeWhile_cons_of_neg (Bool.eq_false_iff.mp hc)]
  rfl

theorem tokenize_word (hne : w ≠ []) (hw : ∀ c ∈ w, isWord c = true) (hopen : ¬ str "/*" <+: w)
    (hend : ∀ c ∈ s.head?, isWord c = false) :
    tokenize (w ++ s) = (tokenize s).map (w :: ·) := by
  have hlength := wordEnd_word hne hw hend
  obtain ⟨c, w, rfl⟩ := List.exists_cons_of_ne_nil hne
  -- A slash at the end of the word has no star behind it, as that would be part of the word.
  have hopen' : ¬ str "/*" <+: c :: (w ++ s) := by
    intro h
    cases w with
    | nil =>
      obtain ⟨-, rest, hrest⟩ := List.cons_prefix_cons.mp h
      have hfalse := hend (ch '*') (by rw [show s = ch '*' :: rest from hrest.symm]; rfl)
      rw [isWord_star] at hfalse
      cases hfalse
    | cons d w =>
      refine hopen (List.prefix_of_prefix_length_le h (List.prefix_append (c :: d :: w) s) ?_)
      exact Nat.le_add_left 2 w.length
  have hword := tokenize_wordEnd (of_isWord (hw c List.mem_cons_self)) hopen'
  rw [← List.cons_append] at hword
  rw [hword, hlength, List.drop_left, List.take_left]

theorem tokenize_char
    (hc : isSpace c = false ∧ isWord c = false ∧ c ≠ ch '#' ∧ c ≠ ch '"') :
    tokenize (c :: s) = (tokenize s).map ([c] :: ·) := by
  have hslash : c ≠ ch '/' := by
    rintro rfl
    exact absurd hc.2.1 (by decide)
  rw [tokenize_wordEnd ⟨hc.1, hc.2.2⟩ (not_open_of_ne hslash), wordEnd_char hc.2.1]
  rfl

theorem tokenize_of_renders (h : Renders ts s) : tokenize s = .ok ts := by
  induction h with
  | nil => rw [tokenize]
  | space hc _ ih => rw [tokenize_space hc, ih]
  | comment hbody _ ih => rw [tokenize_comment hbody, ih]
  | line hbody _ ih => rw [tokenize_line hbody, ih]
  | lastLine hbody => exact tokenize_lastLine hbody
  | quoted hbody _ ih =>
    rw [tokenize_quoted hbody, ih]
    rfl
  | word hne hw hopen hend _ ih =>
    rw [tokenize_word hne hw hopen hend, ih]
    rfl
  | char hc _ ih =>
    rw [tokenize_char hc, ih]
    rfl

theorem renders_wordEnd (hc : isSpace c = false ∧ c ≠ ch '#' ∧ c ≠ ch '"')
    (hopen : ¬ str "/*" <+: c :: rest)
    (h : Renders ts ((c :: rest).drop (wordEnd (c :: rest)))) :
    Renders ((c :: rest).take (wordEnd (c :: rest)) :: ts) (c :: rest) := by
  cases hword : isWord c with
  | false =>
    rw [wordEnd_char hword] at h ⊢
    exact .char ⟨hc.1, hword, hc.2⟩ h
  | true =>
    have hw : ∀ d ∈ (c :: rest).takeWhile isWord, isWord d = true :=
      fun d hd => List.mem_takeWhile_imp hd
    have hend : ∀ d ∈ ((c :: rest).dropWhile isWord).head?, isWord d = false := by
      intro d hd
      have hnot := List.head?_dropWhile_not isWord (c :: rest)
      rw [Option.mem_def.mp hd] at hnot
      simpa using hnot
    have hne : (c :: rest).takeWhile isWord ≠ [] := by
      rw [List.takeWhile_cons_of_pos hword]
      exact List.cons_ne_nil _ _
    have hsplit : c :: rest = (c :: rest).takeWhile isWord ++ (c :: rest).dropWhile isWord :=
      List.takeWhile_append_dropWhile.symm
    generalize (c :: rest).takeWhile isWord = w at *
    generalize (c :: rest).dropWhile isWord = s at *
    rw [hsplit] at h hopen ⊢
    rw [wordEnd_word hne hw hend, List.drop_left] at h
    rw [wordEnd_word hne hw hend, List.take_left]
    exact .word hne hw (fun hpre => hopen (hpre.trans (List.prefix_append w s))) hend h

theorem ensures_tokenize : Ensures (tokenize s) fun ts => Renders ts s := by
  fun_induction tokenize s with
  | case1 => exact .nil
  | case2 c rest hc ih => exact ih.mono fun ts h => .space hc h
  | case3 c rest hc hopen hfind => exact nofun
  | case4 c rest hc hopen pos hfind ih =>
    obtain ⟨s, hs⟩ := hopen
    obtain ⟨body, s, rfl, rfl, hbody⟩ := exists_of_find close_ne_nil
      (show find (str "*/") s = some pos by rwa [← hs] at hfind)
    rw [dropLast_append_close] at hbody
    rw [← hs] at ih ⊢
    rw [drop_comment] at ih ⊢
    exact ih.mono fun ts h => .comment hbody h
  | case5 rest hfind hc hopen => exact .lastLine (find_char_eq_none_iff.mp hfind)
  | case6 rest pos hfind hc hopen ih =>
    obtain ⟨body, s, rfl, rfl, hbody⟩ := exists_of_find_char hfind
    rw [drop_behind] at ih ⊢
    exact ih.mono fun ts h => .line hbody h
  | case7 rest hfind hc hopen hline => exact nofun
  | case8 rest pos hfind hc hopen hline ih =>
    obtain ⟨body, s, rfl, rfl, hbody⟩ := exists_of_find_char hfind
    rw [drop_behind] at ih ⊢
    rw [take_quoted]
    exact ih.map fun ts h => .quoted hbody h
  | case9 c rest hc hopen hline hquote ih =>
    exact ih.map fun ts h => renders_wordEnd ⟨Bool.eq_false_iff.mpr hc, hline, hquote⟩ hopen h

end Loop

end Mold.Elf.Script
