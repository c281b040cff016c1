import Mold.MachO.YamlPrint

/-!
# The tokens of a printed tree

Where the lines of a node start at a column, the column is on top of the stack of
indentations.  Behind the node the stack may have larger ones above it, of blocks that the
node has opened, and the next line closes them.  With the tokens for that, the tokens of a
node are always the same for the descent: those of a block have an `indent` before them and
a `dedent` behind them.
-/

namespace Mold.MachO.Yaml

open Mold.Lib

variable {n d start : ℕ} {c : Byte} {b i w s rest : List Byte} {indents stack : List ℕ}
  {ks ks' : List Kind} {mode : Mode}

namespace Tokenizer

variable {t t' t'' : Tokenizer}

/-- The tokenizer goes from one state to another and adds tokens of some kinds, whatever the
tokens are that it has. -/
def Lexes (n : ℕ) (t : Tokenizer) (ks : List Kind) (t' : Tokenizer) : Prop :=
  ∀ tokens, ∃ new : List Token, new.map Token.kind = ks ∧
    Reaches (loopStep (turn n)) (.next { t with tokens := tokens })
      (.next { t' with tokens := tokens ++ new })

theorem Lexes.refl : Lexes n t [] t := fun tokens =>
  ⟨[], rfl, by rw [List.append_nil]; exact .refl⟩

theorem Lexes.trans (h : Lexes n t ks t') (h' : Lexes n t' ks' t'') :
    Lexes n t (ks ++ ks') t'' := by
  intro tokens
  obtain ⟨new, rfl, hreach⟩ := h tokens
  obtain ⟨new', rfl, hreach'⟩ := h' (tokens ++ new)
  refine ⟨new ++ new', List.map_append, ?_⟩
  rw [← List.append_assoc]
  exact Relation.ReflTransGen.trans hreach hreach'

theorem lexes_of_turn
    (h : ∀ tokens, ∃ new : List Token, new.map Token.kind = ks ∧
      turn n { t with tokens := tokens } = .next { t' with tokens := tokens ++ new }) :
    Lexes n t ks t' := by
  intro tokens
  obtain ⟨new, hnew, hturn⟩ := h tokens
  exact ⟨new, hnew, .head (congrArg some hturn) .refl⟩

theorem lexes_newline :
    Lexes n ⟨ch '\n' :: rest, indents, [], .inLine start⟩ [] ⟨rest, indents, [], .line⟩ :=
  lexes_of_turn fun tokens => ⟨[], rfl, by simp [turn, tokenizeInLine]⟩

variable {tokens : List Token}

theorem tokenizeBareString_word (hw : Word w) (hc : ¬ isBare c) :
    tokenizeBareString n ⟨w ++ c :: rest, indents, tokens, mode⟩ =
      .next ⟨c :: rest, indents, tokens ++ [⟨.string w, n - (w ++ c :: rest).length⟩], mode⟩ := by
  have htake : (w ++ c :: rest).takeWhile isBare = w := by
    rw [List.takeWhile_append_of_pos hw.2, List.takeWhile_cons_of_neg hc, List.append_nil]
  have hdrop : (w ++ c :: rest).dropWhile isBare = c :: rest := by
    rw [List.dropWhile_append_of_pos hw.2, List.dropWhile_cons_of_neg hc]
  simp only [tokenizeBareString, push, htake, hdrop]

theorem not_dash_prefix_word (hw : Word w) (hc : c ∉ text "- ") :
    ¬ text "- " <+: w ++ c :: rest := by
  intro hprefix
  have hmem : ch ' ' ∈ w := (prefix_of_prefix_append_cons hprefix hc).subset (by decide)
  exact absurd (hw.2 _ hmem) (by decide)

theorem ne_of_isBare (h : isBare c) :
    c ≠ ch '[' ∧ c ≠ ch ']' ∧ c ≠ ch '\'' ∧ c ≠ ch '"' ∧ c ≠ ch '#' ∧ c ≠ ch ':' ∧ c ≠ ch ',' := by
  simpa [text] using (isBare_spec h).2

theorem lexes_word (hw : Word w) (hc : ¬ isBare c) (hspace : c ≠ ch ' ') :
    Lexes n ⟨w ++ c :: rest, indents, [], .inLine start⟩ [.string w]
      ⟨c :: rest, indents, [], .inLine start⟩ := by
  refine lexes_of_turn fun tokens => ⟨[⟨.string w, n - (w ++ c :: rest).length⟩], rfl, ?_⟩
  have hdash : ¬ text "- " <+: w ++ c :: rest := by
    refine not_dash_prefix_word hw fun hmem => ?_
    rcases List.mem_pair.mp hmem with rfl | rfl
    · exact hc (by decide)
    · exact hspace rfl
  rw [← tokenizeBareString_word hw hc]
  obtain ⟨c', w, rfl, hc'⟩ := hw.exists_cons
  obtain ⟨hbracket, -, hquote, hquote', hhash, hcolon, -⟩ := ne_of_isBare hc'
  rw [List.cons_append] at hdash
  simp [turn, tokenizeInLine, hdash, ne_newline_of_isBare hc', hbracket, hquote, hquote', hhash,
    hcolon]

theorem lexes_list_word (hw : Word w) (hc : ¬ isBare c) :
    Lexes n ⟨w ++ c :: rest, indents, [], .list start⟩ [.string w]
      ⟨c :: rest, indents, [], .list start⟩ := by
  refine lexes_of_turn fun tokens => ⟨[⟨.string w, n - (w ++ c :: rest).length⟩], rfl, ?_⟩
  rw [← tokenizeBareString_word hw hc]
  obtain ⟨c', w, rfl, hc'⟩ := hw.exists_cons
  obtain ⟨-, hbracket, hquote, hquote', -, -, hcomma⟩ := ne_of_isBare hc'
  simp [turn, tokenizeList, (isBare_spec hc').1, hbracket, hquote, hquote', hcomma]

/-! ## What follows a dash or a colon -/

theorem dropWhile_blanks (hb : Blanks b) (hs : Starts s) : (b ++ s).dropWhile isBlank = s := by
  obtain ⟨c, s, rfl, hc, -⟩ := hs
  rw [List.dropWhile_append_of_pos hb, List.dropWhile_cons_of_neg hc]

theorem continueLine_of_starts {next : Tokenizer → Tokenizer} (hstr : t.str = c :: (b ++ s))
    (hb : Blanks b) (hs : Starts s) : t.continueLine next = .next (next { t with str := s }) := by
  have hafter : t.afterBlanks = s := by
    rw [afterBlanks, hstr, List.tail_cons, dropWhile_blanks hb hs]
  obtain ⟨c', s, rfl, -, hne, -⟩ := hs
  simp only [continueLine, hafter, if_neg hne]

theorem continueLine_of_newline {next : Tokenizer → Tokenizer}
    (hstr : t.str = c :: (b ++ ch '\n' :: rest)) (hc : c ≠ ch '\n') (hb : Blanks b) :
    t.continueLine next = .next { t with str := rest, mode := .line } := by
  have hafter : t.afterBlanks = ch '\n' :: rest := by
    rw [afterBlanks, hstr, List.tail_cons, List.dropWhile_append_of_pos hb]
    rfl
  have hline : ∀ x ∈ c :: b, decide (x ≠ ch '\n') = true := by
    intro x hx
    rcases List.mem_cons.mp hx with rfl | hx
    · exact decide_eq_true hc
    · refine decide_eq_true ?_
      rintro rfl
      exact absurd (hb _ hx) (by decide)
  have hskip : (t.str.dropWhile (· ≠ ch '\n')).tail = rest := by
    rw [hstr, ← List.cons_append, List.dropWhile_append_of_pos hline]
    simp
  simp only [continueLine, hafter, if_pos, skipLine, hskip]

theorem blanks_cons (hb : Blanks b) : Blanks (ch ' ' :: b) := by
  intro c hc
  rcases List.mem_cons.mp hc with rfl | hc
  · decide
  · exact hb c hc

theorem turn_dash (s : List Byte) :
    turn n ⟨text "- " ++ s, indents, tokens, .inLine start⟩ =
      (push n .dash ⟨text "- " ++ s, indents, tokens, .inLine start⟩).continueLine
        fun s => s.indent n (start - s.str.length) := by
  simp [turn, tokenizeInLine, text, List.cons_prefix_cons, ch]

theorem lexes_dash (hb : Blanks b) (hs : Starts s) :
    Lexes n ⟨text "- " ++ (b ++ s), indents, [], .inLine (d + 2 + b.length + s.length)⟩
      [.dash, .indent]
      ⟨s, (d + 2 + b.length) :: indents, [], .inLine (d + 2 + b.length + s.length)⟩ := by
  refine lexes_of_turn fun tokens =>
    ⟨[⟨.dash, n - (text "- " ++ (b ++ s)).length⟩, ⟨.indent, n - s.length⟩], rfl, ?_⟩
  refine (turn_dash (b ++ s)).trans ?_
  rw [@continueLine_of_starts (ch '-') (ch ' ' :: b) s _ _ rfl (blanks_cons hb) hs]
  simp [indent, push]

theorem lexes_dash_line (hb : Blanks b) :
    Lexes n ⟨text "- " ++ (b ++ ch '\n' :: rest), indents, [], .inLine start⟩ [.dash]
      ⟨rest, indents, [], .line⟩ := by
  refine lexes_of_turn fun tokens =>
    ⟨[⟨.dash, n - (text "- " ++ (b ++ ch '\n' :: rest)).length⟩], rfl, ?_⟩
  refine (turn_dash (b ++ ch '\n' :: rest)).trans ?_
  rw [@continueLine_of_newline (ch '-') (ch ' ' :: b) rest _ _ rfl (by decide) (blanks_cons hb)]
  rfl

theorem turn_colon (s : List Byte) :
    turn n ⟨ch ':' :: s, indents, tokens, .inLine start⟩ =
      (push n .colon ⟨ch ':' :: s, indents, tokens, .inLine start⟩).continueLine id := by
  simp [turn, tokenizeInLine, text, List.cons_prefix_cons, ch]

theorem lexes_colon (hb : Blanks b) (hs : Starts s) :
    Lexes n ⟨ch ':' :: (b ++ s), indents, [], .inLine start⟩ [.colon]
      ⟨s, indents, [], .inLine start⟩ := by
  refine lexes_of_turn fun tokens => ⟨[⟨.colon, n - (ch ':' :: (b ++ s)).length⟩], rfl, ?_⟩
  exact (turn_colon (b ++ s)).trans (continueLine_of_starts rfl hb hs)

theorem lexes_colon_line (hb : Blanks b) :
    Lexes n ⟨ch ':' :: (b ++ ch '\n' :: rest), indents, [], .inLine start⟩ [.colon]
      ⟨rest, indents, [], .line⟩ := by
  refine lexes_of_turn fun tokens =>
    ⟨[⟨.colon, n - (ch ':' :: (b ++ ch '\n' :: rest)).length⟩], rfl, ?_⟩
  exact (turn_colon (b ++ ch '\n' :: rest)).trans (continueLine_of_newline rfl (by decide) hb)

/-! ## Lists in brackets -/

theorem lexes_bracket :
    Lexes n ⟨ch '[' :: rest, indents, [], .inLine start⟩ [.lbracket]
      ⟨rest, indents, [], .list (n - (rest.length + 1))⟩ :=
  lexes_of_turn fun tokens => ⟨[⟨.lbracket, n - (rest.length + 1)⟩], rfl, by
    simp [turn, tokenizeInLine, text, List.cons_prefix_cons, ch, push]⟩

theorem lexes_list_blanks (hb : Blanks b) (hc : ¬ isListBlank c) :
    Lexes n ⟨b ++ c :: rest, indents, [], .list start⟩ [] ⟨c :: rest, indents, [], .list start⟩ := by
  cases b with
  | nil => exact .refl
  | cons c' b =>
    have hlist : ∀ x ∈ c' :: b, isListBlank x := fun x hx => by
      simp [isListBlank, hb x hx]
    obtain ⟨hc', hb'⟩ := List.forall_mem_cons.mp hlist
    have hbracket : c' ≠ ch ']' := by
      rintro rfl
      exact absurd hc' (by decide)
    have hdrop : (b ++ c :: rest).dropWhile isListBlank = c :: rest := by
      rw [List.dropWhile_append_of_pos hb', List.dropWhile_cons_of_neg hc]
    exact lexes_of_turn fun tokens => ⟨[], rfl, by
      simp [turn, tokenizeList, hbracket, hc', hdrop]⟩

theorem lexes_comma :
    Lexes n ⟨ch ',' :: rest, indents, [], .list start⟩ [.comma]
      ⟨rest, indents, [], .list start⟩ :=
  lexes_of_turn fun tokens => ⟨[⟨.comma, n - (rest.length + 1)⟩], rfl, by
    simp [turn, tokenizeList, isListBlank, isBlank, ch, push]⟩

theorem lexes_list_end :
    Lexes n ⟨text "]\n" ++ rest, indents, [], .list start⟩ [.rbracket]
      ⟨rest, indents, [], .line⟩ :=
  lexes_of_turn fun _ => ⟨[⟨.rbracket, n - (text "]\n" ++ rest).length⟩], rfl, rfl⟩

theorem exists_cons_of_blanks (hb : Blanks b) (hc : ¬ isBare c) :
    ∃ c' rest', b ++ c :: rest = c' :: rest' ∧ ¬ isBare c' := by
  cases b with
  | nil => exact ⟨c, rest, rfl, hc⟩
  | cons c' b =>
    exact ⟨c', _, rfl, fun h => not_isBlank_of_isBare h (hb c' List.mem_cons_self)⟩

theorem lexes_flow_word {b' : List Byte} (hw : Word w) (hb : Blanks b) (hb' : Blanks b')
    (hc : c = ch ',' ∨ c = ch ']') :
    Lexes n ⟨b ++ (w ++ (b' ++ c :: rest)), indents, [], .list start⟩ [.string w]
      ⟨c :: rest, indents, [], .list start⟩ := by
  have hbare : ¬ isBare c := by rcases hc with rfl | rfl <;> decide
  have hblank : ¬ isListBlank c := by rcases hc with rfl | rfl <;> decide
  have hfront : Lexes n ⟨b ++ (w ++ (b' ++ c :: rest)), indents, [], .list start⟩ []
      ⟨w ++ (b' ++ c :: rest), indents, [], .list start⟩ := by
    obtain ⟨c', w, rfl, hc'⟩ := hw.exists_cons
    exact lexes_list_blanks hb (isBare_spec hc').1
  obtain ⟨c', rest', heq, hc'⟩ := @exists_cons_of_blanks c b' rest hb' hbare
  have hword : Lexes n ⟨w ++ (b' ++ c :: rest), indents, [], .list start⟩ [.string w]
      ⟨b' ++ c :: rest, indents, [], .list start⟩ := by
    rw [heq]
    exact lexes_list_word hw hc'
  exact (hfront.trans hword).trans (lexes_list_blanks hb' hblank)

end Tokenizer

def flowKinds : List (List Byte) → List Kind
  | [] => [.rbracket]
  | [w] => [.string w, .rbracket]
  | w :: ws => .string w :: .comma :: flowKinds ws

namespace Tokenizer

variable {ws : List (List Byte)}

theorem lexes_flow (h : FlowText ws s) :
    Lexes n ⟨s ++ rest, indents, [], .list start⟩ (flowKinds ws) ⟨rest, indents, [], .line⟩ := by
  induction h with
  | last hw hb hb' =>
    simp only [List.append_assoc]
    exact (lexes_flow_word hw hb hb' (.inr rfl)).trans lexes_list_end
  | @cons w b b' s ws hw hb hb' h ih =>
    have hkinds : flowKinds (w :: ws) = [.string w] ++ ([.comma] ++ flowKinds ws) := by
      cases h <;> rfl
    rw [hkinds]
    simp only [List.append_assoc, List.cons_append]
    exact (lexes_flow_word hw hb hb' (.inl rfl)).trans (lexes_comma.trans ih)

theorem not_marked_append {s : List Byte} (hi : Blanks i) (hmark : i.length = 0 → ¬ Marked s) :
    ¬ Marked (i ++ s) := by
  cases i with
  | nil => exact hmark rfl
  | cons c i =>
    have hc := hi c List.mem_cons_self
    rintro (h | h) <;>
    · obtain ⟨rfl, -⟩ := List.cons_prefix_cons.mp h
      exact absurd hc (by decide)

theorem tokenizeLine_eq_align {tokens : List Token} (hi : Blanks i) (hs : Starts s)
    (hmark : i.length = 0 → ¬ Marked s) :
    tokenizeLine n ⟨i ++ s, indents, tokens, mode⟩ =
      align n i.length ⟨i ++ s, indents, tokens, mode⟩ := by
  have hnot := not_marked_append hi hmark
  have htake : (i ++ s).takeWhile isBlank = i := by
    obtain ⟨c, s, rfl, hc, -⟩ := hs
    rw [List.takeWhile_append_of_pos hi, List.takeWhile_cons_of_neg hc, List.append_nil]
  obtain ⟨c, s, rfl, hc, hnl, hhash⟩ := hs
  have hne : i ++ c :: s ≠ [] := List.append_ne_nil_of_right_ne_nil _ (List.cons_ne_nil _ _)
  rw [tokenizeLine, if_neg hne, if_neg fun h => hnot (.inl h), if_neg fun h => hnot (.inr h)]
  simp only [htake, List.drop_left, hnl, hhash, or_self, if_false]

theorem lexes_line_indent (hi : Blanks i) (hs : Starts s) (hd : d < i.length) :
    Lexes n ⟨i ++ s, d :: stack, [], .line⟩ [.indent]
      ⟨s, i.length :: d :: stack, [], .inLine (i.length + s.length)⟩ := by
  refine lexes_of_turn fun tokens => ⟨[⟨.indent, n - (i ++ s).length⟩], rfl, ?_⟩
  refine (tokenizeLine_eq_align hi hs fun h => absurd hd (by omega)).trans ?_
  simp [align, hd, indent, push]

variable {ps : List ℕ}

theorem lexes_line (hi : Blanks i) (hs : Starts s) (hd : i.length = d)
    (hps : ∀ p ∈ ps, d < p) (hmark : d = 0 → ¬ Marked s) :
    Lexes n ⟨i ++ s, ps ++ d :: stack, [], .line⟩ (List.replicate ps.length .dedent)
      ⟨s, d :: stack, [], .inLine (d + s.length)⟩ := by
  refine lexes_of_turn fun tokens =>
    ⟨List.replicate ps.length ⟨.dedent, n - (i ++ s).length⟩, List.map_replicate, ?_⟩
  refine (tokenizeLine_eq_align hi hs fun h => hmark (hd ▸ h)).trans ?_
  subst hd
  have htop : ¬ (ps ++ i.length :: stack).headD 0 < i.length := by
    cases ps with
    | nil => exact lt_irrefl _
    | cons p ps => exact not_lt_of_gt (hps p List.mem_cons_self)
  have htake : (ps ++ i.length :: stack).takeWhile (i.length < ·) = ps := by
    rw [List.takeWhile_append_of_pos fun p hp => decide_eq_true (hps p hp),
      List.takeWhile_cons_of_neg (by simp), List.append_nil]
  simp only [align, if_neg htop, htake]
  simp [dedent]

theorem lexes_marker :
    Lexes n ⟨text "---\n" ++ rest, [0], [], .line⟩ [.endMarker] ⟨rest, [0], [], .line⟩ :=
  lexes_of_turn fun tokens => ⟨[⟨.endMarker, n - (text "---\n" ++ rest).length⟩], rfl, by
    simp [turn, tokenizeLine, text, List.cons_prefix_cons, ch, mark, dedent, push, skipLine]⟩

theorem lexes_end :
    Lexes n ⟨text "...\n", indents, [], .line⟩
      (List.replicate (indents.length - 1) .dedent ++ [.endMarker])
      ⟨[], indents.drop (indents.length - 1), [], .line⟩ :=
  lexes_of_turn fun tokens =>
    ⟨List.replicate (indents.length - 1) ⟨.dedent, n - 4⟩ ++ [⟨.endMarker, n - 4⟩], by simp, by
      simp [turn, tokenizeLine, text, List.cons_prefix_cons, ch, mark, dedent, push]⟩

/-! ## Parts -/

def LexesFlat (s : List Byte) (ks : List Kind) : Prop :=
  ∀ n indents start rest,
    Lexes n ⟨s ++ rest, indents, [], .inLine start⟩ ks ⟨rest, indents, [], .line⟩

/-- A text in the column `d` has tokens of these kinds, and leaves blocks open at the columns
`ps`. -/
def LexesAt (d : ℕ) (s : List Byte) (ks : List Kind) (ps : List ℕ) : Prop :=
  (∀ p ∈ ps, d < p) ∧ ∀ n stack rest,
    Lexes n ⟨s ++ rest, d :: stack, [], .inLine (d + (s ++ rest).length)⟩ ks
      ⟨rest, ps ++ d :: stack, [], .line⟩

/-- A text that continues a line of the column `d` with nothing, and has tokens of these kinds
on the lines that follow. -/
def LexesBelow (d : ℕ) (s : List Byte) (ks : List Kind) (ps : List ℕ) : Prop :=
  (∀ p ∈ ps, d < p) ∧ ∃ b line, Blanks b ∧ s = b ++ ch '\n' :: line ∧ ∀ n stack rest,
    Lexes n ⟨line ++ rest, d :: stack, [], .line⟩ ks ⟨rest, ps ++ d :: stack, [], .line⟩

theorem lexesFlat_scalar (hw : Word w) : LexesFlat (w ++ text "\n") [.string w] := by
  intro n indents start rest
  rw [List.append_assoc]
  exact (lexes_word hw (by decide) (by decide)).trans lexes_newline

theorem lexesFlat_flow (h : FlowText ws s) :
    LexesFlat (ch '[' :: s) (.lbracket :: flowKinds ws) := fun _ _ _ _ =>
  lexes_bracket.trans (lexes_flow h)

theorem LexesFlat.at (h : LexesFlat s ks) : LexesAt d s ks [] :=
  ⟨fun _ hp => absurd hp List.not_mem_nil, fun n stack rest => h n (d :: stack) _ rest⟩

theorem LexesAt.append {ps ps' : List ℕ} {s' : List Byte}
    (h : LexesAt d s ks ps) (h' : LexesAt d s' ks' ps') (hi : Blanks i) (hd : i.length = d)
    (hleads : Leads ws s') (hws : d = 0 → ∀ w ∈ ws, ¬ Marked w) :
    LexesAt d (s ++ (i ++ s')) (ks ++ (List.replicate ps.length .dedent ++ ks')) ps' := by
  refine ⟨h'.1, fun n stack rest => ?_⟩
  have hline := @lexes_line n d i (s' ++ rest) stack ps hi hleads.append.starts hd h.1
    fun hzero => hleads.append.not_marked (hws hzero)
  have hfront := h.2 n stack (i ++ (s' ++ rest))
  simp only [List.append_assoc]
  exact hfront.trans (hline.trans (h'.2 n stack rest))

theorem LexesAt.below (h : LexesAt i.length s ks ps) (hb : Blanks b)
    (hi : Blanks i) (hd : d < i.length) (hs : Starts s) :
    LexesBelow d (b ++ ch '\n' :: (i ++ s)) (.indent :: ks) (ps ++ [i.length]) := by
  refine ⟨fun p hp => ?_, b, i ++ s, hb, rfl, fun n stack rest => ?_⟩
  · rcases List.mem_append.mp hp with hp | hp
    · exact hd.trans (h.1 p hp)
    · rwa [List.mem_singleton.mp hp]
  · have hline := @lexes_line_indent n d i (s ++ rest) stack hi hs.append hd
    simp only [List.append_assoc]
    exact hline.trans (h.2 n (d :: stack) rest)

theorem LexesAt.dash (h : LexesAt (d + 2 + b.length) s ks ps) (hb : Blanks b) (hs : Starts s) :
    LexesAt d (text "- " ++ (b ++ s)) (.dash :: .indent :: ks) (ps ++ [d + 2 + b.length]) := by
  refine ⟨fun p hp => ?_, fun n stack rest => ?_⟩
  · rcases List.mem_append.mp hp with hp | hp
    · have hlt := h.1 p hp
      omega
    · rw [List.mem_singleton.mp hp]
      omega
  · have hdash := @lexes_dash n d b (s ++ rest) (d :: stack) hb hs.append
    have hlength : d + (text "- " ++ (b ++ (s ++ rest))).length =
        d + 2 + b.length + (s ++ rest).length := by
      have htext : (text "- ").length = 2 := rfl
      rw [List.length_append, List.length_append]
      omega
    simp only [List.append_assoc, hlength]
    exact hdash.trans (h.2 n (d :: stack) rest)

theorem LexesBelow.dash (h : LexesBelow d s ks ps) :
    LexesAt d (text "- " ++ s) (.dash :: ks) ps := by
  obtain ⟨hps, b, line, hb, rfl, hlines⟩ := h
  refine ⟨hps, fun n stack rest => ?_⟩
  simp only [List.append_assoc, List.cons_append]
  exact (lexes_dash_line hb).trans (hlines n stack rest)

theorem LexesFlat.pair {key : List Byte} (h : LexesFlat s ks) (hk : Word key) (hb : Blanks b)
    (hs : Starts s) :
    LexesAt d (key ++ ch ':' :: (b ++ s)) (.string key :: .colon :: ks) [] := by
  refine ⟨fun _ hp => absurd hp List.not_mem_nil, fun n stack rest => ?_⟩
  simp only [List.append_assoc, List.cons_append]
  exact (lexes_word hk (by decide) (by decide)).trans
    ((lexes_colon hb hs.append).trans (h n (d :: stack) _ rest))

theorem LexesBelow.pair {key : List Byte} (h : LexesBelow d s ks ps)
    (hk : Word key) : LexesAt d (key ++ ch ':' :: s) (.string key :: .colon :: ks) ps := by
  obtain ⟨hps, b, line, hb, rfl, hlines⟩ := h
  refine ⟨hps, fun n stack rest => ?_⟩
  simp only [List.append_assoc, List.cons_append]
  exact (lexes_word hk (by decide) (by decide)).trans
    ((lexes_colon_line hb).trans (hlines n stack rest))

end Tokenizer

end Mold.MachO.Yaml
