import Mold.MachO.Yaml

/-!
# Trees printed in block style

A tree of maps, lists and words can be printed in many ways: a list over several lines, with
`- ` before each element, or on one line in brackets, and everything inside of a block with
any larger indentation.  The relation `Printed` has them all.

It is one relation for the parts of a text, so that an induction over it goes through all of
them.
-/

namespace Mold.MachO.Yaml

open Mold.Lib

def Word (w : List Byte) : Prop := w ≠ [] ∧ ∀ c ∈ w, isBare c

instance (w : List Byte) : Decidable (Word w) :=
  have : Decidable (∀ c ∈ w, isBare c) := List.decidableBAll _ w
  inferInstanceAs (Decidable (_ ∧ _))

def Blanks (b : List Byte) : Prop := ∀ c ∈ b, isBlank c

instance (b : List Byte) : Decidable (Blanks b) := List.decidableBAll _ b

inductive FlowText : List (List Byte) → List Byte → Prop where
  | last {w b b' : List Byte} (hw : Word w) (hb : Blanks b) (hb' : Blanks b') :
      FlowText [w] (b ++ (w ++ (b' ++ text "]\n")))
  | cons {w b b' s : List Byte} {ws : List (List Byte)} (hw : Word w) (hb : Blanks b)
      (hb' : Blanks b') (h : FlowText ws s) :
      FlowText (w :: ws) (b ++ (w ++ (b' ++ ch ',' :: s)))

/-- The parts of a text, which show what is given here: a node in one line, a node whose lines
start at a column, one that follows at a larger column, elements of a list, and entries of a
map. -/
inductive Part where
  | flat (node : YamlNode)
  | body (d : ℕ) (node : YamlNode)
  | deeper (d : ℕ) (node : YamlNode)
  | item (d : ℕ) (node : YamlNode)
  | items (d : ℕ) (vec : List YamlNode)
  | pair (d : ℕ) (e : List Byte × YamlNode)
  | pairs (d : ℕ) (es : List (List Byte × YamlNode))

/-- A part can be printed as a text.  The text starts behind the indentation of its first
line, and has the newline of its last line. -/
inductive Printed : Part → List Byte → Prop where
  | scalar {w : List Byte} (hw : Word w) : Printed (.flat (.scalar w)) (w ++ text "\n")
  | flow {ws : List (List Byte)} {s : List Byte} (h : FlowText ws s) :
      Printed (.flat (.list (ws.map .scalar))) (ch '[' :: s)
  | flat {d : ℕ} {node : YamlNode} {s : List Byte} (h : Printed (.flat node) s) :
      Printed (.body d node) s
  | list {d : ℕ} {vec : List YamlNode} {s : List Byte} (h : Printed (.items d vec) s) :
      Printed (.body d (.list vec)) s
  -- The entries of a map come in any order.
  | map {d : ℕ} {es m : List (List Byte × YamlNode)} {s : List Byte} (hm : KeySorted m)
      (hperm : es.Perm m) (h : Printed (.pairs d es) s) : Printed (.body d (.map m)) s
  | deeper {d : ℕ} {node : YamlNode} {b i s : List Byte} (hb : Blanks b) (hi : Blanks i)
      (hd : d < i.length) (h : Printed (.body i.length node) s) :
      Printed (.deeper d node) (b ++ ch '\n' :: (i ++ s))
  | itemInline {d : ℕ} {node : YamlNode} {b s : List Byte} (hb : Blanks b)
      (h : Printed (.body (d + 2 + b.length) node) s) :
      Printed (.item d node) (text "- " ++ (b ++ s))
  | itemDeeper {d : ℕ} {node : YamlNode} {s : List Byte} (h : Printed (.deeper d node) s) :
      Printed (.item d node) (text "- " ++ s)
  | lastItem {d : ℕ} {node : YamlNode} {s : List Byte} (h : Printed (.item d node) s) :
      Printed (.items d [node]) s
  | items {d : ℕ} {node : YamlNode} {vec : List YamlNode} {i s s' : List Byte}
      (hi : Blanks i) (hd : i.length = d) (h : Printed (.item d node) s)
      (hrest : Printed (.items d vec) s') : Printed (.items d (node :: vec)) (s ++ (i ++ s'))
  | pairInline {d : ℕ} {k b s : List Byte} {node : YamlNode} (hk : Word k) (hb : Blanks b)
      (h : Printed (.flat node) s) : Printed (.pair d (k, node)) (k ++ ch ':' :: (b ++ s))
  | pairDeeper {d : ℕ} {k s : List Byte} {node : YamlNode} (hk : Word k)
      (h : Printed (.deeper d node) s) : Printed (.pair d (k, node)) (k ++ ch ':' :: s)
  | lastPair {d : ℕ} {e : List Byte × YamlNode} {s : List Byte} (h : Printed (.pair d e) s) :
      Printed (.pairs d [e]) s
  | pairs {d : ℕ} {e : List Byte × YamlNode} {es : List (List Byte × YamlNode)}
      {i s s' : List Byte} (hi : Blanks i) (hd : i.length = d) (h : Printed (.pair d e) s)
      (hrest : Printed (.pairs d es) s') : Printed (.pairs d (e :: es)) (s ++ (i ++ s'))

/-- The lines of a node, which start at a column, between the lines of the markers. -/
inductive PrintedDocument : ℕ → YamlNode → List Byte → Prop where
  | intro {d : ℕ} {node : YamlNode} {i s : List Byte} (hi : Blanks i) (hd : i.length = d)
      (h : Printed (.body d node) s) :
      PrintedDocument d node (text "---\n" ++ (i ++ (s ++ text "...\n")))

def YamlNode.rootWords : YamlNode → List (List Byte)
  | .scalar str => [str]
  | .list _ => []
  | .map m => m.map Prod.fst

/-- A line at the first column that starts like this is taken for a marker. -/
def Marked (s : List Byte) : Prop := text "---" <+: s ∨ text "..." <+: s

instance (s : List Byte) : Decidable (Marked s) := inferInstanceAs (Decidable (_ ∨ _))

/-! ## How texts start -/

inductive Leads (ws : List (List Byte)) : List Byte → Prop where
  | word {w rest : List Byte} {c : Byte} (hmem : w ∈ ws) (hw : Word w)
      (hc : c = ch '\n' ∨ c = ch ':') : Leads ws (w ++ c :: rest)
  | dash {rest : List Byte} : Leads ws (text "- " ++ rest)
  | bracket {rest : List Byte} : Leads ws (ch '[' :: rest)

variable {part : Part} {c : Byte} {w s rest i p : List Byte} {ws ws' : List (List Byte)}

theorem isBare_spec (h : isBare c) :
    ¬ isListBlank c ∧ c ∉ text "[]'\"#:," := by
  revert h
  revert c
  decide +kernel

theorem not_isBlank_of_isBare (h : isBare c) : ¬ isBlank c := fun hblank =>
  (isBare_spec h).1 (by simp [isListBlank, hblank])

theorem ne_newline_of_isBare (h : isBare c) : c ≠ ch '\n' := fun hnewline =>
  (isBare_spec h).1 (by simp [isListBlank, hnewline])

theorem Word.exists_cons (h : Word w) : ∃ c rest, w = c :: rest ∧ isBare c := by
  obtain ⟨c, rest, rfl⟩ := List.exists_cons_of_ne_nil h.1
  exact ⟨c, rest, rfl, h.2 c List.mem_cons_self⟩

def Starts (s : List Byte) : Prop :=
  ∃ c rest, s = c :: rest ∧ ¬ isBlank c ∧ c ≠ ch '\n' ∧ c ≠ ch '#'

theorem Word.starts (h : Word w) : Starts (w ++ s) := by
  obtain ⟨c, rest, rfl, hc⟩ := h.exists_cons
  refine ⟨c, rest ++ s, rfl, not_isBlank_of_isBare hc, ne_newline_of_isBare hc, ?_⟩
  rintro rfl
  exact absurd hc (by decide)

theorem Starts.append (h : Starts s) : Starts (s ++ rest) := by
  obtain ⟨c, s, rfl, hc⟩ := h
  exact ⟨c, s ++ rest, rfl, hc⟩

theorem Leads.append (h : Leads ws s) : Leads ws (s ++ rest) := by
  cases h with
  | word hmem hw hc =>
    rw [List.append_assoc]
    exact .word hmem hw hc
  | dash =>
    rw [List.append_assoc]
    exact .dash
  | bracket => exact .bracket

theorem Leads.mono (h : Leads ws s) (hsub : ∀ w ∈ ws, w ∈ ws') : Leads ws' s := by
  cases h with
  | word hmem hw hc => exact .word (hsub _ hmem) hw hc
  | dash => exact .dash
  | bracket => exact .bracket

theorem Leads.starts (h : Leads ws s) : Starts s := by
  cases h with
  | word hmem hw hc => exact hw.starts
  | dash => exact ⟨ch '-', _, rfl, by decide, by decide, by decide⟩
  | bracket => exact ⟨ch '[', _, rfl, by decide, by decide, by decide⟩

theorem prefix_of_prefix_append_cons (h : p <+: w ++ c :: rest) (hc : c ∉ p) : p <+: w := by
  induction p generalizing w with
  | nil => exact List.nil_prefix
  | cons a p ih =>
    cases w with
    | nil =>
      obtain ⟨rfl, -⟩ := List.cons_prefix_cons.mp h
      exact absurd List.mem_cons_self hc
    | cons b w =>
      obtain ⟨rfl, hrest⟩ := List.cons_prefix_cons.mp h
      exact List.cons_prefix_cons.mpr ⟨rfl, ih hrest fun hmem => hc (List.mem_cons_of_mem _ hmem)⟩

theorem Leads.not_marked (h : Leads ws s) (hws : ∀ w ∈ ws, ¬ Marked w) : ¬ Marked s := by
  cases h with
  | @word w rest c hmem hw hc =>
    have hnot : ∀ p ∈ [text "---", text "..."], c ∉ p := by
      rcases hc with rfl | rfl <;> decide
    exact fun hmarked => hws _ hmem (hmarked.imp
      (prefix_of_prefix_append_cons · (hnot _ (by simp)))
      (prefix_of_prefix_append_cons · (hnot _ (by simp))))
  | dash => simp [Marked, text, List.cons_prefix_cons, ch]
  | bracket => simp [Marked, text, List.cons_prefix_cons, ch]

def Part.words : Part → List (List Byte)
  | .flat node => node.rootWords
  | .body _ node => node.rootWords
  | .pair _ e => [e.1]
  | .pairs _ es => es.map Prod.fst
  | .deeper _ _ | .item _ _ | .items _ _ => []

theorem Printed.leads (h : Printed part s) (hpart : ∀ d node, part ≠ .deeper d node) :
    Leads part.words s := by
  induction h with
  | scalar hw => exact .word List.mem_cons_self hw (.inl rfl)
  | flow => exact .bracket
  | flat _ ih => exact ih fun _ _ => Part.noConfusion
  | list _ ih => exact ih fun _ _ => Part.noConfusion
  | map _ hperm _ ih =>
    exact (ih fun _ _ => Part.noConfusion).mono fun w hw => (hperm.map _).subset hw
  | deeper => exact absurd rfl (hpart _ _)
  | itemInline => exact .dash
  | itemDeeper => exact .dash
  | lastItem _ ih => exact ih fun _ _ => Part.noConfusion
  | items _ _ _ _ ih => exact (ih fun _ _ => Part.noConfusion).append
  | pairInline hk => exact .word List.mem_cons_self hk (.inr rfl)
  | pairDeeper hk => exact .word List.mem_cons_self hk (.inr rfl)
  | lastPair _ ih => exact ih fun _ _ => Part.noConfusion
  | pairs _ _ _ _ ih =>
    exact (ih fun _ _ => Part.noConfusion).append.mono fun w hw => by
      rw [List.mem_singleton.mp hw]
      exact List.mem_cons_self

theorem blanks_replicate (d : ℕ) : Blanks (List.replicate d (ch ' ')) := by
  intro c hc
  rw [List.eq_of_mem_replicate hc]
  decide

end Mold.MachO.Yaml
