import Mathlib.Data.List.Infix

/-!
# The longest suffix in a set of words

For a set of words that has the prefixes of its words, the longest suffix of a text that is in
the set can be kept while the text is read.  When a letter is added, it is the longest suffix
of the one before that can be continued with the letter, or the empty word.
-/

namespace Mold.Lib

variable {α : Type*}

structure LongestSuffix (S : List α → Prop) (t p : List α) : Prop where
  suffix : p <:+ t
  mem : S p
  longest : ∀ q, q <:+ t → S q → q <:+ p

def PrefixClosed (S : List α → Prop) : Prop :=
  ∀ p c, S (p ++ [c]) → S p

variable {S : List α → Prop} {t p q l : List α} {c : α}

theorem LongestSuffix.self (h : S t) : LongestSuffix S t t :=
  ⟨List.suffix_refl t, h, fun _ hq _ => hq⟩

theorem suffix_concat (h : p <:+ t) : p ++ [c] <:+ t ++ [c] :=
  (List.suffix_append_inj_of_length_eq rfl).mpr ⟨h, rfl⟩

/-- The longest suffix that can be continued becomes longer by a letter. -/
theorem LongestSuffix.append (hclosed : PrefixClosed S) (hp : LongestSuffix S t p)
    (hq : LongestSuffix (fun q => S (q ++ [c])) p q) :
    LongestSuffix S (t ++ [c]) (q ++ [c]) where
  suffix := suffix_concat (hq.suffix.trans hp.suffix)
  mem := hq.mem
  longest r hr hmem := by
    rcases List.suffix_concat_iff.mp hr with rfl | ⟨r, rfl, hrt⟩
    · exact List.nil_suffix
    · have hrp : r <:+ p := hp.longest r hrt (hclosed r c hmem)
      exact suffix_concat (hq.longest r hrp hmem)

/-- If no suffix can be continued, only the empty word is left. -/
theorem LongestSuffix.append_nil (hclosed : PrefixClosed S) (hnil : S [])
    (hp : LongestSuffix S t p) (hno : ∀ q, q <:+ p → ¬ S (q ++ [c])) :
    LongestSuffix S (t ++ [c]) [] where
  suffix := List.nil_suffix
  mem := hnil
  longest r hr hmem := by
    rcases List.suffix_concat_iff.mp hr with rfl | ⟨r, rfl, hrt⟩
    · exact List.nil_suffix
    · exact absurd hmem (hno r (hp.longest r hrt (hclosed r c hmem)))

/-- A suffix that can be continued, if the word cannot, is a suffix of the longest proper
suffix in the set. -/
theorem suffix_of_link (hclosed : PrefixClosed S) (hl : LongestSuffix S p.tail l)
    (hno : ¬ S (p ++ [c])) (hq : q <:+ p) (hmem : S (q ++ [c])) : q <:+ l := by
  refine hl.longest q ?_ (hclosed q c hmem)
  cases p with
  | nil => exact hq
  | cons d p =>
    rcases List.suffix_cons_iff.mp hq with rfl | hq
    · exact absurd hmem hno
    · exact hq

theorem LongestSuffix.of_link (hclosed : PrefixClosed S) (hl : LongestSuffix S p.tail l)
    (hno : ¬ S (p ++ [c])) (hq : LongestSuffix (fun q => S (q ++ [c])) l q) :
    LongestSuffix (fun q => S (q ++ [c])) p q where
  suffix := hq.suffix.trans (hl.suffix.trans (List.tail_suffix p))
  mem := hq.mem
  longest r hr hmem := hq.longest r (suffix_of_link hclosed hl hno hr hmem) hmem

end Mold.Lib
