import Mathlib.Data.List.Infix

/-!
# Glob patterns

`Glob` of `glob.cc` matches strings of bytes against patterns such as `foo*[a-z]?`.
`compile` reads a pattern into a list of elements, and `doMatch` runs over the elements and
goes back to the last star where they do not match.

`bitset[str[0]]` takes a `char` as an index.  It is a signed type, so a byte above 0x7f is
an index far out of the bitset.  `doMatch` has no result where that happens.
-/

namespace Mold.Glob

def ch (c : Char) : UInt8 := c.toUInt8

inductive Element where
  | string (str : List UInt8)
  | star
  | question
  | bracket (bitset : UInt8 → Bool)

/-! ## Compiling a pattern -/

def checkRange (start last : UInt8) (pat : List UInt8) : Option ((UInt8 × UInt8) × List UInt8) :=
  if last < start then none else some ((start, last), pat)

/-- What one turn of the loop over a bracket expression reads: the first and the last byte
of a range, which may be one byte, and the rest of the pattern. -/
def bracketItem (pat : List UInt8) : Option ((UInt8 × UInt8) × List UInt8) :=
  match if pat.head? = some (ch '\\') then pat.tail else pat with
  | [] => none
  | start :: dash :: last :: pat =>
    if dash = ch '-' then
      if last = ch '\\' then
        match pat with
        | [] => none
        | last :: pat => checkRange start last pat
      else
        checkRange start last pat
    else
      some ((start, start), dash :: last :: pat)
  | c :: pat => some ((c, c), pat)

variable {pat rest : List UInt8} {range : UInt8 × UInt8} {bitset bitset' : UInt8 → Bool}

theorem of_checkRange {start last : UInt8} (h : checkRange start last pat = some (range, rest)) :
    rest = pat := by
  rw [checkRange] at h
  split at h
  · cases h
  · cases h
    rfl

theorem length_bracketItem (h : bracketItem pat = some (range, rest)) :
    rest.length < pat.length := by
  have hskip : (if pat.head? = some (ch '\\') then pat.tail else pat).length ≤ pat.length := by
    split
    · rw [List.length_tail]
      exact Nat.sub_le _ _
    · exact Nat.le_refl _
  refine Nat.lt_of_lt_of_le ?_ hskip
  rw [bracketItem] at h
  split at h
  case h_1 => cases h
  case h_2 start dash last pat' heq =>
    rw [heq]
    split at h
    · split at h
      · split at h
        · cases h
        · rw [of_checkRange h]
          exact Nat.lt_add_of_pos_right (Nat.succ_pos 3)
      · rw [of_checkRange h]
        exact Nat.lt_add_of_pos_right (Nat.succ_pos 2)
    · cases h
      exact Nat.lt_succ_self _
  case h_3 c pat' _ heq =>
    rw [heq]
    cases h
    exact Nat.lt_succ_self _

def setRange (bitset : UInt8 → Bool) (range : UInt8 × UInt8) : UInt8 → Bool :=
  fun c => bitset c || (range.1 ≤ c && c ≤ range.2)

def bracketLoop (pat : List UInt8) (bitset : UInt8 → Bool) :
    Option ((UInt8 → Bool) × List UInt8) :=
  match pat with
  | [] => none
  | c :: pat =>
    if c = ch ']' then
      some (bitset, pat)
    else
      match _ : bracketItem (c :: pat) with
      | none => none
      | some (range, rest) => bracketLoop rest (setRange bitset range)
  termination_by pat.length
  decreasing_by exact length_bracketItem ‹_›

theorem length_bracketLoop (h : bracketLoop pat bitset = some (bitset', rest)) :
    rest.length < pat.length := by
  induction pat, bitset using bracketLoop.induct with
  | case1 bitset =>
    rw [bracketLoop] at h
    cases h
  | case2 bitset pat =>
    rw [bracketLoop, if_pos rfl] at h
    cases h
    exact Nat.lt_succ_self _
  | case3 bitset c pat hc hitem =>
    rw [bracketLoop, if_neg hc] at h
    split at h
    · cases h
    case h_2 range rest' hitem' =>
      rw [hitem] at hitem'
      cases hitem'
  | case4 bitset c pat hc range rest' hitem ih =>
    rw [bracketLoop, if_neg hc] at h
    split at h
    · cases h
    case h_2 range' rest'' hitem' =>
      rw [hitem] at hitem'
      cases hitem'
      exact Nat.lt_trans (ih h) (length_bracketItem hitem)

/-- The `^` at the start of a bracket expression. -/
def bracketStart (pat : List UInt8) : Bool × List UInt8 :=
  if pat.head? = some (ch '^') then (true, pat.tail) else (false, pat)

theorem length_bracketStart (pat : List UInt8) : (bracketStart pat).2.length ≤ pat.length := by
  rw [bracketStart]
  split
  · rw [List.length_tail]
    exact Nat.sub_le _ _
  · exact Nat.le_refl _

def pushChar (vec : List Element) (c : UInt8) : List Element :=
  match vec.getLast? with
  | some (.string str) => vec.dropLast ++ [.string (str ++ [c])]
  | _ => vec ++ [.string [c]]

def compileLoop (pat : List UInt8) (vec : List Element) : Option (List Element) :=
  match pat with
  | [] => some vec
  | c :: pat =>
    if c = ch '[' then
      match _ : bracketLoop (bracketStart pat).2 fun _ => false with
      | none => none
      | some (bitset, rest) =>
        compileLoop rest
          (vec ++ [.bracket fun c => if (bracketStart pat).1 then !bitset c else bitset c])
    else if c = ch '?' then
      compileLoop pat (vec ++ [.question])
    else if c = ch '*' then
      compileLoop pat (vec ++ [.star])
    else
      compileLoop pat (pushChar vec c)
  termination_by pat.length
  decreasing_by
    · exact Nat.lt_succ_of_lt (Nat.lt_of_lt_of_le (length_bracketLoop ‹_›) (length_bracketStart _))
    · exact Nat.lt_succ_self _
    · exact Nat.lt_succ_self _
    · exact Nat.lt_succ_self _

def compile (pat : List UInt8) : Option (List Element) :=
  compileLoop pat []

variable {vec : List Element} {s : List UInt8}

theorem ne_nil_of_mem_pushChar {c : UInt8}
    (hvec : ∀ s, .string s ∈ vec → s ≠ []) (h : .string s ∈ pushChar vec c) : s ≠ [] := by
  rw [pushChar] at h
  split at h
  · rcases List.mem_append.mp h with h | h
    · exact hvec s (List.mem_of_mem_dropLast h)
    · cases List.mem_singleton.mp h
      exact List.append_ne_nil_of_right_ne_nil _ (List.cons_ne_nil c [])
  · rcases List.mem_append.mp h with h | h
    · exact hvec s h
    · cases List.mem_singleton.mp h
      exact List.cons_ne_nil c []

theorem ne_nil_of_mem_append {e : Element}
    (hvec : ∀ s, .string s ∈ vec → s ≠ []) (he : e ≠ .string s)
    (h : .string s ∈ vec ++ [e]) : s ≠ [] := by
  rcases List.mem_append.mp h with h | h
  · exact hvec s h
  · exact absurd (List.mem_singleton.mp h).symm he

theorem ne_nil_of_compileLoop {elements : List Element} {pat : List UInt8}
    (hvec : ∀ s, .string s ∈ vec → s ≠ []) (h : compileLoop pat vec = some elements) :
    ∀ s, .string s ∈ elements → s ≠ [] := by
  induction pat, vec using compileLoop.induct with
  | case1 vec =>
    rw [compileLoop] at h
    cases h
    exact hvec
  | case2 vec pat hloop =>
    rw [compileLoop, if_pos rfl] at h
    split at h
    · cases h
    case h_2 heq =>
      rw [hloop] at heq
      cases heq
  | case3 vec pat bitset rest hloop ih =>
    rw [compileLoop, if_pos rfl] at h
    split at h
    · cases h
    case h_2 heq =>
      rw [hloop] at heq
      cases heq
      exact ih (fun s => ne_nil_of_mem_append hvec Element.noConfusion) h
  | case4 vec pat hbracket ih =>
    rw [compileLoop, if_neg hbracket, if_pos rfl] at h
    exact ih (fun s => ne_nil_of_mem_append hvec Element.noConfusion) h
  | case5 vec pat hbracket hquestion ih =>
    rw [compileLoop, if_neg hbracket, if_neg hquestion, if_pos rfl] at h
    exact ih (fun s => ne_nil_of_mem_append hvec Element.noConfusion) h
  | case6 vec c pat hbracket hquestion hstar ih =>
    rw [compileLoop, if_neg hbracket, if_neg hquestion, if_neg hstar] at h
    exact ih (fun s => ne_nil_of_mem_pushChar hvec) h

theorem ne_nil_of_compile {elements : List Element} {pat : List UInt8} (h : compile pat = some elements) :
    ∀ s, .string s ∈ elements → s ≠ [] := by
  refine ne_nil_of_compileLoop (fun s hs => ?_) h
  cases hs

/-- Try the strings that are left after a star, from the longest to the shortest one that is
not empty. -/
def tryAll (k : List UInt8 → Option Bool) : List UInt8 → Option Bool
  | [] => some false
  | c :: str => (k (c :: str)).bind fun found => if found then some true else tryAll k str

/-- The loop for a star and a literal: try the strings after the places where the literal is
found. -/
def tryFind (s : List UInt8) (k : List UInt8 → Option Bool) : List UInt8 → Option Bool
  | [] => some false
  | c :: str =>
    if s.isPrefixOf (c :: str) then
      (k ((c :: str).drop s.length)).bind fun found =>
        if found then some true else tryFind s k str
    else
      tryFind s k str

def doMatch : List Element → List UInt8 → Option Bool
  | [], str => some str.isEmpty
  | .string s :: elements, str =>
    if str.isEmpty || !s.isPrefixOf str then some false else doMatch elements (str.drop s.length)
  | [.star], _ => some true
  | .star :: .string s :: elements, str => tryFind s (doMatch elements) str
  | .star :: elements, str => tryAll (doMatch elements) str
  | .question :: elements, str =>
    match str with
    | [] => some false
    | _ :: str => doMatch elements str
  | .bracket bitset :: elements, str =>
    match str with
    | [] => some false
    | c :: str =>
      if 0x80 ≤ c then
        none
      else if bitset c then
        doMatch elements str
      else
        some false

theorem doMatch_string (hs : s ≠ []) (elements : List Element) (str : List UInt8) :
    doMatch (.string s :: elements) str =
      if s.isPrefixOf str then doMatch elements (str.drop s.length) else some false := by
  cases str with
  | nil =>
    cases s with
    | nil => exact absurd rfl hs
    | cons d s => rfl
  | cons c str =>
    rw [doMatch]
    by_cases h : s.isPrefixOf (c :: str)
    · rw [if_pos h, if_neg (by simp [h])]
    · rw [if_neg h, if_pos (by simp [h])]

end Mold.Glob
