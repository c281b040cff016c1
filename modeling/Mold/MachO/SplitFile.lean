import Mold.MachO.SplitSubsections

/-!
# Subsections that tile a section

The subsections of a section follow each other from its beginning to its end.

All passes of `input-files.cc` that make the subsections of a file.  A section is split by
its symbols, or is one subsection as a whole, and a section of literals is split by its
contents.
-/

namespace Mold.MachO.Subsections

namespace Span

def inputEnd (s : Span) : ℕ := s.inputAddr.toNat + s.inputSize.toNat

def Contains (s : Span) (addr : ℕ) : Prop :=
  s.inputAddr.toNat ≤ addr ∧ addr < s.inputEnd

instance (s : Span) (addr : ℕ) : Decidable (s.Contains addr) :=
  inferInstanceAs (Decidable (_ ∧ _))

end Span

/-- The subsections are one behind the other from `lo` to `hi`. -/
def Tiles : ℕ → List Span → ℕ → Prop
  | lo, [], hi => lo = hi
  | lo, s :: l, hi => s.inputAddr.toNat = lo ∧ Tiles s.inputEnd l hi

instance : ∀ lo l hi, Decidable (Tiles lo l hi)
  | lo, [], hi => inferInstanceAs (Decidable (lo = hi))
  | _, s :: l, hi =>
    have := instDecidableTiles s.inputEnd l hi
    inferInstanceAs (Decidable (_ ∧ _))

/-- Pairs of a place and a size are one behind the other from `i` to `n`. -/
def Consecutive : ℕ → List (ℕ × ℕ) → ℕ → Prop
  | i, [], n => i = n
  | i, span :: l, n => span.1 = i ∧ Consecutive (i + span.2) l n

variable {l : List Span}

theorem Tiles.le {lo hi : ℕ} (h : Tiles lo l hi) : lo ≤ hi := by
  induction l generalizing lo with
  | nil => exact Nat.le_of_eq h
  | cons s l ih =>
    have hle : s.inputEnd ≤ hi := ih h.2
    rw [Span.inputEnd, h.1] at hle
    omega

theorem Tiles.bounds {lo hi : ℕ} (h : Tiles lo l hi) :
    ∀ s ∈ l, lo ≤ s.inputAddr.toNat ∧ s.inputEnd ≤ hi := by
  induction l generalizing lo with
  | nil => exact fun s hs => absurd hs List.not_mem_nil
  | cons s l ih =>
    intro t ht
    have hs : lo ≤ s.inputEnd := by
      rw [Span.inputEnd, h.1]
      omega
    rcases List.mem_cons.mp ht with rfl | ht
    · exact ⟨Nat.le_of_eq h.1.symm, h.2.le⟩
    · obtain ⟨hlo, hhi⟩ := ih h.2 t ht
      exact ⟨Nat.le_trans hs hlo, hhi⟩

theorem Tiles.exists_contains {lo hi addr : ℕ} (h : Tiles lo l hi)
    (hlo : lo ≤ addr) (hhi : addr < hi) : ∃ s ∈ l, s.Contains addr := by
  induction l generalizing lo with
  | nil =>
    rw [Tiles] at h
    omega
  | cons s l ih =>
    by_cases hs : addr < s.inputEnd
    · exact ⟨s, List.mem_cons_self, h.1 ▸ hlo, hs⟩
    · obtain ⟨t, ht, hcontains⟩ := ih h.2 (Nat.le_of_not_lt hs)
      exact ⟨t, List.mem_cons_of_mem _ ht, hcontains⟩

/-! ## Splitting a file -/

structure FileSection extends InputSection where
  contents : List UInt8
  length_le : contents.length ≤ size.toNat

/-- `init_subsections` makes one subsection of a section. -/
def wholeSection (idx : ℕ) (isec : InputSection) : Span where
  isec := idx
  inputAddr := isec.addr.toUInt32
  inputSize := isec.size.toUInt32
  p2align := isec.p2align

def isWhole : Option InputSection → Bool
  | none => false
  | some isec => !alwaysSplit isec

/-- `init_subsections`.  The positions are those behind the removal of null pointers. -/
def initSubsections (sections : List (Option InputSection)) (syms : List SectSym) : Split where
  subsections := sections.zipIdx.filterMap fun section_ =>
    (section_.1.filter fun isec => !alwaysSplit isec).map (wholeSection section_.2)
  symToSubsec i :=
    (syms[i]?).bind fun msym =>
      if !msym.stab && msym.isSect && isWhole (sections[msym.sect - 1]?).join then
        some ((sections.take (msym.sect - 1)).countP isWhole)
      else none

/-! ## Literals -/

def wordSize (is64 : Bool) : ℕ := if is64 then 8 else 4

def literalSpan (idx : ℕ) (isec : InputSection) (p2align : UInt8) (pos size : ℕ) : Span where
  isec := idx
  inputAddr := (isec.addr + UInt64.ofNat pos).toUInt32
  inputSize := UInt32.ofNat size
  p2align := p2align

/-- `std::countr_zero` -/
def countrZero (n : ℕ) : ℕ := ((List.range 64).takeWhile fun i => !n.testBit i).length

/-- The length of the first string with the null characters behind it.  There is none if
the string has no end. -/
def cstringLength (str : List UInt8) : Option ℕ :=
  match str.dropWhile (· ≠ 0) with
  | [] => none
  | rest =>
    some ((str.takeWhile (· ≠ 0)).length + (rest.takeWhile (· = 0)).length)

/-- The positions and sizes of the strings from `pos` on, where `str` is what is there. -/
def cstringPieces : ℕ → ℕ → List UInt8 → Option (List (ℕ × ℕ))
  | _, _, [] => some []
  | 0, _, _ => none
  | fuel + 1, pos, str =>
    (cstringLength str).bind fun n =>
      (cstringPieces fuel (pos + n) (str.drop n)).map ((pos, n) :: ·)

/-- `split_cstring_literals` for one section. -/
def splitCstrings (idx : ℕ) (isec : FileSection) : Option (List Span) :=
  (cstringPieces isec.contents.length 0 isec.contents).map fun pieces =>
    pieces.map fun piece =>
      literalSpan idx isec.toInputSection (min isec.p2align (UInt8.ofNat (countrZero piece.1)))
        piece.1 piece.2

def fixedPieces (size len : ℕ) : List (ℕ × ℕ) :=
  (List.range ((len + size - 1) / size)).map fun k => (k * size, size)

/-- The lambda `split` of `split_fixed_size_literals`. -/
def splitFixed (idx : ℕ) (isec : FileSection) (size : ℕ) : Option (List Span) :=
  if isec.contents.length % size ≠ 0 then none
  else
    some ((fixedPieces size isec.contents.length).map fun piece =>
      literalSpan idx isec.toInputSection (UInt8.ofNat (countrZero size)) piece.1 piece.2)

/-- `split_fixed_size_literals` for one section. -/
def splitFixedSize (idx : ℕ) (isec : FileSection) : Option (List Span) :=
  if isec.hdr.type = fourByteLiterals then splitFixed idx isec 4
  else if isec.hdr.type = eightByteLiterals then splitFixed idx isec 8
  else if isec.hdr.type = sixteenByteLiterals then splitFixed idx isec 16
  else some []

/-- `split_literal_pointers` for one section.  That the size is a multiple of the word size
is only asserted. -/
def splitLiteralPointers (is64 : Bool) (idx : ℕ) (isec : FileSection) : List Span :=
  if isec.hdr.type = literalPointers then
    (fixedPieces (wordSize is64) isec.contents.length).map fun piece =>
      literalSpan idx isec.toInputSection (UInt8.ofNat (countrZero (wordSize is64))) piece.1
        piece.2
  else []

def forSections (split : ℕ → FileSection → Option (List Span))
    (sections : List (Option FileSection)) : Option (List Span) :=
  (sections.zipIdx.mapM fun section_ : Option FileSection × ℕ =>
    match section_.1 with
    | none => some []
    | some isec => split section_.2 isec).map List.flatten

/-- The subsections of a file in the order of their creation.  There is no result if a
section of literals is not well-formed. -/
def splitFile (is64 viaSymbols : Bool) (sections : List (Option FileSection))
    (syms : List SectSym) : Option Split :=
  let headers := sections.map (Option.map FileSection.toInputSection)
  let split :=
    if viaSymbols then splitSubsectionsViaSymbols headers syms
    else initSubsections headers syms
  (forSections (fun idx isec =>
      if isec.hdr.type = cstringLiterals then splitCstrings idx isec else some [])
    sections).bind fun cstrings =>
  (forSections splitFixedSize sections).bind fun fixed =>
  (forSections (fun idx isec => some (splitLiteralPointers is64 idx isec)) sections).map
    fun pointers =>
      { split with subsections := split.subsections ++ cstrings ++ fixed ++ pointers }

end Mold.MachO.Subsections
