import Mold.MachO.Symbol
import Mathlib.Data.List.Sort

/-!
# Splitting sections into subsections

`splitSubsectionsViaSymbols` models `split_subsections_via_symbols` and
`findSubsection` models `find_subsection` of `input-files.cc`.  A subsection is
named by its position in the order of creation, and `symToSubsec` gives the
subsection of a symbol table entry, if it has been given one.

A symbol without `N_ALT_ENTRY` begins a new subsection, unless it is at the
very beginning or the very end of the last one.  So several entries of a symbol
table may be in one subsection: aliases at one address, and alternate entries.
-/

namespace Mold.MachO.Subsections

/-! ## Input sections -/

structure InputSection where
  hdr : SectionHeader
  isEhFrame : Bool := false
  addr : UInt64
  size : UInt64
  p2align : UInt8 := 0

def cstringLiterals : ℕ := 0x2

/-- `S_4BYTE_LITERALS`. -/
def fourByteLiterals : ℕ := 0x3

/-- `S_8BYTE_LITERALS`. -/
def eightByteLiterals : ℕ := 0x4

def literalPointers : ℕ := 0x5

/-- `S_16BYTE_LITERALS`. -/
def sixteenByteLiterals : ℕ := 0xe

/-- `always_split`: such a section is split by its contents instead. -/
def alwaysSplit (isec : InputSection) : Bool :=
  isec.isEhFrame || isec.hdr.type == fourByteLiterals ||
    isec.hdr.type == eightByteLiterals || isec.hdr.type == sixteenByteLiterals ||
    isec.hdr.type == literalPointers || isec.hdr.type == cstringLiterals

/-- The fields of `MachSym` that splitting reads.  `sect` counts from one. -/
structure SectSym where
  stab : Bool := false
  isSect : Bool := true
  sect : ℕ := 1
  value : UInt64
  altEntry : Bool := false

structure Span where
  isec : ℕ
  inputAddr : UInt32
  inputSize : UInt32
  p2align : UInt8
  deriving DecidableEq

/-- The loop state: the finished subsections of the section, the last one, and
the subsections given to the entries, as positions in the section. -/
structure SplitState where
  finished : List Span
  last : Span
  given : List (ℕ × ℕ)

/-- The lambda `add_subsec`: a subsection from `addr` to the end. -/
def addSubsec (idx : ℕ) (isec : InputSection) (addr : UInt64) : Span where
  isec := idx
  inputAddr := addr.toUInt32
  inputSize := (isec.addr + isec.size - addr.toUInt32.toUInt64).toUInt32
  p2align := isec.p2align

def isBoundary (isec : InputSection) (last : Span) (msym : SectSym) : Bool :=
  !msym.altEntry &&
    decide (0 < msym.value.toInt64 - last.inputAddr.toUInt64.toInt64) &&
    decide (0 < isec.addr.toInt64 + isec.size.toInt64 - msym.value.toInt64)

def splitStep (idx : ℕ) (isec : InputSection) (st : SplitState) (ent : SectSym × ℕ) : SplitState :=
  let st' :=
    if isBoundary isec st.last ent.1 then
      { st with
        finished := st.finished ++ [{ st.last with inputSize :=
          (ent.1.value - st.last.inputAddr.toUInt64).toUInt32 }]
        last := addSubsec idx isec ent.1.value }
    else
      st
  { st' with given := st'.given ++ [(ent.2, st'.finished.length)] }

def splitSection (idx : ℕ) (isec : InputSection) (ents : List (SectSym × ℕ)) :
    List Span × List (ℕ × ℕ) :=
  let st := ents.foldl (splitStep idx isec)
    { finished := [], last := addSubsec idx isec isec.addr, given := [] }
  (st.finished ++ [st.last], st.given)

/-! ## Splitting a file -/

/-- The entries of type `N_SECT` in a section that is read, sorted by section
and address.  The sort is stable. -/
def sectSyms (sections : List (Option InputSection)) (syms : List SectSym) : List (SectSym × ℕ) :=
  (syms.zipIdx.filter fun ent => !ent.1.stab && ent.1.isSect &&
      ((sections[ent.1.sect - 1]?).join).isSome).insertionSort
    fun a b => a.1.sect < b.1.sect ∨ (a.1.sect = b.1.sect ∧ a.1.value ≤ b.1.value)

/-- What splitting computes: all subsections and `sym_to_subsec`. -/
structure Split where
  subsections : List Span
  symToSubsec : ℕ → Option ℕ

/-- Append the subsections of the section with index `idx`. -/
def splitNext (ents : List (SectSym × ℕ)) (split : Split)
    (section_ : Option InputSection × ℕ) : Split :=
  match section_.1 with
  | none => split
  | some isec =>
    if alwaysSplit isec then
      split
    else
      let (spans, given) := splitSection section_.2 isec
        (ents.filter fun ent => ent.1.sect == section_.2 + 1)
      { subsections := split.subsections ++ spans
        symToSubsec := fun i =>
          match given.lookup i with
          | some k => some (split.subsections.length + k)
          | none => split.symToSubsec i }

def splitSubsectionsViaSymbols (sections : List (Option InputSection))
    (syms : List SectSym) : Split :=
  sections.zipIdx.foldl (splitNext (sectSyms sections syms))
    { subsections := [], symToSubsec := fun _ => none }

section Find

variable {σ : Type*} (inputAddr : σ → UInt32)

/-- `std::partition_point` on the positions from `first` on. -/
def partitionPoint (subsections : List σ) (addr : UInt32) : ℕ → ℕ → ℕ → ℕ
  | 0, first, _ => first
  | fuel + 1, first, len =>
    if len = 0 then
      first
    else
      let half := len / 2
      match subsections[first + half]? with
      | none => first
      | some subsec =>
        if inputAddr subsec ≤ addr then
          partitionPoint subsections addr fuel (first + half + 1) (len - half - 1)
        else
          partitionPoint subsections addr fuel first half

def walkBucket (subsections : List σ) (addr : UInt32) : ℕ → ℕ → ℕ
  | 0, idx => idx
  | fuel + 1, idx =>
    match subsections[idx + 1]? with
    | none => idx
    | some subsec =>
      if inputAddr subsec ≤ addr then
        walkBucket subsections addr fuel (idx + 1)
      else
        idx

/-- `find_subsection`.  The lookup table has a bucket for every 256 bytes, and
it is empty in a file with few subsections. -/
def findSubsection (subsections : List σ) (lookup : List (Option ℕ)) (addr : UInt32) : Option σ :=
  match (lookup[(addr >>> 8).toNat]?).join with
  | some idx => subsections[walkBucket inputAddr subsections addr subsections.length idx]?
  | none =>
    match partitionPoint inputAddr subsections addr (subsections.length + 1) 0
      subsections.length with
    | 0 => none
    | i + 1 => subsections[i]?

theorem mem_of_findSubsection {subsections : List σ} {lookup : List (Option ℕ)}
    {addr : UInt32} {s : σ}
    (h : findSubsection inputAddr subsections lookup addr = some s) :
    s ∈ subsections := by
  rw [findSubsection] at h
  split at h
  · exact List.mem_of_getElem? h
  · split at h
    · exact absurd h (by simp)
    · exact List.mem_of_getElem? h

end Find

end Mold.MachO.Subsections
