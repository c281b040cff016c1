import Mold.Elf.ResolveSymbols
import Mold.Lib.BinarySearch
import Mathlib.Algebra.BigOperators.Group.List.Basic

/-!
# Section pieces

A mergeable section is split into strings or into records of one size.  Equal
pieces of sections that go to the same merged section become one fragment.
`resolve_section_pieces` then attaches the symbols that are defined in
mergeable sections to the fragments.
-/

namespace Mold.Elf

open Lib

variable {ν : Type*}

/-! ## Merged sections -/

def SHF_MERGE : UInt64 := 0x10
def SHF_STRINGS : UInt64 := 0x20
def SHF_GROUP : UInt64 := 0x200
def SHF_COMPRESSED : UInt64 := 0x800

/-- The options that decide over the names of merged sections. -/
structure MergeArgs where
  relocatable : Bool := false
  relocatableMergeSections : Bool := false
  unique : String → Bool := fun _ => false

def getMergedOutputName (args : MergeArgs) (name : String) (flags : UInt64) : String :=
  if args.relocatable && !args.relocatableMergeSections then name
  else if args.unique name then name
  else if name = ".rodata" || name.startsWith ".rodata." then
    if flags &&& SHF_STRINGS ≠ 0 then ".rodata.str" else ".rodata.cst"
  else name

/-- `MergedSection::get_instance`.  A merged section is found by its name, flags and
type. -/
def getInstance (args : MergeArgs) (name : String) (type : ℕ) (flags : UInt64) :
    String × UInt64 × ℕ :=
  (getMergedOutputName args name flags, flags &&& ~~~SHF_GROUP &&& ~~~SHF_COMPRESSED, type)

/-- The place of the first null character of `entsize` bytes. -/
def findNull (data : List UInt8) (entsize : ℕ) : Option ℕ :=
  if entsize = 1 then
    data.findIdx? (· = 0)
  else if data.length < entsize then
    none
  else
    ((List.range (data.length / entsize)).map (· * entsize)).find?
      fun i => ((data.drop i).take entsize).all (· = 0)

def splitStrings (entsize : ℕ) (hentsize : 0 < entsize) :
    List UInt8 → Except String (List (List UInt8))
  | [] => .ok []
  | b :: data =>
    match findNull (b :: data) entsize with
    | none => .error "string is not null terminated"
    | some i =>
      (splitStrings entsize hentsize ((b :: data).drop (i + entsize))).map
        ((b :: data).take (i + entsize) :: ·)
termination_by data => data.length
decreasing_by
  simp only [List.length_drop, List.length_cons]
  omega

def splitRecords (entsize : ℕ) (hentsize : 0 < entsize) : List UInt8 → List (List UInt8)
  | [] => []
  | b :: data =>
    (b :: data).take entsize :: splitRecords entsize hentsize ((b :: data).drop entsize)
termination_by data => data.length
decreasing_by
  simp only [List.length_drop, List.length_cons]
  omega

structure MergeableSection where
  parent : String × UInt64 × ℕ
  strings : List (List UInt8)
deriving DecidableEq, Repr

def splitSection (args : MergeArgs) (isec : ObjectFile.Section) :
    Except String (Option MergeableSection) :=
  let parent := getInstance args isec.name isec.shType isec.shFlags
  if !isec.isAlive || isec.hasRelsec then
    .ok none
  else if isec.shFlags &&& SHF_MERGE = 0 then
    .ok none
  else if isec.shSize = 0 then
    .ok (some { parent := parent, strings := [] })
  else if isec.shFlags &&& SHF_STRINGS ≠ 0 then
    (splitStrings (if isec.shEntsize = 0 then 1 else isec.shEntsize)
      (by split <;> omega) isec.contents).map
      fun strings => some { parent := parent, strings := strings }
  else if h : isec.shEntsize = 0 then
    .ok none
  else if isec.contents.length % isec.shEntsize ≠ 0 then
    .error "section size is not multiple of sh_entsize"
  else
    .ok (some
      { parent := parent
        strings := splitRecords isec.shEntsize (Nat.pos_of_ne_zero h) isec.contents })

/-- The offsets of pieces, of which the first is at `start`, in 32 bits. -/
def fragOffsetsFrom (start : ℕ) : List (List UInt8) → List ℕ
  | [] => []
  | data :: pieces => start % 2 ^ 32 :: fragOffsetsFrom (start + data.length) pieces

theorem fragOffsetsFrom_cons (start : ℕ) (data : List UInt8) (pieces : List (List UInt8)) :
    fragOffsetsFrom start (data :: pieces) =
      start % 2 ^ 32 :: fragOffsetsFrom (start + data.length) pieces := rfl

namespace MergeableSection

def fragOffsets (m : MergeableSection) : List ℕ := fragOffsetsFrom 0 m.strings

/-- What `MergedSection::insert` gives for the pieces. -/
def fragments (m : MergeableSection) : List SectionFragment :=
  m.strings.map fun data => { outputSection := m.parent, data := data }

/-- `get_fragment`.  An offset in front of the first piece has no fragment: the read is
outside of the array. -/
def getFragment (m : MergeableSection) (offset : ℤ) : Option (SectionFragment × ℤ) :=
  if offset < 0 then
    none
  else do
    let k ← lastAtMost (fun k => m.fragOffsets.getD k 0) offset.toNat m.fragOffsets.length
    let frag ← m.fragments[k]?
    some (frag, offset - m.fragOffsets.getD k 0)

end MergeableSection

/-! ## The piece that contains an offset -/

/-- The piece contains the offset, or it is the last one and the offset is behind the
contents. -/
def MergeableSection.IsPlace (m : MergeableSection) (offset : ℕ) (origin : Origin)
    (value : ℕ) : Prop :=
  ∃ before data after, m.strings = before ++ data :: after ∧
    origin = .frag { outputSection := m.parent, data := data } ∧
    before.flatten.length + value = offset ∧ (value < data.length ∨ after = [])

theorem append_cons_eq_append_cons {α : Type*} {before before' after after' : List α}
    {x x' : α} (h : before ++ x :: after = before' ++ x' :: after') :
    (before = before' ∧ x = x' ∧ after = after') ∨
      (∃ between, before' = before ++ x :: between ∧ after = between ++ x' :: after') ∨
      ∃ between, before = before' ++ x' :: between ∧ after' = between ++ x :: after := by
  rcases List.append_eq_append_iff.mp h with ⟨_ | ⟨y, mid⟩, hbefore, hafter⟩ |
      ⟨_ | ⟨y, mid⟩, hbefore, hafter⟩
  · left
    rw [List.append_nil] at hbefore
    simp only [List.nil_append, List.cons.injEq] at hafter
    exact ⟨hbefore.symm, hafter.1, hafter.2⟩
  · right
    left
    simp only [List.cons_append, List.cons.injEq] at hafter
    obtain ⟨rfl, rfl⟩ := hafter
    exact ⟨mid, hbefore, rfl⟩
  · left
    rw [List.append_nil] at hbefore
    simp only [List.nil_append, List.cons.injEq] at hafter
    exact ⟨hbefore, hafter.1.symm, hafter.2.symm⟩
  · right
    right
    simp only [List.cons_append, List.cons.injEq] at hafter
    obtain ⟨rfl, rfl⟩ := hafter
    exact ⟨mid, hbefore, rfl⟩

theorem MergeableSection.IsPlace.unique {m : MergeableSection} {offset : ℕ}
    {origin origin' : Origin} {value value' : ℕ} (h : m.IsPlace offset origin value)
    (h' : m.IsPlace offset origin' value') : origin = origin' ∧ value = value' := by
  obtain ⟨before, data, after, hstrings, rfl, hoffset, hvalue⟩ := h
  obtain ⟨before', data', after', hstrings', rfl, hoffset', hvalue'⟩ := h'
  rcases append_cons_eq_append_cons (hstrings.symm.trans hstrings') with
    ⟨rfl, rfl, rfl⟩ | ⟨between, rfl, rfl⟩ | ⟨between, rfl, rfl⟩
  · exact ⟨rfl, by omega⟩
  · have hlt : value < data.length := by simpa using hvalue
    simp only [List.flatten_append, List.flatten_cons, List.length_append] at hoffset'
    omega
  · have hlt : value' < data'.length := by simpa using hvalue'
    simp only [List.flatten_append, List.flatten_cons, List.length_append] at hoffset
    omega

theorem exists_piece {pieces : List (List UInt8)} (hne : pieces ≠ []) (offset : ℕ) :
    ∃ before data after, pieces = before ++ data :: after ∧ before.flatten.length ≤ offset ∧
      (offset < before.flatten.length + data.length ∨ after = []) := by
  induction pieces generalizing offset with
  | nil => exact absurd rfl hne
  | cons data pieces ih =>
    by_cases hlast : offset < data.length ∨ pieces = []
    · exact ⟨[], data, pieces, rfl, Nat.zero_le _, by simpa using hlast⟩
    · obtain ⟨hle, hpieces⟩ := not_or.mp hlast
      obtain ⟨before, data', after, rfl, hstart, hend⟩ :=
        ih hpieces (offset - data.length)
      refine ⟨data :: before, data', after, rfl, ?_, ?_⟩
      · rw [List.flatten_cons, List.length_append]
        omega
      · rw [List.flatten_cons, List.length_append]
        rcases hend with hend | rfl
        · left
          omega
        · exact Or.inr rfl

theorem fragOffsetsFrom_append (start : ℕ) (before after : List (List UInt8)) :
    fragOffsetsFrom start (before ++ after) =
      fragOffsetsFrom start before ++ fragOffsetsFrom (start + before.flatten.length) after := by
  induction before generalizing start with
  | nil => rfl
  | cons data before ih =>
    rw [List.cons_append, fragOffsetsFrom_cons, ih, fragOffsetsFrom_cons, List.flatten_cons,
      List.length_append, List.cons_append, Nat.add_assoc]

@[simp] theorem length_fragOffsetsFrom (start : ℕ) (pieces : List (List UInt8)) :
    (fragOffsetsFrom start pieces).length = pieces.length := by
  induction pieces generalizing start with
  | nil => rfl
  | cons data pieces ih => rw [fragOffsetsFrom_cons, List.length_cons, ih, List.length_cons]

theorem mem_fragOffsetsFrom {start o : ℕ} {pieces : List (List UInt8)}
    (hend : start + pieces.flatten.length < 2 ^ 32)
    (ho : o ∈ fragOffsetsFrom start pieces) :
    start ≤ o ∧ o ≤ start + pieces.flatten.length := by
  induction pieces generalizing start with
  | nil => cases ho
  | cons data pieces ih =>
    rw [List.flatten_cons, List.length_append] at hend ⊢
    rw [fragOffsetsFrom_cons, List.mem_cons] at ho
    rcases ho with rfl | ho
    · rw [Nat.mod_eq_of_lt (by omega)]
      omega
    · have hrange := ih (by omega) ho
      omega

theorem MergeableSection.getFragment_eq_some {m : MergeableSection} (hne : m.strings ≠ [])
    (hlength : m.strings.flatten.length < 2 ^ 32) (offset : ℕ) :
    ∃ frag, ∃ value : ℕ, m.getFragment offset = some (frag, (value : ℤ)) ∧
      value ≤ offset ∧ m.IsPlace offset (.frag frag) value := by
  obtain ⟨before, data, after, hstrings, hstart, hend⟩ := exists_piece hne offset
  rw [hstrings, List.flatten_append, List.flatten_cons, List.length_append,
    List.length_append] at hlength
  have hoffsets : m.fragOffsets = fragOffsetsFrom 0 before ++ before.flatten.length ::
      fragOffsetsFrom (before.flatten.length + data.length) after := by
    rw [fragOffsets, hstrings, fragOffsetsFrom_append, fragOffsetsFrom_cons, Nat.zero_add,
      Nat.mod_eq_of_lt (by omega)]
  have hfound : lastAtMost (fun k => m.fragOffsets.getD k 0) offset m.fragOffsets.length =
      some before.length := by
    rw [hoffsets, lastAtMost_append, length_fragOffsetsFrom]
    · intro i y hy
      rw [List.getD_eq_getElem?_getD, hy, Option.getD_some]
    · intro y hy
      have hrange := mem_fragOffsetsFrom (by omega) hy
      omega
    · exact hstart
    · intro y hy
      have hrange := mem_fragOffsetsFrom (by omega) hy
      rcases hend with hend | rfl
      · omega
      · cases hy
  have hkey : m.fragOffsets.getD before.length 0 = before.flatten.length := by
    rw [hoffsets, List.getD_eq_getElem?_getD, List.getElem?_append_right (by simp)]
    simp
  have hfrag : m.fragments[before.length]? = some { outputSection := m.parent, data := data } := by
    rw [fragments, hstrings, List.getElem?_map,
      List.getElem?_append_right (Nat.le_refl _), Nat.sub_self]
    rfl
  refine ⟨_, offset - before.flatten.length, ?_, Nat.sub_le _ _, before, data, after,
    hstrings, rfl, Nat.add_sub_cancel' hstart, ?_⟩
  · rw [getFragment, if_neg (by omega), Int.toNat_natCast, hfound]
    simp only [Option.bind_eq_bind, Option.bind_some, hfrag, hkey]
    rw [Int.ofNat_sub hstart]
  · rcases hend with hend | hend
    · left
      omega
    · exact Or.inr hend

/-! ## Passes over files -/

structure SplitFile (ν : Type*) where
  file : ObjectFile ν
  mergeableSections : List (Option MergeableSection)

/-- The pass that removes the `.eh_frame` sections. -/
def killEhFrameSections (file : ObjectFile ν) : ObjectFile ν :=
  { file with
    sections := file.sections.map <| Option.map fun isec =>
      if isec.isAlive && isec.name = ".eh_frame" then isec.kill else isec }

/-- One iteration of `initialize_mergeable_sections`. -/
def initializeSection (args : MergeArgs) :
    Option ObjectFile.Section → Except String (Option MergeableSection)
  | none => .ok none
  | some isec => splitSection args isec

def initializeMergeableSections (args : MergeArgs) (file : ObjectFile ν) :
    Except String (SplitFile ν) :=
  (file.sections.mapM (initializeSection args)).map fun mergeableSections =>
    { file :=
        { file with
          sections := List.zipWith
            (fun isec m => if m.isSome then isec.map ObjectFile.Section.kill else isec)
            file.sections mergeableSections }
      mergeableSections := mergeableSections }

theorem exists_split {args : MergeArgs} {file : ObjectFile ν}
    {mergeableSections : List (Option MergeableSection)}
    (h : file.sections.mapM (initializeSection args) = .ok mergeableSections) :
    ∃ split, initializeMergeableSections args file = .ok split ∧
      split.file.elfSyms = file.elfSyms ∧ split.mergeableSections = mergeableSections := by
  rw [initializeMergeableSections, h]
  exact ⟨_, rfl, rfl, rfl⟩

/-- A write to a symbol.  The origin and the value are written one after the other and
without a lock. -/
inductive SymbolWrite (ν : Type*) where
  | origin (sym : ν) (origin : Origin)
  | value (sym : ν) (value : UInt64)
deriving DecidableEq, Repr

/-- The number as an `i64`. -/
def toI64 (n : UInt64) : ℤ := n.toBitVec.toInt

namespace SplitFile

variable (split : SplitFile ν)

def mergeableSection (esym : ElfSym ν) : Option MergeableSection :=
  match esym.stShndx with
  | .sect k => split.mergeableSections[k]?.join
  | _ => none

def attachment (esym : ElfSym ν) : Option (Origin × UInt64) :=
  match split.mergeableSection esym with
  | none => none
  | some m =>
    if m.fragments.isEmpty then
      none
    else
      match m.getFragment (toI64 esym.stValue) with
      | none => some (.stray, 0)
      | some (frag, fragOffset) => some (.frag frag, UInt64.ofInt fragOffset)

/-- The writes of `resolve_section_pieces` to the symbols of a file. -/
def writes : List (SymbolWrite ν) :=
  (split.file.elfSyms.drop 1).flatMap fun esym =>
    match split.attachment esym with
    | none => []
    | some (origin, value) => [.origin esym.sym origin, .value esym.sym value]

end SplitFile

def applyWrite [DecidableEq ν] (syms : ν → ResolvedSymbol) : SymbolWrite ν → ν → ResolvedSymbol
  | .origin x origin => Function.update syms x { syms x with origin := origin }
  | .value x value => Function.update syms x { syms x with value := value }

/-- `resolve_section_pieces` of all files in the given schedule of their writes. -/
def resolveSectionPieces [DecidableEq ν] (schedule : List (SymbolWrite ν))
    (syms : ν → ResolvedSymbol) : ν → ResolvedSymbol :=
  schedule.foldl applyWrite syms

end Mold.Elf
