import Mold.Lib.OptionTraverse
import Mold.Elf.SymbolLocations

/-!
# References into mergeable sections

A symbol in a mergeable section, and a relocation against the symbol of such a section, refer
to a place in the contents of the section.  `get_fragment` turns the place into a fragment of
the merged section and an offset in it.  It is used in three ways: for symbols, for
relocations of allocated sections, which are redirected to a symbol of the fragment, and for
relocations of other sections, where the address of the fragment is taken as it is.

`get_fragment` does not look whether the place is in the section.
-/

namespace Mold.Elf

structure MergedOutput where
  shAddr : String × UInt64 × ℕ → UInt64
  offset : SectionFragment → UInt32
  isAlive : SectionFragment → Bool

inductive RefKind where
  /-- The value of a symbol. -/
  | symbol
  /-- A relocation of an allocated section against the section symbol. -/
  | alloc
  /-- A relocation of another section against the section symbol. -/
  | nonalloc
deriving DecidableEq

/-- A reference: `st_value` of the symbol and the addend of the relocation. -/
structure PieceRef where
  kind : RefKind
  stValue : UInt64
  addend : UInt64

/-- The argument of `get_fragment`. -/
def PieceRef.place (ref : PieceRef) : ℤ :=
  match ref.kind with
  | .symbol => toI64 ref.stValue
  | .alloc | .nonalloc => toI64 (ref.stValue + ref.addend)

namespace MergedOutput

variable (out : MergedOutput)

/-- `SectionFragment::get_addr` -/
def fragmentAddr (frag : SectionFragment) : UInt64 :=
  out.shAddr frag.outputSection + (out.offset frag).toUInt64

/-- `Symbol::get_addr` for a symbol that is attached to a fragment -/
def symbolAddr (frag : SectionFragment) (value : UInt64) : UInt64 :=
  if out.isAlive frag then out.fragmentAddr frag + value else 0

/-- `S + A` for a reference, or `S` for a symbol.  There is none if `get_fragment` reads
outside of the fragments.  A symbol of a section without fragments keeps its section, which
is not alive. -/
def emitted (m : MergeableSection) (ref : PieceRef) : Option UInt64 :=
  match ref.kind with
  | .symbol =>
    if m.fragments.isEmpty then some 0
    else (m.getFragment ref.place).map fun found =>
      out.symbolAddr found.1 (UInt64.ofInt found.2)
  | .alloc => (m.getFragment ref.place).map fun found =>
    out.symbolAddr found.1 (UInt64.ofInt found.2 - ref.addend) + ref.addend
  | .nonalloc => (m.getFragment ref.place).map fun found =>
    out.fragmentAddr found.1 + UInt64.ofInt found.2

/-- The place is in the piece `data` behind the pieces `before`. -/
def InPiece (m : MergeableSection) (place : ℤ) (before : List (List UInt8))
    (data : List UInt8) : Prop :=
  (∃ after, m.strings = before ++ data :: after) ∧
    (before.flatten.length : ℤ) ≤ place ∧ place < before.flatten.length + data.length

def Finds (m : MergeableSection) (place : ℤ) (before : List (List UInt8)) (data : List UInt8) :
    Prop :=
  m.getFragment place =
    some ({ outputSection := m.parent, data := data }, place - before.flatten.length)

/-- Unless an error is reported for the section, the place is in a piece of it, a fragment of
the section with the same contents is found, and what is emitted is the output address of the
same byte of it. -/
def KeepsReference (args : MergeArgs) (isec : ObjectFile.Section) (ref : PieceRef) : Prop :=
  ∀ m, splitSection args isec = .ok (some m) →
    ∃ before data, InPiece m ref.place before data ∧ Finds m ref.place before data ∧
      out.isAlive { outputSection := m.parent, data := data } = true ∧
      out.emitted m ref =
        some (out.fragmentAddr { outputSection := m.parent, data := data } +
          UInt64.ofInt (ref.place - before.flatten.length))

/-- The place is in a piece that has not been collected, and the section is small enough for
32-bit offsets, or the offsets find the piece in spite of its size. -/
def RefersToPiece (args : MergeArgs) (isec : ObjectFile.Section) (ref : PieceRef) : Prop :=
  ∀ m, splitSection args isec = .ok (some m) →
    ∃ before data, InPiece m ref.place before data ∧
      out.isAlive { outputSection := m.parent, data := data } = true ∧
      (m.strings.flatten.length < 2 ^ 32 ∨ Finds m ref.place before data)

end MergedOutput

namespace MergeableSection

open MergedOutput

variable {m : MergeableSection} {place : ℤ} {before : List (List UInt8)} {data : List UInt8}

theorem finds_of_inPiece (hlength : m.strings.flatten.length < 2 ^ 32)
    (h : InPiece m place before data) : Finds m place before data := by
  obtain ⟨⟨after, hstrings⟩, hlow, hhigh⟩ := h
  obtain ⟨offset, rfl⟩ : ∃ offset : ℕ, place = offset := Int.eq_ofNat_of_zero_le (by omega)
  have hne : m.strings ≠ [] := by
    rw [hstrings]
    exact List.append_ne_nil_of_right_ne_nil _ (List.cons_ne_nil _ _)
  obtain ⟨frag, value, hget, -, hplace⟩ := getFragment_eq_some hne hlength offset
  have hhere : m.IsPlace offset (.frag { outputSection := m.parent, data := data })
      (offset - before.flatten.length) :=
    ⟨before, data, after, hstrings, rfl, by omega, Or.inl (by omega)⟩
  obtain ⟨hfrag, rfl⟩ := hplace.unique hhere
  obtain rfl := Origin.frag.inj hfrag
  rw [Finds, hget, Int.ofNat_sub (by omega)]

theorem emitted_of_finds {out : MergedOutput} {ref : PieceRef}
    (hpiece : InPiece m ref.place before data) (hfinds : Finds m ref.place before data)
    (halive : out.isAlive { outputSection := m.parent, data := data } = true) :
    out.emitted m ref =
      some (out.fragmentAddr { outputSection := m.parent, data := data } +
        UInt64.ofInt (ref.place - before.flatten.length)) := by
  rw [Finds] at hfinds
  obtain ⟨⟨after, hstrings⟩, -⟩ := hpiece
  unfold emitted
  cases ref.kind with
  | symbol =>
    have hne : m.fragments.isEmpty = false := by
      rw [fragments, hstrings, List.isEmpty_map]
      exact List.isEmpty_eq_false_iff.mpr
        (List.append_ne_nil_of_right_ne_nil _ (List.cons_ne_nil _ _))
    dsimp only
    rw [hne, if_neg Bool.false_ne_true, hfinds, Option.map_some, symbolAddr, if_pos halive]
  | alloc =>
    dsimp only
    rw [hfinds, Option.map_some, symbolAddr, if_pos halive, UInt64.add_assoc,
      UInt64.sub_add_cancel]
  | nonalloc =>
    dsimp only
    rw [hfinds, Option.map_some]

theorem flatten_splitStrings {entsize : ℕ} {hentsize : 0 < entsize} {data : List UInt8}
    {strings : List (List UInt8)} (h : splitStrings entsize hentsize data = .ok strings) :
    strings.flatten = data := by
  induction data using splitStrings.induct entsize generalizing strings with
  | hentsize => exact hentsize
  | case1 =>
    rw [splitStrings] at h
    rw [← Except.ok.inj h, List.flatten_nil]
  | case2 b data hnull =>
    rw [splitStrings, hnull] at h
    cases h
  | case3 b data i hnull ih =>
    rw [splitStrings, hnull] at h
    obtain ⟨rest, hrest, rfl⟩ := Lib.map_eq_ok_iff.mp h
    rw [List.flatten_cons, ih hrest, List.take_append_drop]

theorem flatten_splitRecords {entsize : ℕ} (hentsize : 0 < entsize) (data : List UInt8) :
    (splitRecords entsize hentsize data).flatten = data := by
  induction data using splitRecords.induct entsize with
  | hentsize => exact hentsize
  | case1 => rw [splitRecords, List.flatten_nil]
  | case2 b data ih => rw [splitRecords, List.flatten_cons, ih, List.take_append_drop]

theorem length_strings_le {args : MergeArgs} {isec : ObjectFile.Section}
    (h : splitSection args isec = .ok (some m)) :
    m.strings.flatten.length ≤ isec.contents.length := by
  simp only [splitSection] at h
  split_ifs at h
  · cases h
  · cases h
  · obtain rfl := Option.some.inj (Except.ok.inj h)
    exact Nat.zero_le _
  · obtain ⟨strings, hsplit, hm⟩ := Lib.map_eq_ok_iff.mp h
    obtain rfl := Option.some.inj hm
    exact (congrArg List.length (flatten_splitStrings hsplit)).le
  · obtain ⟨strings, hsplit, hm⟩ := Lib.map_eq_ok_iff.mp h
    obtain rfl := Option.some.inj hm
    exact (congrArg List.length (flatten_splitStrings hsplit)).le
  · cases h
  · obtain rfl := Option.some.inj (Except.ok.inj h)
    exact (congrArg List.length (flatten_splitRecords _ _)).le

end MergeableSection

namespace MergedOutput

/-- For every mergeable section, every output and every reference: the reference is kept
exactly if its place is in a piece that is left. -/
theorem keepsReference_iff (out : MergedOutput) (args : MergeArgs) (isec : ObjectFile.Section)
    (ref : PieceRef) :
    out.KeepsReference args isec ref ↔ out.RefersToPiece args isec ref := by
  constructor
  · intro h m hm
    obtain ⟨before, data, hpiece, hfinds, halive, -⟩ := h m hm
    exact ⟨before, data, hpiece, halive, Or.inr hfinds⟩
  · intro h m hm
    obtain ⟨before, data, hpiece, halive, hlocated⟩ := h m hm
    have hfinds : Finds m ref.place before data := by
      rcases hlocated with hsmall | hfinds
      · exact MergeableSection.finds_of_inPiece hsmall hpiece
      · exact hfinds
    exact ⟨before, data, hpiece, hfinds, halive,
      MergeableSection.emitted_of_finds hpiece hfinds halive⟩

theorem keepsReference_iff_of_small (out : MergedOutput) {args : MergeArgs}
    {isec : ObjectFile.Section} (ref : PieceRef) (hsmall : isec.contents.length < 2 ^ 32) :
    out.KeepsReference args isec ref ↔ ∀ m, splitSection args isec = .ok (some m) →
      ∃ before data, InPiece m ref.place before data ∧
        out.isAlive { outputSection := m.parent, data := data } = true := by
  constructor
  · intro h m hm
    obtain ⟨before, data, hpiece, -, halive, -⟩ := h m hm
    exact ⟨before, data, hpiece, halive⟩
  · intro h m hm
    obtain ⟨before, data, hpiece, halive⟩ := h m hm
    have hlength := (MergeableSection.length_strings_le hm).trans_lt hsmall
    have hfinds := MergeableSection.finds_of_inPiece hlength hpiece
    exact ⟨before, data, hpiece, hfinds, halive,
      MergeableSection.emitted_of_finds hpiece hfinds halive⟩

def oneString : ObjectFile.Section where
  name := ".rodata.str1.1"
  shFlags := SHF_MERGE ||| SHF_STRINGS
  shEntsize := 1
  contents := [97, 0]
  shSize := 2

/-- `R_X86_64_PC32` against the section symbol with the addend `-4`. -/
def pcRelative : PieceRef where
  kind := .alloc
  stValue := 0
  addend := -4

/-- The first fragment of every merged section, at `0x1000`. -/
def oneFragment : MergedOutput where
  shAddr _ := 0x1000
  offset _ := 0
  isAlive _ := true

theorem splitSection_oneString : ∃ m, splitSection {} oneString = .ok (some m) := by
  have hstrings : splitStrings 1 Nat.one_pos [97, 0] = .ok [[97, 0]] := by
    rw [splitStrings]
    change (splitStrings 1 Nat.one_pos []).map _ = _
    rw [splitStrings]
    rfl
  refine ⟨{ parent := getInstance {} oneString.name oneString.shType oneString.shFlags,
            strings := [[97, 0]] }, ?_⟩
  change (splitStrings 1 _ [97, 0]).map _ = _
  rw [hstrings]
  rfl

/-- The place is four bytes in front of the first fragment. -/
theorem not_keepsReference : ¬oneFragment.KeepsReference {} oneString pcRelative := by
  intro h
  obtain ⟨m, hm⟩ := splitSection_oneString
  obtain ⟨before, data, ⟨-, hlow, -⟩, -⟩ := h m hm
  have hplace : pcRelative.place = -4 := by decide
  omega

end MergedOutput

end Mold.Elf
