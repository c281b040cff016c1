import Mold.MachO.SubsectionLookup
import Mold.MachO.SplitCorrect

/-!
# Calls of `find_subsection`

After parsing, the subsections of a file are sorted, and every address of a section leads to
its subsection.  `convert_common_symbols` appends subsections at address 0, and the vector is
no longer sorted for the calls behind it.
-/

namespace Mold.MachO.Subsections

open Mold.Lib

/-! ## The file -/

/-- The sort of `ObjectFile::parse`, which is stable. -/
def sortSubsections (subsections : List Span) : List Span :=
  subsections.insertionSort fun s t => s.inputAddr ≤ t.inputAddr

structure ParsedFile where
  subsections : List Span
  subsectionLookup : List (Option ℕ)
  numSections : ℕ

/-- The part of `ObjectFile::parse` that makes the subsections. -/
def parseFile (is64 viaSymbols : Bool) (sections : List (Option FileSection))
    (syms : List SectSym) : Option ParsedFile :=
  (splitFile is64 viaSymbols sections syms).map fun split =>
    let subsections := sortSubsections split.subsections
    { subsections := subsections
      subsectionLookup := buildSubsectionLookup subsections
      numSections := sections.length }

structure CommonSym where
  value : UInt64
  commonP2align : UInt8

/-- Its subsection, in the section that `get_common_sec` appends. -/
def commonSpan (file : ParsedFile) (msym : CommonSym) : Span where
  isec := file.numSections
  inputAddr := 0
  inputSize := msym.value.toUInt32
  p2align := msym.commonP2align

def convertCommonSymbols (file : ParsedFile) (syms : List CommonSym) : ParsedFile :=
  { file with subsections := file.subsections ++ syms.map (commonSpan file) }

/-- A call of `ObjectFile::find_subsection`. -/
def ParsedFile.find (file : ParsedFile) (addr : UInt32) : Option Span :=
  findSubsection Span.inputAddr file.subsections file.subsectionLookup addr

inductive FileEvent where
  | findSubsection (addr : UInt32)
  | convertCommonSymbols (syms : List CommonSym)

def ParsedFile.step (file : ParsedFile) : FileEvent → ParsedFile
  | .findSubsection _ => file
  | .convertCommonSymbols syms => convertCommonSymbols file syms

def ParsedFile.run (file : ParsedFile) (events : List FileEvent) : ParsedFile :=
  events.foldl ParsedFile.step file

/-- The call for an address finds the subsection that contains it if it is inside of a
section, and the table leads to what the search finds. -/
structure Found (sections : List (Option FileSection)) (file : ParsedFile) (addr : UInt32) :
    Prop where
  contains : ∀ i isec, sections[i]? = some (some isec) → isec.addr.toNat ≤ addr.toNat →
    addr.toNat < isec.inputEnd →
    ∃ s, file.find addr = some s ∧ s.isec = i ∧ s.Contains addr.toNat
  search : file.find addr = findSubsection Span.inputAddr file.subsections [] addr

/-! ## Condition -/

/-- The sections are split well and are apart, and an empty one that is not split by its
contents is before a section that begins at its address. -/
structure Searchable (is64 viaSymbols : Bool) (sections : List (Option FileSection))
    (syms : List SectSym) : Prop where
  pass : ∀ (i : ℕ) (isec : FileSection), sections[i]? = some (some isec) →
    HasPass isec.toInputSection
  fits : ∀ i isec, sections[i]? = some (some isec) → SectionFits is64 viaSymbols syms i isec
  apart : ∀ (i j : ℕ) (isec jsec : FileSection), i ≠ j → sections[i]? = some (some isec) →
    sections[j]? = some (some jsec) →
    isec.inputEnd ≤ jsec.addr.toNat ∨ jsec.inputEnd ≤ isec.addr.toNat
  order : ∀ (i j : ℕ) (isec jsec : FileSection), sections[i]? = some (some isec) →
    sections[j]? = some (some jsec) → isec.addr = jsec.addr → isec.size.toNat = 0 →
    0 < jsec.size.toNat → alwaysSplit jsec.toInputSection = true ∨ i < j

def CallsFirst (events : List FileEvent) : Prop :=
  ∀ before syms after, events = before ++ .convertCommonSymbols syms :: after → syms ≠ [] →
    ∀ addr, .findSubsection addr ∉ after

section File

variable {is64 viaSymbols : Bool} {sections : List (Option FileSection)}
  {syms : List SectSym} {split : Split}
variable {s : Span}

theorem mem_flatMap_zipIdx {α : Type*} {f : α × ℕ → List Span}
    (hf : ∀ t, ∀ s ∈ f t, s.isec = t.2) {l : List α}
    (h : s ∈ l.zipIdx.flatMap f) : ∃ x, l[s.isec]? = some x ∧ s ∈ f (x, s.isec) := by
  obtain ⟨⟨x, i⟩, ht, hs⟩ := List.mem_flatMap.mp h
  obtain rfl := hf (x, i) s hs
  exact ⟨x, List.mem_zipIdx_iff_getElem?.mp ht, hs⟩

theorem pairwise_flatMap_zipIdx {α : Type*} {f : α × ℕ → List Span}
    (hf : ∀ t, ∀ s ∈ f t, s.isec = t.2) (l : List α) (n : ℕ) :
    ((l.zipIdx n).flatMap f).Pairwise fun s t => s.isec ≤ t.isec := by
  induction l generalizing n with
  | nil => exact List.Pairwise.nil
  | cons x l ih =>
    rw [List.zipIdx_cons, List.flatMap_cons, List.pairwise_append]
    refine ⟨?_, ih (n + 1), fun s hs t ht => ?_⟩
    · refine List.pairwise_of_forall_mem_list fun s hs t ht => ?_
      rw [hf (x, n) s hs, hf (x, n) t ht]
    · obtain ⟨u, hu, ht⟩ := List.mem_flatMap.mp ht
      have hlt := List.le_snd_of_mem_zipIdx hu
      rw [hf (x, n) s hs, hf u t ht]
      simp only
      omega

def baseOf (viaSymbols : Bool) (sections : List (Option FileSection)) (syms : List SectSym)
    (section_ : Option InputSection × ℕ) : List Span :=
  match section_.1 with
  | none => []
  | some isec => baseSpans viaSymbols sections syms section_.2 isec

theorem subsections_base :
    (if viaSymbols then splitSubsectionsViaSymbols (headers sections) syms
        else initSubsections (headers sections) syms).subsections =
      (headers sections).zipIdx.flatMap (baseOf viaSymbols sections syms) := by
  cases viaSymbols with
  | true =>
    rw [if_pos rfl, splitSubsectionsViaSymbols, subsections_foldl, List.nil_append]
    congr 1
    funext section_
    obtain ⟨sec, i⟩ := section_
    cases sec with
    | none => rfl
    | some isec =>
      simp only [splitOf, baseOf, baseSpans, if_true]
      split <;> rfl
  | false =>
    rw [if_neg Bool.false_ne_true, initSubsections]
    simp only
    rw [List.filterMap_eq_flatMap_toList]
    congr 1
    funext section_
    obtain ⟨sec, i⟩ := section_
    cases sec with
    | none => rfl
    | some isec =>
      simp only [baseOf, baseSpans]
      cases h : alwaysSplit isec <;> simp [h]

theorem baseOf_owner (viaSymbols : Bool) (sections : List (Option FileSection))
    (syms : List SectSym) (section_ : Option InputSection × ℕ) :
    ∀ s ∈ baseOf viaSymbols sections syms section_, s.isec = section_.2 := by
  obtain ⟨sec, i⟩ := section_
  cases sec with
  | none => exact fun s hs => absurd hs List.not_mem_nil
  | some isec =>
    intro s hs
    simp only [baseOf, baseSpans] at hs
    split at hs
    · exact absurd hs List.not_mem_nil
    · split at hs
      · rw [splitSection_eq] at hs
        exact splitFrom_owner (show (addSubsec i isec isec.addr).isec = i from rfl) s hs
      · obtain rfl := List.mem_singleton.mp hs
        rfl

theorem section_of_mem_base
    (hs : s ∈ (headers sections).zipIdx.flatMap (baseOf viaSymbols sections syms)) :
    ∃ isec, sections[s.isec]? = some (some isec) ∧ alwaysSplit isec.toInputSection = false := by
  obtain ⟨sec, hsec, hs⟩ := mem_flatMap_zipIdx (baseOf_owner _ _ _) hs
  rw [headers, List.getElem?_map] at hsec
  obtain ⟨fileSec, hget, rfl⟩ := Option.map_eq_some_iff.mp hsec
  cases fileSec with
  | none => exact absurd hs List.not_mem_nil
  | some isec =>
    refine ⟨isec, hget, ?_⟩
    simp only [Option.map_some, baseOf, baseSpans] at hs
    cases hsplit : alwaysSplit isec.toInputSection with
    | false => rfl
    | true =>
      simp only [hsplit, if_true] at hs
      exact absurd hs List.not_mem_nil

theorem section_of_mem_forSections {pass : ℕ → FileSection → Option (List Span)}
    (howner : ∀ i isec, ∀ s ∈ (pass i isec).getD [], s.isec = i) {spans : List Span}
    (h : forSections pass sections = some spans) (hs : s ∈ spans) :
    ∃ isec, sections[s.isec]? = some (some isec) ∧ s ∈ (pass s.isec isec).getD [] := by
  obtain ⟨rfl, -⟩ := forSections_eq_some h
  obtain ⟨sec, hsec, hs⟩ := mem_flatMap_zipIdx (fun t s hs => by
    obtain ⟨sec, j⟩ := t
    cases sec with
    | none => exact absurd hs List.not_mem_nil
    | some isec => exact howner j isec s hs) hs
  cases sec with
  | none => exact absurd hs List.not_mem_nil
  | some isec => exact ⟨isec, hsec, hs⟩

theorem exists_literals (h : splitFile is64 viaSymbols sections syms = some split) :
    ∃ literals, split.subsections =
        (headers sections).zipIdx.flatMap (baseOf viaSymbols sections syms) ++ literals ∧
      ∀ s ∈ literals, ∃ isec, sections[s.isec]? = some (some isec) ∧
        alwaysSplit isec.toInputSection = true := by
  obtain ⟨cstrings, fixed, pointers, hc, hf, hp, rfl⟩ := splitFile_eq_some h
  refine ⟨cstrings ++ fixed ++ pointers, ?_, fun s hs => ?_⟩
  · simp only
    rw [subsections_base, List.append_assoc, List.append_assoc, List.append_assoc]
  · rcases List.mem_append.mp hs with hs | hs
    · rcases List.mem_append.mp hs with hs | hs
      · obtain ⟨isec, hsec, hs⟩ := section_of_mem_forSections (fun i isec => by
          split
          · exact splitCstrings_owner i isec
          · exact fun s hs => absurd hs List.not_mem_nil) hc hs
        refine ⟨isec, hsec, alwaysSplit_of_type ?_⟩
        split at hs
        case isTrue ht => exact .inl ht
        case isFalse => exact absurd hs List.not_mem_nil
      · obtain ⟨isec, hsec, hs⟩ := section_of_mem_forSections splitFixedSize_owner hf hs
        refine ⟨isec, hsec, alwaysSplit_of_type ?_⟩
        rw [splitFixedSize] at hs
        split at hs
        case isTrue ht => exact .inr (.inl ht)
        case isFalse =>
          split at hs
          case isTrue ht => exact .inr (.inr (.inl ht))
          case isFalse =>
            split at hs
            case isTrue ht => exact .inr (.inr (.inr (.inl ht)))
            case isFalse => exact absurd hs List.not_mem_nil
    · obtain ⟨isec, hsec, hs⟩ := section_of_mem_forSections
        (fun i isec => splitLiteralPointers_owner i isec) hp hs
      refine ⟨isec, hsec, alwaysSplit_of_type ?_⟩
      rw [Option.getD_some, splitLiteralPointers] at hs
      split at hs
      case isTrue ht => exact .inr (.inr (.inr (.inr ht)))
      case isFalse => exact absurd hs List.not_mem_nil

theorem section_of_mem (h : splitFile is64 viaSymbols sections syms = some split)
    (hs : s ∈ split.subsections) : ∃ isec, sections[s.isec]? = some (some isec) := by
  obtain ⟨literals, heq, hliterals⟩ := exists_literals h
  rw [heq] at hs
  rcases List.mem_append.mp hs with hs | hs
  · obtain ⟨isec, hsec, -⟩ := section_of_mem_base hs
    exact ⟨isec, hsec⟩
  · obtain ⟨isec, hsec, -⟩ := hliterals s hs
    exact ⟨isec, hsec⟩

theorem lt_of_section (h : splitFile is64 viaSymbols sections syms = some split) {k l : ℕ}
    {s t : Span} {isec jsec : FileSection} (hs : split.subsections[k]? = some s)
    (ht : split.subsections[l]? = some t) (hi : sections[s.isec]? = some (some isec))
    (hbase : alwaysSplit isec.toInputSection = false)
    (hj : sections[t.isec]? = some (some jsec))
    (horder : alwaysSplit jsec.toInputSection = true ∨ s.isec < t.isec) : k < l := by
  obtain ⟨literals, heq, hliterals⟩ := exists_literals h
  rw [heq] at hs ht
  have hk : k < ((headers sections).zipIdx.flatMap (baseOf viaSymbols sections syms)).length := by
    by_contra hk
    rw [List.getElem?_append_right (Nat.le_of_not_lt hk)] at hs
    obtain ⟨isec', hi', hsplit⟩ := hliterals s (List.mem_of_getElem? hs)
    obtain rfl := Option.some.inj (Option.some.inj (hi.symm.trans hi'))
    rw [hbase] at hsplit
    cases hsplit
  by_contra hkl
  have hl := Nat.lt_of_le_of_lt (Nat.le_of_not_lt hkl) hk
  rw [List.getElem?_append_left hk] at hs
  rw [List.getElem?_append_left hl] at ht
  rcases horder with hsplit | hlt
  · obtain ⟨jsec', hj', hbase'⟩ := section_of_mem_base (List.mem_of_getElem? ht)
    obtain rfl := Option.some.inj (Option.some.inj (hj.symm.trans hj'))
    rw [hbase'] at hsplit
    cases hsplit
  · have hpair := List.pairwise_iff_getElem.mp
      (pairwise_flatMap_zipIdx (baseOf_owner viaSymbols sections syms) (headers sections) 0)
    rw [List.getElem?_eq_getElem hk] at hs
    rw [List.getElem?_eq_getElem hl] at ht
    obtain rfl := Option.some.inj hs
    obtain rfl := Option.some.inj ht
    rcases Nat.lt_or_eq_of_le (Nat.le_of_not_lt hkl) with hlt' | rfl
    · have hle := hpair l k hl hk hlt'
      omega
    · exact Nat.lt_irrefl _ hlt

theorem Tiles.eq_of_contains {lo hi addr : ℕ} {l : List Span} (h : Tiles lo l hi)
    (hsize : ∀ s ∈ l, 0 < s.inputSize.toNat) {s t : Span} (hs : s ∈ l) (ht : t ∈ l)
    (hcontains : t.Contains addr) (hle : t.inputAddr.toNat ≤ s.inputAddr.toNat)
    (hs' : s.inputAddr.toNat ≤ addr) : s = t := by
  induction l generalizing lo with
  | nil => exact absurd hs List.not_mem_nil
  | cons u l ih =>
    obtain ⟨hstart, hrest⟩ := h
    obtain ⟨hu, hsize⟩ := List.forall_mem_cons.mp hsize
    have hend : u.inputAddr.toNat < u.inputEnd := Nat.lt_add_of_pos_right hu
    rcases List.mem_cons.mp hs with rfl | hsl <;> rcases List.mem_cons.mp ht with rfl | htl
    · rfl
    · have hlo := (hrest.bounds t htl).1
      omega
    · have hlo := (hrest.bounds s hsl).1
      have hhi := hcontains.2
      omega
    · exact ih hrest hsize hsl htl

theorem mem_ofSection {i : ℕ} : s ∈ ofSection split i ↔ s ∈ split.subsections ∧ s.isec = i := by
  rw [ofSection, List.mem_filter, decide_eq_true_eq]

theorem eq_of_begins (h : splitFile is64 viaSymbols sections syms = some split)
    (hfile : Searchable is64 viaSymbols sections syms) {k l addr : ℕ} {s t : Span}
    (hs : split.subsections[k]? = some s) (ht : split.subsections[l]? = some t)
    (hcontains : t.Contains addr) (hle : t.inputAddr.toNat ≤ s.inputAddr.toNat)
    (haddr : s.inputAddr.toNat ≤ addr) (hstable : s.inputAddr = t.inputAddr → l < k) :
    s = t := by
  have hs' := List.mem_of_getElem? hs
  have ht' := List.mem_of_getElem? ht
  obtain ⟨isec, hi⟩ := section_of_mem h hs'
  obtain ⟨jsec, hj⟩ := section_of_mem h ht'
  have hofi := mem_ofSection.mpr ⟨hs', rfl⟩
  have hofj := mem_ofSection.mpr ⟨ht', rfl⟩
  have htilesi := (tiles_iff h hi).mpr (hfile.fits _ _ hi) (hfile.pass _ _ hi)
  have htilesj := (tiles_iff h hj).mpr (hfile.fits _ _ hj) (hfile.pass _ _ hj)
  have hboundi := htilesi.bounds s hofi
  have hboundj := htilesj.bounds t hofj
  have hlt : t.inputAddr.toNat < t.inputEnd :=
    Nat.lt_of_le_of_lt hcontains.1 hcontains.2
  have hsize : 0 < jsec.size.toNat := by
    rw [InputSection.inputEnd] at hboundj
    omega
  by_cases heq : s.isec = t.isec
  · rw [heq] at hofi
    refine htilesj.eq_of_contains (fun u hu => ?_) hofi hofj hcontains hle haddr
    by_contra hzero
    have hjsize := size_eq_zero_of_fits h hj (hfile.fits _ _ hj) hu (by omega)
    omega
  · exfalso
    have hend := hcontains.2
    rcases hfile.apart _ _ isec jsec heq hi hj with happart | happart
    · -- The section of `s` ends before: it is empty and begins where `t` does.
      have hspan : s.inputEnd = s.inputAddr.toNat + s.inputSize.toNat := rfl
      have hsecEnd : isec.inputEnd = isec.addr.toNat + isec.size.toNat := rfl
      have hzero := size_eq_zero_of_fits h hi (hfile.fits _ _ hi) hofi (by omega)
      have hsame : isec.addr = jsec.addr := UInt64.toNat_inj.mp (by omega)
      have hst : s.inputAddr = t.inputAddr := UInt32.toNat_inj.mp (by omega)
      have hbase : alwaysSplit isec.toInputSection = false := by
        by_contra hsplit
        rw [Bool.not_eq_false] at hsplit
        have hfit := hfile.fits _ _ hi
        rw [SectionFits, if_pos hsplit] at hfit
        have hpos := size_pos_literals h hi hsplit hfit s hofi
        omega
      have hkl := lt_of_section h hs ht hi hbase hj
        (hfile.order _ _ isec jsec hi hj hsame hzero hsize)
      exact Nat.lt_asymm hkl (hstable hst)
    · omega

/-! ## Sorting -/

theorem addrSorted_sortSubsections (l : List Span) : AddrSorted (sortSubsections l) :=
  List.pairwise_insertionSort _ l

/-- The subsections with their places in the order of creation, in the order of their
addresses. -/
def sortedPlaces (l : List Span) : List (Span × ℕ) :=
  l.zipIdx.insertionSort fun s t => s.1.inputAddr ≤ t.1.inputAddr

theorem map_sortedPlaces (l : List Span) : (sortedPlaces l).map Prod.fst = sortSubsections l := by
  have hfst : l.zipIdx.map Prod.fst = l := List.zipIdx_map_fst 0 l
  have hmap := List.map_insertionSort (fun s t : Span × ℕ => s.1.inputAddr ≤ t.1.inputAddr)
    (fun s t : Span => s.inputAddr ≤ t.inputAddr) Prod.fst l.zipIdx
    fun _ _ _ _ => Iff.rfl
  rwa [hfst] at hmap

theorem pairwise_sortedPlaces (l : List Span) :
    (sortedPlaces l).Pairwise (InStableOrder fun s t => s.1.inputAddr ≤ t.1.inputAddr) :=
  pairwise_stable_insertionSort (r := fun s t : Span × ℕ => s.1.inputAddr ≤ t.1.inputAddr)
    (fun s t => UInt32.le_total s.1.inputAddr t.1.inputAddr)
    (fun _ _ _ hst htu => UInt32.le_trans hst htu) (pairwise_zipIdx l 0)

theorem getElem?_of_mem_sortedPlaces {l : List Span} {p : Span × ℕ} (h : p ∈ sortedPlaces l) :
    l[p.2]? = some p.1 :=
  List.mem_zipIdx_iff_getElem?.mp ((List.perm_insertionSort _ _).mem_iff.mp h)

theorem lastAtOrBelow_eq (h : splitFile is64 viaSymbols sections syms = some split)
    (hfile : Searchable is64 viaSymbols sections syms) {addr : UInt32} {t : Span}
    (ht : t ∈ split.subsections) (hcontains : t.Contains addr.toNat) :
    lastAtOrBelow (sortSubsections split.subsections) addr = some t := by
  have hsorted := addrSorted_sortSubsections split.subsections
  have hmap := map_sortedPlaces split.subsections
  obtain ⟨l, hl⟩ := List.mem_iff_getElem?.mp ht
  have hmem : (t, l) ∈ sortedPlaces split.subsections :=
    (List.perm_insertionSort _ _).mem_iff.mpr (List.mem_zipIdx_iff_getElem?.mpr hl)
  obtain ⟨q, hq⟩ := List.mem_iff_getElem?.mp hmem
  have hqt : (sortSubsections split.subsections)[q]? = some t := by
    rw [← hmap, List.getElem?_map, hq]
    rfl
  have hqlt : q < point (sortSubsections split.subsections) addr :=
    (le_iff_lt_point _ hsorted hqt).mp (UInt32.le_iff_toNat_le.mpr hcontains.1)
  rw [lastAtOrBelow]
  cases hpoint : point (sortSubsections split.subsections) addr with
  | zero =>
    rw [hpoint] at hqlt
    exact absurd hqlt (Nat.not_lt_zero q)
  | succ p =>
    have hplen : p < (sortedPlaces split.subsections).length := by
      have hle := point_le_length (sortSubsections split.subsections) addr
      rw [hpoint, ← hmap, List.length_map] at hle
      exact hle
    have hp := List.getElem?_eq_getElem hplen
    generalize (sortedPlaces split.subsections)[p] = found at hp
    obtain ⟨s, k⟩ := found
    have hps : (sortSubsections split.subsections)[p]? = some s := by
      rw [← hmap, List.getElem?_map, hp]
      rfl
    have hsaddr : s.inputAddr ≤ addr := (le_iff_lt_point _ hsorted hps).mpr (by omega)
    simp only
    rw [hps]
    rcases Nat.lt_or_eq_of_le (show q ≤ p by omega) with hlt | rfl
    · have hqlen := Nat.lt_trans hlt hplen
      have horder := List.pairwise_iff_getElem.mp (pairwise_sortedPlaces split.subsections)
        q p hqlen hplen hlt
      rw [List.getElem?_eq_getElem hqlen] at hq
      rw [List.getElem?_eq_getElem hplen] at hp
      rw [Option.some.inj hq, Option.some.inj hp] at horder
      have hk := getElem?_of_mem_sortedPlaces (List.mem_of_getElem?
        ((List.getElem?_eq_getElem hplen).trans hp))
      refine congrArg some (eq_of_begins h hfile hk hl hcontains
        (UInt32.le_iff_toNat_le.mp horder.1) (UInt32.le_iff_toNat_le.mp hsaddr)
        fun heq => horder.2 (UInt32.le_of_eq heq))
    · rw [hq] at hp
      exact congrArg some (Prod.mk.inj (Option.some.inj hp)).1.symm

theorem found_parseFile {file : ParsedFile}
    (h : parseFile is64 viaSymbols sections syms = some file)
    (hfile : Searchable is64 viaSymbols sections syms) (addr : UInt32) :
    Found sections file addr := by
  obtain ⟨split, hsplit, rfl⟩ := Option.map_eq_some_iff.mp h
  have hsorted := addrSorted_sortSubsections split.subsections
  have hfind : findSubsection Span.inputAddr (sortSubsections split.subsections)
      (buildSubsectionLookup (sortSubsections split.subsections)) addr =
        lastAtOrBelow (sortSubsections split.subsections) addr :=
    findSubsection_lookup hsorted
  refine ⟨fun i isec hsec hlo hhi => ?_, ?_⟩
  · have htiles := (tiles_iff hsplit hsec).mpr (hfile.fits _ _ hsec) (hfile.pass _ _ hsec)
    obtain ⟨t, ht, hcontains⟩ := htiles.exists_contains hlo hhi
    obtain ⟨ht, howner⟩ := mem_ofSection.mp ht
    refine ⟨t, ?_, howner, hcontains⟩
    rw [ParsedFile.find, hfind]
    exact lastAtOrBelow_eq hsplit hfile ht hcontains
  · rw [ParsedFile.find, hfind]
    exact (findSubsection_nil _ hsorted).symm

theorem run_eq_self {file : ParsedFile} {events : List FileEvent}
    (h : ∀ commons, .convertCommonSymbols commons ∈ events → commons = []) :
    file.run events = file := by
  induction events with
  | nil => rfl
  | cons event events ih =>
    rw [ParsedFile.run, List.foldl_cons]
    have hstep : file.step event = file := by
      cases event with
      | findSubsection addr => rfl
      | convertCommonSymbols commons =>
        obtain rfl := h commons List.mem_cons_self
        rw [ParsedFile.step, convertCommonSymbols, List.map_nil, List.append_nil]
    rw [hstep]
    exact ih fun commons hmem => h commons (List.mem_cons_of_mem _ hmem)

/-- In every run in which the calls come before common symbols are converted, each call
finds the subsection of its address. -/
theorem found_of_callsFirst {file : ParsedFile} (before events : List FileEvent)
    (h : parseFile is64 viaSymbols sections syms = some file)
    (hfile : Searchable is64 viaSymbols sections syms) (hevents : CallsFirst events)
    {after : List FileEvent} {addr : UInt32}
    (hcall : events = before ++ .findSubsection addr :: after) :
    Found sections (file.run before) addr := by
  rw [run_eq_self fun commons hmem => ?_]
  · exact found_parseFile h hfile addr
  · obtain ⟨pre, post, rfl⟩ := List.append_of_mem hmem
    by_contra hne
    refine hevents pre commons (post ++ .findSubsection addr :: after) ?_ hne addr
      (List.mem_append_right _ List.mem_cons_self)
    rw [hcall, List.append_assoc, List.cons_append]

end File

theorem searchable_sixteenBytes : Searchable true false [some sixteenBytes] [] where
  pass := fun i isec hsec => by
    cases i with
    | succ i => cases hsec
    | zero =>
      obtain rfl := Option.some.inj (Option.some.inj hsec)
      exact .inl rfl
  fits := fun i isec hsec => by
    cases i with
    | succ i => cases hsec
    | zero =>
      obtain rfl := Option.some.inj (Option.some.inj hsec)
      exact ⟨by decide, by decide⟩
  apart := fun i j isec jsec hne hi hj => by
    cases i with
    | succ i => cases hi
    | zero =>
      cases j with
      | zero => exact absurd rfl hne
      | succ j => cases hj
  order := fun i j isec jsec hi hj _ hisize hjsize => by
    cases i with
    | succ i => cases hi
    | zero =>
      obtain rfl := Option.some.inj (Option.some.inj hi)
      exact absurd hisize (by decide)

/-- A call before a common symbol is converted. -/
theorem found_of_callsFirst_example :
    ∃ file, parseFile true false [some sixteenBytes] [] = some file ∧
      Found [some sixteenBytes] (file.run []) 8 := by
  refine ⟨_, rfl, found_of_callsFirst []
    [.findSubsection 8, .convertCommonSymbols [{ value := 8, commonP2align := 3 }]] rfl
    searchable_sixteenBytes ?_ rfl⟩
  intro before syms after hevents _ addr hmem
  rcases before with _ | ⟨_, _ | ⟨_, before⟩⟩
  · cases hevents
  · obtain rfl := (List.cons.inj (List.cons.inj hevents).2).2
    exact List.not_mem_nil hmem
  · have hlen := congrArg List.length hevents
    simp only [List.length_append, List.length_cons, List.length_nil] at hlen
    omega

/-- A call behind the conversion finds the common symbol. -/
theorem not_found_example :
    ∃ file, parseFile true false [some sixteenBytes] [] = some file ∧
      ¬ Found [some sixteenBytes]
        (file.run [.convertCommonSymbols [{ value := 8, commonP2align := 3 }]]) 8 := by
  refine ⟨_, rfl, fun hfound => ?_⟩
  obtain ⟨s, hs, howner, -⟩ := hfound.contains 0 sixteenBytes rfl (by decide) (by decide)
  obtain rfl := Option.some.inj hs
  exact absurd howner (by decide)

end Mold.MachO.Subsections
