import Mold.Lib.OptionTraverse
import Mold.MachO.SplitPieces
import Mold.MachO.SplitSymbols

/-!
# Correctness of splitting

The subsections of each section tile it, and the symbols are in the subsections for their
addresses, exactly if the places fit into 32 bits, the literals fill their sections, and no
alternate entry comes before the symbol that cuts the section at its address.
-/

namespace Mold.MachO.Subsections

open Mold.Lib

def HasPass (isec : InputSection) : Prop :=
  alwaysSplit isec = false ∨ isec.hdr.type = cstringLiterals ∨
    isec.hdr.type = fourByteLiterals ∨ isec.hdr.type = eightByteLiterals ∨
    isec.hdr.type = sixteenByteLiterals ∨ isec.hdr.type = literalPointers

structure IsInside (sections : List (Option FileSection)) (syms : List SectSym) (j : ℕ)
    (msym : SectSym) (i : ℕ) (isec : FileSection) : Prop where
  sym : syms[j]? = some msym
  isIn : IsIn i msym
  sec : sections[i]? = some (some isec)
  split : alwaysSplit isec.toInputSection = false
  lo : isec.addr.toNat ≤ msym.value.toNat
  hi : msym.value.toNat < isec.inputEnd

def ofSection (split : Split) (i : ℕ) : List Span :=
  split.subsections.filter fun s => s.isec = i

structure SplitOk (viaSymbols : Bool) (sections : List (Option FileSection))
    (syms : List SectSym) (split : Split) : Prop where
  tiles : ∀ i isec, sections[i]? = some (some isec) → HasPass isec.toInputSection →
    Tiles isec.addr.toNat (ofSection split i) isec.inputEnd
  nonempty : ∀ i isec, sections[i]? = some (some isec) →
    ∀ s ∈ ofSection split i, s.inputSize.toNat = 0 → isec.size.toNat = 0
  symbols : viaSymbols = true → ∀ j msym i isec, IsInside sections syms j msym i isec →
    ∃ k s, split.symToSubsec j = some k ∧ split.subsections[k]? = some s ∧ s.isec = i ∧
      s.Contains msym.value.toNat

def WholeFits (isec : InputSection) : Prop :=
  isec.addr.toNat < 2 ^ 32 ∧ isec.size.toNat < 2 ^ 32

/-- The strings begin below 4 GiB, and the last one is smaller than that. -/
def StringsFit (isec : FileSection) : Prop :=
  (∀ p, IsStart isec.contents p → isec.addr.toNat + p < 2 ^ 32) ∧
    (isec.contents = [] ∨ ∃ p, IsStart isec.contents p ∧ isec.contents.length < p + 2 ^ 32)

/-- The literals of one size begin below 4 GiB. -/
def LastFits (isec : InputSection) (size : ℕ) : Prop :=
  isec.size.toNat = 0 ∨ isec.inputEnd < 2 ^ 32 + size

/-- The literals end where the section ends, and their places and sizes have 32 bits. -/
def LiteralsFit (is64 : Bool) (isec : FileSection) : Prop :=
  if isec.hdr.type = cstringLiterals then
    isec.contents.length = isec.size.toNat ∧ StringsFit isec
  else if isec.hdr.type = fourByteLiterals then
    isec.contents.length = isec.size.toNat ∧ LastFits isec.toInputSection 4
  else if isec.hdr.type = eightByteLiterals then
    isec.contents.length = isec.size.toNat ∧ LastFits isec.toInputSection 8
  else if isec.hdr.type = sixteenByteLiterals then
    isec.contents.length = isec.size.toNat ∧ LastFits isec.toInputSection 16
  else if isec.hdr.type = literalPointers then
    (isec.contents.length + wordSize is64 - 1) / wordSize is64 * wordSize is64 =
        isec.size.toNat ∧ LastFits isec.toInputSection (wordSize is64)
  else True

def SectionFits (is64 viaSymbols : Bool) (syms : List SectSym) (i : ℕ) (isec : FileSection) :
    Prop :=
  if alwaysSplit isec.toInputSection then LiteralsFit is64 isec
  else if viaSymbols then CutsOf syms i isec.toInputSection
  else WholeFits isec.toInputSection

structure FileFits (is64 viaSymbols : Bool) (sections : List (Option FileSection))
    (syms : List SectSym) : Prop where
  fits : ∀ i isec, sections[i]? = some (some isec) → SectionFits is64 viaSymbols syms i isec
  symbols : viaSymbols = true → ∀ j msym i isec, IsInside sections syms j msym i isec →
    Kept syms i isec.toInputSection j msym

/-! ## Sections of a file -/

theorem filter_flatMap_zipIdx {α : Type*} {f : α × ℕ → List Span}
    (hf : ∀ t, ∀ s ∈ f t, s.isec = t.2) {l : List α} {k : ℕ} {x : α} (h : l[k]? = some x)
    (n : ℕ) :
    ((l.zipIdx n).flatMap f).filter (fun s => decide (s.isec = n + k)) = f (x, n + k) := by
  induction l generalizing n k with
  | nil => cases h
  | cons y l ih =>
    rw [List.zipIdx_cons, List.flatMap_cons, List.filter_append]
    cases k with
    | zero =>
      obtain rfl := Option.some.inj h
      have hrest : ((l.zipIdx (n + 1)).flatMap f).filter
          (fun s => decide (s.isec = n + 0)) = [] := by
        refine List.filter_eq_nil_iff.mpr fun s hs => ?_
        obtain ⟨t, ht, hs⟩ := List.mem_flatMap.mp hs
        have hlt := List.le_snd_of_mem_zipIdx ht
        have howner := hf t s hs
        simp only [decide_eq_true_eq]
        omega
      rw [hrest, List.append_nil]
      exact List.filter_eq_self.mpr fun s hs => decide_eq_true (hf (y, n) s hs)
    | succ k =>
      have hhead : (f (y, n)).filter (fun s => decide (s.isec = n + (k + 1))) = [] := by
        refine List.filter_eq_nil_iff.mpr fun s hs => ?_
        have howner := hf (y, n) s hs
        simp only [decide_eq_true_eq]
        omega
      rw [hhead, List.nil_append, Nat.add_comm k 1, ← Nat.add_assoc]
      exact ih h (n + 1)

def passSpans (split : ℕ → FileSection → Option (List Span))
    (section_ : Option FileSection × ℕ) : List Span :=
  match section_.1 with
  | none => []
  | some isec => (split section_.2 isec).getD []

theorem forSections_eq_some {split : ℕ → FileSection → Option (List Span)}
    {sections : List (Option FileSection)} {spans : List Span}
    (h : forSections split sections = some spans) :
    spans = sections.zipIdx.flatMap (passSpans split) ∧
      ∀ i isec, sections[i]? = some (some isec) → split i isec ≠ none := by
  obtain ⟨r, hr, rfl⟩ := Option.map_eq_some_iff.mp h
  obtain ⟨rfl, hall⟩ := (mapM_eq_some_iff fun _ => []).mp hr
  refine ⟨?_, fun i isec hsec => ?_⟩
  · rw [List.flatMap_def]
    congr 1
    refine List.map_congr_left fun section_ _ => ?_
    obtain ⟨sec, i⟩ := section_
    cases sec <;> rfl
  · exact hall (some isec, i) (List.mem_zipIdx_iff_getElem?.mpr hsec)

variable {i : ℕ} {isec : FileSection}

theorem filter_forSections {split : ℕ → FileSection → Option (List Span)}
    (howner : ∀ i isec, ∀ s ∈ (split i isec).getD [], s.isec = i)
    {sections : List (Option FileSection)} {spans : List Span}
    (h : forSections split sections = some spans)
    (hsec : sections[i]? = some (some isec)) :
    split i isec = some (spans.filter fun s => s.isec = i) := by
  obtain ⟨rfl, hall⟩ := forSections_eq_some h
  have hfilter := filter_flatMap_zipIdx (f := passSpans split) (fun t s hs => by
    obtain ⟨sec, j⟩ := t
    cases sec with
    | none => exact absurd hs List.not_mem_nil
    | some isec => exact howner j isec s hs) hsec 0
  rw [Nat.zero_add] at hfilter
  rw [hfilter, passSpans]
  cases hsplit : split i isec with
  | none => exact absurd hsplit (hall i isec hsec)
  | some spans => simp only [hsplit, Option.getD_some]

section Symbols

variable {ents : List (SectSym × ℕ)}

def splitOf (ents : List (SectSym × ℕ)) (section_ : Option InputSection × ℕ) :
    List Span × List (ℕ × ℕ) :=
  match section_.1 with
  | none => ([], [])
  | some isec =>
    if alwaysSplit isec then ([], [])
    else splitSection section_.2 isec (ents.filter fun ent => ent.1.sect == section_.2 + 1)

theorem splitOf_of_not_alwaysSplit {isec : InputSection} (h : ¬ alwaysSplit isec = true) :
    splitOf ents (some isec, i) =
      splitSection i isec (ents.filter fun ent => ent.1.sect == i + 1) :=
  if_neg h

theorem splitNext_eq (split : Split) (section_ : Option InputSection × ℕ) :
    splitNext ents split section_ =
      { subsections := split.subsections ++ (splitOf ents section_).1
        symToSubsec := fun j =>
          match (splitOf ents section_).2.lookup j with
          | some k => some (split.subsections.length + k)
          | none => split.symToSubsec j } := by
  obtain ⟨sec, i⟩ := section_
  cases sec with
  | none => simp [splitNext, splitOf]
  | some isec =>
    cases h : alwaysSplit isec with
    | true => simp [splitNext, splitOf, h]
    | false =>
      have hnot : ¬ alwaysSplit isec = true := h ▸ Bool.false_ne_true
      rw [splitOf_of_not_alwaysSplit hnot]
      exact if_neg hnot

theorem subsections_foldl (l : List (Option InputSection × ℕ)) (split : Split) :
    (l.foldl (splitNext ents) split).subsections =
      split.subsections ++ l.flatMap fun section_ => (splitOf ents section_).1 := by
  induction l generalizing split with
  | nil => simp
  | cons section_ l ih =>
    rw [List.foldl_cons, ih, splitNext_eq, List.flatMap_cons, List.append_assoc]

theorem symToSubsec_foldl {l : List (Option InputSection × ℕ)} {j : ℕ}
    (h : ∀ section_ ∈ l, (splitOf ents section_).2.lookup j = none) (split : Split) :
    (l.foldl (splitNext ents) split).symToSubsec j = split.symToSubsec j := by
  induction l generalizing split with
  | nil => rfl
  | cons section_ l ih =>
    obtain ⟨hhead, hl⟩ := List.forall_mem_cons.mp h
    rw [List.foldl_cons, ih hl, splitNext_eq]
    simp only [hhead]

theorem getElem?_symToSubsec (before : List (Option InputSection × ℕ)) (split : Split)
    {after : List (Option InputSection × ℕ)} {section_ : Option InputSection × ℕ} {j k : ℕ}
    {s : Span}
    (hgiven : (splitOf ents section_).2.lookup j = some k)
    (hspan : (splitOf ents section_).1[k]? = some s)
    (hafter : ∀ t ∈ after, (splitOf ents t).2.lookup j = none) :
    ∃ q, ((before ++ section_ :: after).foldl (splitNext ents) split).symToSubsec j = some q ∧
      ((before ++ section_ :: after).foldl (splitNext ents) split).subsections[q]? = some s := by
  refine ⟨(before.foldl (splitNext ents) split).subsections.length + k, ?_, ?_⟩
  · rw [List.foldl_append, List.foldl_cons, symToSubsec_foldl hafter, splitNext_eq]
    simp only [hgiven]
  · rw [List.foldl_append, List.foldl_cons, subsections_foldl, splitNext_eq]
    have hlt : k < (splitOf ents section_).1.length :=
      (List.getElem?_eq_some_iff.mp hspan).1
    simp only
    rw [List.append_assoc, List.getElem?_append_right (Nat.le_add_right _ _),
      Nat.add_sub_cancel_left, List.getElem?_append_left hlt, hspan]

theorem splitFrom_owner {idx n : ℕ} {isec : InputSection} {last : Span}
    {l : List (SectSym × ℕ)} (h : last.isec = idx) :
    ∀ s ∈ (splitFrom idx isec last n l).1, s.isec = idx := by
  induction l generalizing last n with
  | nil => exact List.forall_mem_singleton.mpr h
  | cons ent l ih =>
    rw [splitFrom]
    split
    · exact List.forall_mem_cons.mpr ⟨h, ih rfl⟩
    · exact ih h

theorem map_fst_splitFrom (idx n : ℕ) (isec : InputSection) (last : Span)
    (l : List (SectSym × ℕ)) :
    (splitFrom idx isec last n l).2.map Prod.fst = l.map Prod.snd := by
  induction l generalizing last n with
  | nil => rfl
  | cons ent l ih =>
    rw [splitFrom]
    split
    · rw [List.map_cons, List.map_cons, ih]
    · rw [List.map_cons, List.map_cons, ih]

theorem splitOf_owner (section_ : Option InputSection × ℕ) :
    ∀ s ∈ (splitOf ents section_).1, s.isec = section_.2 := by
  obtain ⟨sec, i⟩ := section_
  cases sec with
  | none => exact fun s hs => absurd hs List.not_mem_nil
  | some isec =>
    rw [splitOf]
    simp only
    split
    · exact fun s hs => absurd hs List.not_mem_nil
    · rw [splitSection_eq]
      exact splitFrom_owner rfl

theorem lookup_eq_none_of_not_mem {l : List (ℕ × ℕ)} {j : ℕ} (h : j ∉ l.map Prod.fst) :
    l.lookup j = none :=
  List.lookup_eq_none_iff.mpr fun p hp => by
    rw [bne_iff_ne]
    rintro rfl
    exact h (List.mem_map_of_mem hp)

theorem lookup_of_getElem? {l : List (ℕ × ℕ)} {p j k : ℕ} (hnodup : (l.map Prod.fst).Nodup)
    (h : l[p]? = some (j, k)) : l.lookup j = some k := by
  induction l generalizing p with
  | nil => cases h
  | cons q l ih =>
    obtain ⟨a, b⟩ := q
    obtain ⟨hq, hl⟩ := List.nodup_cons.mp hnodup
    cases p with
    | zero =>
      obtain ⟨rfl, rfl⟩ := Prod.mk.inj (Option.some.inj h)
      exact List.lookup_cons_self
    | succ p =>
      rw [List.getElem?_cons_succ] at h
      have hne : j ≠ a := fun heq =>
        hq (heq ▸ List.mem_map.mpr ⟨(j, k), List.mem_of_getElem? h, rfl⟩)
      rw [List.lookup_cons, beq_false_of_ne hne]
      exact ih hl h

theorem nodup_sectionEntries (sections : List (Option InputSection)) (syms : List SectSym)
    (i : ℕ) : ((sectionEntries sections syms i).map Prod.snd).Nodup := by
  have hnodup : ((syms.zipIdx).map Prod.snd).Nodup :=
    List.pairwise_map.mpr ((pairwise_zipIdx syms 0).imp Nat.ne_of_lt)
  have hfilter := hnodup.sublist ((List.filter_sublist
    (p := fun ent : SectSym × ℕ => !ent.1.stab && ent.1.isSect &&
      ((sections[ent.1.sect - 1]?).join).isSome)).map Prod.snd)
  have hsort := ((List.perm_insertionSort (fun a b : SectSym × ℕ => a.1.sect < b.1.sect ∨
    (a.1.sect = b.1.sect ∧ a.1.value ≤ b.1.value)) _).map Prod.snd).nodup_iff.mpr hfilter
  exact hsort.sublist (List.filter_sublist.map Prod.snd)

end Symbols

section File

variable {is64 viaSymbols : Bool} {sections : List (Option FileSection)}
  {syms : List SectSym} {split : Split}

def headers (sections : List (Option FileSection)) : List (Option InputSection) :=
  sections.map (Option.map FileSection.toInputSection)

def baseSpans (viaSymbols : Bool) (sections : List (Option FileSection)) (syms : List SectSym)
    (i : ℕ) (isec : InputSection) : List Span :=
  if alwaysSplit isec then []
  else if viaSymbols then (splitSection i isec (sectionEntries (headers sections) syms i)).1
  else [wholeSection i isec]

theorem headers_getElem? (hsec : sections[i]? = some (some isec)) :
    (headers sections)[i]? = some (some isec.toInputSection) := by
  rw [headers, List.getElem?_map, hsec]
  rfl

theorem filter_base (hsec : sections[i]? = some (some isec)) :
    ((if viaSymbols then splitSubsectionsViaSymbols (headers sections) syms
        else initSubsections (headers sections) syms).subsections.filter
          fun s => decide (s.isec = i)) =
      baseSpans viaSymbols sections syms i isec.toInputSection := by
  have hheader := headers_getElem? hsec
  cases viaSymbols with
  | true =>
    have h := filter_flatMap_zipIdx (f := fun section_ =>
      (splitOf (sectSyms (headers sections) syms) section_).1) splitOf_owner hheader 0
    rw [Nat.zero_add] at h
    rw [if_pos rfl, splitSubsectionsViaSymbols, subsections_foldl, List.nil_append, h, splitOf,
      baseSpans]
    simp only [if_true]
    split <;> rfl
  | false =>
    have h := filter_flatMap_zipIdx (f := fun section_ : Option InputSection × ℕ =>
      ((section_.1.filter fun isec => !alwaysSplit isec).map
        (wholeSection section_.2)).toList) (fun t s hs => by
          obtain ⟨isec, -, rfl⟩ := Option.map_eq_some_iff.mp (Option.mem_toList.mp hs)
          rfl) hheader 0
    rw [Nat.zero_add] at h
    rw [if_neg Bool.false_ne_true, initSubsections, List.filterMap_eq_flatMap_toList, h, baseSpans]
    cases hsplit : alwaysSplit isec.toInputSection <;> simp [hsplit]

variable {pieces : List (ℕ × ℕ)}

theorem literalSpans_owner {idx : ℕ} {isec : InputSection} {p2align : ℕ × ℕ → UInt8} :
    ∀ s ∈ pieces.map fun piece => literalSpan idx isec (p2align piece) piece.1 piece.2,
      s.isec = idx := by
  intro s hs
  obtain ⟨piece, -, rfl⟩ := List.mem_map.mp hs
  rfl

theorem splitCstrings_owner (idx : ℕ) (isec : FileSection) :
    ∀ s ∈ (splitCstrings idx isec).getD [], s.isec = idx := by
  rw [splitCstrings]
  cases cstringPieces isec.contents.length 0 isec.contents with
  | none => exact fun s hs => absurd hs List.not_mem_nil
  | some pieces => exact literalSpans_owner

theorem splitFixed_owner (idx : ℕ) (isec : FileSection) (size : ℕ) :
    ∀ s ∈ (splitFixed idx isec size).getD [], s.isec = idx := by
  rw [splitFixed]
  split
  · exact fun s hs => absurd hs List.not_mem_nil
  · exact literalSpans_owner

theorem splitFixedSize_owner (idx : ℕ) (isec : FileSection) :
    ∀ s ∈ (splitFixedSize idx isec).getD [], s.isec = idx := by
  rw [splitFixedSize]
  split
  · exact splitFixed_owner idx isec 4
  · split
    · exact splitFixed_owner idx isec 8
    · split
      · exact splitFixed_owner idx isec 16
      · exact fun s hs => absurd hs List.not_mem_nil

theorem splitLiteralPointers_owner (idx : ℕ) (isec : FileSection) :
    ∀ s ∈ (some (splitLiteralPointers is64 idx isec)).getD [], s.isec = idx := by
  rw [Option.getD_some, splitLiteralPointers]
  split
  · exact literalSpans_owner
  · exact fun s hs => absurd hs List.not_mem_nil

theorem splitFile_eq_some (h : splitFile is64 viaSymbols sections syms = some split) :
    ∃ cstrings fixed pointers,
      forSections (fun idx isec =>
        if isec.hdr.type = cstringLiterals then splitCstrings idx isec else some [])
          sections = some cstrings ∧
      forSections splitFixedSize sections = some fixed ∧
      forSections (fun idx isec => some (splitLiteralPointers is64 idx isec)) sections =
        some pointers ∧
      split = { (if viaSymbols then splitSubsectionsViaSymbols (headers sections) syms
          else initSubsections (headers sections) syms) with
        subsections := (if viaSymbols then splitSubsectionsViaSymbols (headers sections) syms
          else initSubsections (headers sections) syms).subsections ++ cstrings ++ fixed ++
            pointers } := by
  rw [splitFile] at h
  obtain ⟨cstrings, hcstrings, h⟩ := Option.bind_eq_some_iff.mp h
  obtain ⟨fixed, hfixed, h⟩ := Option.bind_eq_some_iff.mp h
  obtain ⟨pointers, hpointers, h⟩ := Option.map_eq_some_iff.mp h
  exact ⟨cstrings, fixed, pointers, hcstrings, hfixed, hpointers, h.symm⟩

theorem ofSection_eq (h : splitFile is64 viaSymbols sections syms = some split)
    (hsec : sections[i]? = some (some isec)) :
    ∃ cstrings fixed,
      (if isec.hdr.type = cstringLiterals then splitCstrings i isec else some []) = some cstrings ∧
      splitFixedSize i isec = some fixed ∧
      ofSection split i = baseSpans viaSymbols sections syms i isec.toInputSection ++ cstrings ++
        fixed ++ splitLiteralPointers is64 i isec := by
  obtain ⟨cstrings, fixed, pointers, hcstrings, hfixed, hpointers, rfl⟩ := splitFile_eq_some h
  have hc := filter_forSections (fun i isec => by
    split
    · exact splitCstrings_owner i isec
    · exact fun s hs => absurd hs List.not_mem_nil) hcstrings hsec
  have hf := filter_forSections splitFixedSize_owner hfixed hsec
  have hp := filter_forSections splitLiteralPointers_owner hpointers hsec
  refine ⟨_, _, hc, hf, ?_⟩
  rw [ofSection]
  simp only
  rw [List.filter_append, List.filter_append, List.filter_append, filter_base hsec,
    Option.some.inj hp]

/-! ## Tiles -/

theorem alwaysSplit_of_type {isec : InputSection}
    (h : isec.hdr.type = cstringLiterals ∨ isec.hdr.type = fourByteLiterals ∨
      isec.hdr.type = eightByteLiterals ∨ isec.hdr.type = sixteenByteLiterals ∨
      isec.hdr.type = literalPointers) : alwaysSplit isec = true := by
  rw [alwaysSplit]
  rcases h with h | h | h | h | h <;> simp [h]

theorem type_ne_of_not_alwaysSplit {isec : InputSection} (h : alwaysSplit isec = false) :
    isec.hdr.type ≠ cstringLiterals ∧ isec.hdr.type ≠ fourByteLiterals ∧
      isec.hdr.type ≠ eightByteLiterals ∧ isec.hdr.type ≠ sixteenByteLiterals ∧
      isec.hdr.type ≠ literalPointers := by
  have hno (ht : isec.hdr.type = cstringLiterals ∨ isec.hdr.type = fourByteLiterals ∨
      isec.hdr.type = eightByteLiterals ∨ isec.hdr.type = sixteenByteLiterals ∨
      isec.hdr.type = literalPointers) : False := by
    rw [alwaysSplit_of_type ht] at h
    cases h
  exact ⟨fun h => hno (.inl h), fun h => hno (.inr (.inl h)),
    fun h => hno (.inr (.inr (.inl h))), fun h => hno (.inr (.inr (.inr (.inl h)))),
    fun h => hno (.inr (.inr (.inr (.inr h))))⟩

theorem ofSection_base (h : splitFile is64 viaSymbols sections syms = some split)
    (hsec : sections[i]? = some (some isec))
    (hsplit : alwaysSplit isec.toInputSection = false) :
    ofSection split i =
      if viaSymbols then
        (splitSection i isec.toInputSection (sectionEntries (headers sections) syms i)).1
      else [wholeSection i isec.toInputSection] := by
  obtain ⟨cstrings, fixed, hc, hf, heq⟩ := ofSection_eq h hsec
  obtain ⟨h2, h3, h4, he, h5⟩ := type_ne_of_not_alwaysSplit hsplit
  rw [if_neg h2] at hc
  rw [splitFixedSize, if_neg h3, if_neg h4, if_neg he] at hf
  rw [heq, splitLiteralPointers, if_neg h5, ← Option.some.inj hc, ← Option.some.inj hf,
    List.append_nil, List.append_nil, List.append_nil, baseSpans, hsplit,
    if_neg Bool.false_ne_true]

theorem tiles_whole_iff {isec : InputSection} :
    Tiles isec.addr.toNat [wholeSection i isec] isec.inputEnd ↔ WholeFits isec := by
  have haddr : (wholeSection i isec).inputAddr.toNat = isec.addr.toNat % 2 ^ 32 :=
    UInt64.toNat_toUInt32 _
  have hsize : (wholeSection i isec).inputSize.toNat = isec.size.toNat % 2 ^ 32 :=
    UInt64.toNat_toUInt32 _
  rw [Tiles, Tiles, Span.inputEnd, haddr, hsize, WholeFits, InputSection.inputEnd]
  omega

theorem tiles_splitSection_iff (hsec : sections[i]? = some (some isec)) :
    Tiles isec.addr.toNat
        (splitSection i isec.toInputSection (sectionEntries (headers sections) syms i)).1
        isec.inputEnd ↔ CutsOf syms i isec.toInputSection := by
  have hiff := cutsFit_iff syms (headers_getElem? hsec)
  rw [← hiff]
  refine ⟨cutsFit_of_tiles (ascending_sectionEntries i), fun hfit => ?_⟩
  obtain ⟨s, rest, heq, hs, htiles, -⟩ := splitFrom_tiles i 0 hfit.low hfit (lastAt_addr _)
    (ascending_sectionEntries i)
  rw [splitSection_eq, heq]
  exact ⟨hs.inputAddr, htiles⟩

theorem ceil_mul_of_mod_eq_zero {n size : ℕ} (hsize : 0 < size) (h : n % size = 0) :
    (n + size - 1) / size * size = n := by
  obtain ⟨k, rfl⟩ := Nat.dvd_of_mod_eq_zero h
  have hdiv : (size * k + size - 1) / size = k := by
    rw [Nat.add_sub_assoc hsize, Nat.mul_add_div hsize,
      Nat.div_eq_of_lt (Nat.sub_lt hsize Nat.one_pos), Nat.add_zero]
  rw [hdiv, Nat.mul_comm]

theorem fixedPieces_fit_iff {size : ℕ} (hsize : 0 < size) (hsize32 : size < 2 ^ 32)
    (htotal : (isec.contents.length + size - 1) / size * size = isec.size.toNat) :
    (∀ piece ∈ fixedPieces size isec.contents.length, PieceFits isec.toInputSection piece) ↔
      LastFits isec.toInputSection size := by
  rw [LastFits, InputSection.inputEnd, ← htotal, fixedPieces]
  generalize (isec.contents.length + size - 1) / size = n
  simp only [List.forall_mem_map, List.mem_range, PieceFits]
  cases n with
  | zero => simp
  | succ n =>
    have hpos : ¬ (n + 1) * size = 0 := Nat.ne_of_gt (Nat.mul_pos n.succ_pos hsize)
    rw [or_iff_right hpos, Nat.succ_mul]
    constructor
    · intro h
      have hlast := (h n (Nat.lt_succ_self n)).1
      omega
    · intro h k hk
      have hle : k * size ≤ n * size := Nat.mul_le_mul_right size (Nat.le_of_lt_succ hk)
      exact ⟨by omega, hsize32⟩

theorem cstringPieces_fit_iff
    (h : cstringPieces isec.contents.length 0 isec.contents = some pieces) :
    (∀ piece ∈ pieces, PieceFits isec.toInputSection piece) ↔ StringsFit isec := by
  obtain ⟨hpieces, -⟩ := consecutive_cstringPieces h
  have hstart := mem_cstringPieces_iff h
  simp only [Nat.zero_add] at hpieces hstart
  constructor
  · intro hfits
    refine ⟨fun p hp => ?_, ?_⟩
    · obtain ⟨piece, hmem, rfl⟩ := (hstart p).mpr hp
      exact (hfits piece hmem).1
    · rcases hpieces.exists_last with hzero | ⟨piece, hmem, hend⟩
      · exact .inl (List.length_eq_zero_iff.mp hzero.symm)
      · have hsize := (hfits piece hmem).2
        exact .inr ⟨piece.1, (hstart piece.1).mp ⟨piece, hmem, rfl⟩, by omega⟩
  · rintro ⟨hstarts, hlast⟩ piece hmem
    have haddr := hstarts piece.1 ((hstart piece.1).mp ⟨piece, hmem, rfl⟩)
    refine ⟨haddr, ?_⟩
    obtain ⟨-, hend⟩ := hpieces.bounds piece hmem
    rcases hlast with hnil | ⟨p, hp, hlen⟩
    · rw [hnil, List.length_nil] at hend
      omega
    · have hp32 := hstarts p hp
      obtain ⟨piece', hmem', rfl⟩ := (hstart p).mpr hp
      by_cases hlt : piece.1 < piece'.1
      · have hle := hpieces.le_of_lt hmem hmem' hlt
        omega
      · omega

variable {fixed : List Span} {i size : ℕ}

theorem mod_size_of_splitFixed (h : splitFixed i isec size = some fixed) :
    isec.contents.length % size = 0 ∧
      fixed = (fixedPieces size isec.contents.length).map fun piece =>
        literalSpan i isec.toInputSection (UInt8.ofNat (countrZero size)) piece.1 piece.2 := by
  rw [splitFixed] at h
  split at h
  case isTrue => cases h
  case isFalse hmod => exact ⟨Decidable.not_not.mp hmod, (Option.some.inj h).symm⟩

theorem tiles_splitFixed_iff
    (hsize : 0 < size) (hsize32 : size < 2 ^ 32) (h : splitFixed i isec size = some fixed) :
    Tiles isec.addr.toNat fixed isec.inputEnd ↔
      isec.contents.length = isec.size.toNat ∧ LastFits isec.toInputSection size := by
  obtain ⟨hmod, rfl⟩ := mod_size_of_splitFixed h
  have htotal := ceil_mul_of_mod_eq_zero hsize hmod
  have hpieces := consecutive_fixedPieces size isec.contents.length
  rw [htotal] at hpieces
  rw [InputSection.inputEnd, tiles_pieces_iff hpieces (.inl isec.length_le), and_comm]
  refine and_congr_right fun hlen => ?_
  exact fixedPieces_fit_iff hsize hsize32 (htotal.trans hlen)

theorem tiles_splitCstrings_iff {cstrings : List Span} (h : splitCstrings i isec = some cstrings) :
    Tiles isec.addr.toNat cstrings isec.inputEnd ↔
      isec.contents.length = isec.size.toNat ∧ StringsFit isec := by
  obtain ⟨pieces, hpieces, rfl⟩ := Option.map_eq_some_iff.mp h
  obtain ⟨hconsecutive, -⟩ := consecutive_cstringPieces hpieces
  rw [Nat.zero_add] at hconsecutive
  rw [InputSection.inputEnd, tiles_pieces_iff hconsecutive (.inl isec.length_le), and_comm,
    cstringPieces_fit_iff hpieces, StringsFit]

theorem wordSize_pos (is64 : Bool) : 0 < wordSize is64 := by
  cases is64 <;> decide

theorem tiles_splitLiteralPointers_iff (ht : isec.hdr.type = literalPointers) :
    Tiles isec.addr.toNat (splitLiteralPointers is64 i isec) isec.inputEnd ↔
      (isec.contents.length + wordSize is64 - 1) / wordSize is64 * wordSize is64 =
          isec.size.toNat ∧ LastFits isec.toInputSection (wordSize is64) := by
  have hsize (piece : ℕ × ℕ) (hp : piece ∈ fixedPieces (wordSize is64) isec.contents.length) :
      piece.2 < 2 ^ 32 := by
    rw [size_of_mem_fixedPieces piece hp]
    cases is64 <;> decide
  have hword : wordSize is64 < 2 ^ 32 := by
    cases is64 <;> decide
  rw [splitLiteralPointers, if_pos ht, InputSection.inputEnd,
    tiles_pieces_iff (consecutive_fixedPieces _ _) (.inr hsize), and_comm]
  exact and_congr_right (fixedPieces_fit_iff (wordSize_pos is64) hword)

theorem tiles_literals_iff (h : splitFile is64 viaSymbols sections syms = some split)
    (hsec : sections[i]? = some (some isec))
    (hsplit : alwaysSplit isec.toInputSection = true)
    (hpass : HasPass isec.toInputSection) :
    Tiles isec.addr.toNat (ofSection split i) isec.inputEnd ↔ LiteralsFit is64 isec := by
  obtain ⟨cstrings, fixed, hc, hf, heq⟩ := ofSection_eq h hsec
  rw [heq, baseSpans, hsplit, if_pos rfl, List.nil_append, LiteralsFit]
  rw [splitFixedSize] at hf
  rcases hpass with hno | ht | ht | ht | ht | ht
  · rw [hsplit] at hno
    cases hno
  · simp only [ht, cstringLiterals, fourByteLiterals, eightByteLiterals, sixteenByteLiterals,
      literalPointers, splitLiteralPointers, Nat.reduceEqDiff, if_true, if_false,
      Option.some.injEq] at hc hf ⊢
    rw [← hf, List.append_nil, List.append_nil]
    exact tiles_splitCstrings_iff hc
  · simp only [ht, cstringLiterals, fourByteLiterals, eightByteLiterals, sixteenByteLiterals,
      literalPointers, splitLiteralPointers, Nat.reduceEqDiff, if_true, if_false,
      Option.some.injEq] at hc hf ⊢
    rw [← hc, List.nil_append, List.append_nil]
    exact tiles_splitFixed_iff (by decide) (by decide) hf
  · simp only [ht, cstringLiterals, fourByteLiterals, eightByteLiterals, sixteenByteLiterals,
      literalPointers, splitLiteralPointers, Nat.reduceEqDiff, if_true, if_false,
      Option.some.injEq] at hc hf ⊢
    rw [← hc, List.nil_append, List.append_nil]
    exact tiles_splitFixed_iff (by decide) (by decide) hf
  · simp only [ht, cstringLiterals, fourByteLiterals, eightByteLiterals, sixteenByteLiterals,
      literalPointers, splitLiteralPointers, Nat.reduceEqDiff, if_true, if_false,
      Option.some.injEq] at hc hf ⊢
    rw [← hc, List.nil_append, List.append_nil]
    exact tiles_splitFixed_iff (by decide) (by decide) hf
  · rw [if_neg (by rw [ht]; decide)] at hc
    rw [if_neg (by rw [ht]; decide), if_neg (by rw [ht]; decide),
      if_neg (by rw [ht]; decide)] at hf
    rw [← Option.some.inj hc, ← Option.some.inj hf, List.append_nil, List.nil_append,
      if_neg (by rw [ht]; decide), if_neg (by rw [ht]; decide), if_neg (by rw [ht]; decide),
      if_neg (by rw [ht]; decide), if_pos ht]
    exact tiles_splitLiteralPointers_iff ht

/-! ## Empty subsections -/

theorem size_pos_of_piecesFit {isec : InputSection} {p2align : ℕ × ℕ → UInt8}
    (hpos : ∀ piece ∈ pieces, 0 < piece.2)
    (hfits : ∀ piece ∈ pieces, PieceFits isec piece) :
    ∀ s ∈ pieces.map fun piece => literalSpan i isec (p2align piece) piece.1 piece.2,
      0 < s.inputSize.toNat := by
  refine List.forall_mem_map.mpr fun piece hp => ?_
  rw [literalSpan_inputSize, Nat.mod_eq_of_lt (hfits piece hp).2]
  exact hpos piece hp

theorem size_pos_splitFixed
    (hsize : 0 < size) (hsize32 : size < 2 ^ 32) (h : splitFixed i isec size = some fixed)
    (hlen : isec.contents.length = isec.size.toNat)
    (hfits : LastFits isec.toInputSection size) : ∀ s ∈ fixed, 0 < s.inputSize.toNat := by
  obtain ⟨hmod, rfl⟩ := mod_size_of_splitFixed h
  have htotal := (ceil_mul_of_mod_eq_zero hsize hmod).trans hlen
  refine size_pos_of_piecesFit (fun piece hp => ?_)
    ((fixedPieces_fit_iff hsize hsize32 htotal).mpr hfits)
  rw [size_of_mem_fixedPieces piece hp]
  exact hsize

theorem size_pos_splitFixedSize
    (h : splitFixedSize i isec = some fixed) (hfit : LiteralsFit is64 isec) :
    ∀ s ∈ fixed, 0 < s.inputSize.toNat := by
  rw [LiteralsFit] at hfit
  rw [splitFixedSize] at h
  split at h
  case isTrue ht =>
    rw [if_neg (by rw [ht]; decide), if_pos ht] at hfit
    exact size_pos_splitFixed (by decide) (by decide) h hfit.1 hfit.2
  case isFalse h4 =>
    rw [if_neg h4] at hfit
    split at h
    case isTrue ht =>
      rw [if_neg (by rw [ht]; decide), if_pos ht] at hfit
      exact size_pos_splitFixed (by decide) (by decide) h hfit.1 hfit.2
    case isFalse h8 =>
      rw [if_neg h8] at hfit
      split at h
      case isTrue ht =>
        rw [if_neg (by rw [ht]; decide), if_pos ht] at hfit
        exact size_pos_splitFixed (by decide) (by decide) h hfit.1 hfit.2
      case isFalse =>
        obtain rfl := Option.some.inj h
        exact fun s hs => absurd hs List.not_mem_nil

theorem size_pos_literals (h : splitFile is64 viaSymbols sections syms = some split)
    (hsec : sections[i]? = some (some isec))
    (hsplit : alwaysSplit isec.toInputSection = true) (hfit : LiteralsFit is64 isec) :
    ∀ s ∈ ofSection split i, 0 < s.inputSize.toNat := by
  obtain ⟨cstrings, fixed, hc, hf, heq⟩ := ofSection_eq h hsec
  rw [heq, baseSpans, hsplit, if_pos rfl, List.nil_append]
  intro s hs
  rcases List.mem_append.mp hs with hs | hs
  · rcases List.mem_append.mp hs with hs | hs
    · split at hc
      case isTrue ht =>
        rw [LiteralsFit, if_pos ht] at hfit
        obtain ⟨pieces, hpieces, rfl⟩ := Option.map_eq_some_iff.mp hc
        exact size_pos_of_piecesFit (consecutive_cstringPieces hpieces).2
          ((cstringPieces_fit_iff hpieces).mpr hfit.2) s hs
      case isFalse =>
        obtain rfl := Option.some.inj hc
        exact absurd hs List.not_mem_nil
    · exact size_pos_splitFixedSize hf hfit s hs
  · rw [splitLiteralPointers] at hs
    split at hs
    case isTrue ht =>
      rw [LiteralsFit, if_neg (by rw [ht]; decide), if_neg (by rw [ht]; decide),
        if_neg (by rw [ht]; decide), if_neg (by rw [ht]; decide), if_pos ht] at hfit
      have hword : wordSize is64 < 2 ^ 32 := by
        cases is64 <;> decide
      refine size_pos_of_piecesFit (fun piece hp => ?_)
        ((fixedPieces_fit_iff (wordSize_pos is64) hword hfit.1).mpr hfit.2) s hs
      rw [size_of_mem_fixedPieces piece hp]
      exact wordSize_pos is64
    case isFalse => exact absurd hs List.not_mem_nil

theorem size_pos_splitSection
    (hsec : sections[i]? = some (some isec)) (hfit : CutsOf syms i isec.toInputSection)
    (hsize : 0 < isec.size.toNat) :
    ∀ s ∈ (splitSection i isec.toInputSection (sectionEntries (headers sections) syms i)).1,
      0 < s.inputSize.toNat := by
  have hfits := (cutsFit_iff syms (headers_getElem? hsec)).mpr hfit
  obtain ⟨s, rest, heq, hs, -, hrest⟩ := splitFrom_tiles i 0 hfits.low hfits (lastAt_addr _)
    (ascending_sectionEntries i)
  rw [splitSection_eq, heq]
  refine List.forall_mem_cons.mpr ⟨hs.size ?_, fun t ht => (hrest t ht).2⟩
  rw [InputSection.inputEnd]
  omega

theorem size_eq_zero_of_fits (h : splitFile is64 viaSymbols sections syms = some split)
    (hsec : sections[i]? = some (some isec))
    (hfit : SectionFits is64 viaSymbols syms i isec) {s : Span} (hs : s ∈ ofSection split i)
    (hzero : s.inputSize.toNat = 0) : isec.size.toNat = 0 := by
  by_contra hsize
  have hpos : 0 < s.inputSize.toNat := by
    rw [SectionFits] at hfit
    cases hsplit : alwaysSplit isec.toInputSection with
    | true =>
      rw [if_pos hsplit] at hfit
      exact size_pos_literals h hsec hsplit hfit s hs
    | false =>
      rw [hsplit, if_neg Bool.false_ne_true] at hfit
      rw [ofSection_base h hsec hsplit] at hs
      cases viaSymbols with
      | true => exact size_pos_splitSection hsec hfit (Nat.pos_of_ne_zero hsize) s hs
      | false =>
        obtain rfl := List.mem_singleton.mp hs
        have hmod : (wholeSection i isec.toInputSection).inputSize.toNat =
            isec.size.toNat % 2 ^ 32 := UInt64.toNat_toUInt32 _
        rw [hmod, Nat.mod_eq_of_lt hfit.2]
        exact Nat.pos_of_ne_zero hsize
  omega

theorem lookup_splitOf_eq_none {j i : ℕ} {msym : SectSym} (hj : syms[j]? = some msym)
    (hin : IsIn i msym) {t : Option InputSection × ℕ} (ht : (headers sections)[t.2]? = some t.1)
    (hne : t.2 ≠ i) :
    (splitOf (sectSyms (headers sections) syms) t).2.lookup j = none := by
  obtain ⟨sec, k⟩ := t
  cases sec with
  | none => rfl
  | some isec =>
    rw [splitOf]
    simp only
    split
    · rfl
    · refine lookup_eq_none_of_not_mem ?_
      rw [splitSection_eq, map_fst_splitFrom]
      intro hmem
      obtain ⟨ent, hent, rfl⟩ := List.mem_map.mp hmem
      obtain ⟨hget, hk⟩ := (mem_sectionEntries_iff ht).mp hent
      obtain rfl := Option.some.inj (hget.symm.trans hj)
      have hsect := hk.sect.symm.trans hin.sect
      exact hne (Nat.succ.inj hsect)

theorem symbol_iff (h : splitFile is64 true sections syms = some split) {j i : ℕ}
    {msym : SectSym} (hin : IsInside sections syms j msym i isec)
    (hcuts : CutsOf syms i isec.toInputSection) :
    (∃ k s, split.symToSubsec j = some k ∧ split.subsections[k]? = some s ∧ s.isec = i ∧
      s.Contains msym.value.toNat) ↔ Kept syms i isec.toInputSection j msym := by
  have hheader := headers_getElem? hin.sec
  have hmem : (msym, j) ∈ sectionEntries (headers sections) syms i :=
    (mem_sectionEntries_iff hheader).mpr ⟨hin.sym, hin.isIn⟩
  obtain ⟨pre, post, hents⟩ := List.append_of_mem hmem
  have hfits := (cutsFit_iff syms hheader).mpr hcuts
  obtain ⟨p, s, hgiven, hspan, howner, hiff⟩ := given_splitFrom 0 hents hfits.low hfits
    (lastAt_addr _) (ascending_sectionEntries i) hin.lo hin.hi
  rw [← splitSection_eq] at hgiven hspan
  rw [Nat.zero_add] at hgiven
  have hsplitOf : splitOf (sectSyms (headers sections) syms) (some isec.toInputSection, i) =
      splitSection i isec.toInputSection (sectionEntries (headers sections) syms i) :=
    splitOf_of_not_alwaysSplit (hin.split ▸ Bool.false_ne_true)
  have hlookup : (splitOf (sectSyms (headers sections) syms)
      (some isec.toInputSection, i)).2.lookup j = some p := by
    rw [hsplitOf]
    refine lookup_of_getElem? ?_ hgiven
    rw [splitSection_eq, map_fst_splitFrom]
    exact nodup_sectionEntries _ _ i
  rw [← hsplitOf] at hspan
  obtain ⟨before, after, hzip⟩ := List.append_of_mem
    (List.mem_zipIdx_iff_getElem?.mpr hheader : (some isec.toInputSection, i) ∈ _)
  have hafter : ∀ t ∈ after, (splitOf (sectSyms (headers sections) syms) t).2.lookup j = none := by
    intro t ht
    have hpair := pairwise_zipIdx (headers sections) 0
    rw [hzip] at hpair
    have hlt := (List.pairwise_cons.mp (List.pairwise_append.mp hpair).2.1).1 t ht
    refine lookup_splitOf_eq_none hin.sym hin.isIn ?_ (Nat.ne_of_gt hlt)
    refine List.mem_zipIdx_iff_getElem?.mp ?_
    rw [hzip]
    exact List.mem_append_right _ (List.mem_cons_of_mem _ ht)
  obtain ⟨q, hq, hs⟩ := getElem?_symToSubsec before
    { subsections := [], symToSubsec := fun _ => none } hlookup hspan hafter
  rw [← hzip] at hq hs
  obtain ⟨cstrings, fixed, pointers, -, -, -, rfl⟩ := splitFile_eq_some h
  have hlt := (List.getElem?_eq_some_iff.mp hs).1
  rw [← stays_iff hheader hents, ← hiff]
  constructor
  · rintro ⟨k, s', hk, hs', -, hcontains⟩
    obtain rfl := Option.some.inj (hq.symm.trans hk)
    rw [if_pos rfl, splitSubsectionsViaSymbols, List.append_assoc, List.append_assoc,
      List.getElem?_append_left hlt, hs] at hs'
    obtain rfl := Option.some.inj hs'
    exact hcontains
  · intro hcontains
    refine ⟨q, s, hq, ?_, howner, hcontains⟩
    rw [if_pos rfl, splitSubsectionsViaSymbols, List.append_assoc, List.append_assoc,
      List.getElem?_append_left hlt, hs]

theorem literalsFit_of_not_hasPass (isec : FileSection)
    (hno : ¬ HasPass isec.toInputSection) : LiteralsFit is64 isec := by
  rw [HasPass] at hno
  push Not at hno
  obtain ⟨-, h2, h3, h4, he, h5⟩ := hno
  rw [LiteralsFit, if_neg h2, if_neg h3, if_neg h4, if_neg he, if_neg h5]
  trivial

theorem tiles_iff (h : splitFile is64 viaSymbols sections syms = some split)
    (hsec : sections[i]? = some (some isec)) :
    (HasPass isec.toInputSection → Tiles isec.addr.toNat (ofSection split i) isec.inputEnd) ↔
      SectionFits is64 viaSymbols syms i isec := by
  rw [SectionFits]
  cases hsplit : alwaysSplit isec.toInputSection with
  | true =>
    rw [if_pos rfl]
    by_cases hpass : HasPass isec.toInputSection
    · rw [← tiles_literals_iff h hsec hsplit hpass]
      exact ⟨fun htiles => htiles hpass, fun htiles _ => htiles⟩
    · exact iff_of_true (fun hp => absurd hp hpass) (literalsFit_of_not_hasPass isec hpass)
  | false =>
    rw [if_neg Bool.false_ne_true, ofSection_base h hsec hsplit]
    have hpass : HasPass isec.toInputSection := .inl hsplit
    cases viaSymbols with
    | true =>
      rw [if_pos rfl, if_pos rfl, ← tiles_splitSection_iff hsec]
      exact ⟨fun htiles => htiles hpass, fun htiles _ => htiles⟩
    | false =>
      rw [if_neg Bool.false_ne_true, if_neg Bool.false_ne_true, ← tiles_whole_iff]
      exact ⟨fun htiles => htiles hpass, fun htiles _ => htiles⟩

/-- After all passes, the subsections tile the sections and contain their symbols exactly
if the file can be split well. -/
theorem splitOk_iff (h : splitFile is64 viaSymbols sections syms = some split) :
    SplitOk viaSymbols sections syms split ↔ FileFits is64 viaSymbols sections syms := by
  have hcuts (hfit : ∀ i isec, sections[i]? = some (some isec) →
      SectionFits is64 viaSymbols syms i isec) (hvia : viaSymbols = true) {j i : ℕ}
      {msym : SectSym} {isec : FileSection} (hin : IsInside sections syms j msym i isec) :
      CutsOf syms i isec.toInputSection := by
    have h := hfit i isec hin.sec
    rw [SectionFits, hin.split, if_neg Bool.false_ne_true, if_pos hvia] at h
    exact h
  constructor
  · intro hok
    have hfit (i : ℕ) (isec : FileSection) (hsec : sections[i]? = some (some isec)) :=
      (tiles_iff h hsec).mp (hok.tiles i isec hsec)
    refine ⟨hfit, fun hvia j msym i isec hin => ?_⟩
    have hsymbol := hok.symbols hvia j msym i isec hin
    subst hvia
    exact (symbol_iff h hin (hcuts hfit rfl hin)).mp hsymbol
  · intro hfile
    refine ⟨fun i isec hsec => (tiles_iff h hsec).mpr (hfile.fits i isec hsec),
      fun i isec hsec s hs => size_eq_zero_of_fits h hsec (hfile.fits i isec hsec) hs,
      fun hvia j msym i isec hin => ?_⟩
    have hkept := hfile.symbols hvia j msym i isec hin
    subst hvia
    exact (symbol_iff h hin (hcuts hfile.fits rfl hin)).mpr hkept

end File

def sixteenBytes : FileSection where
  hdr := { type := 0, attr := 0 }
  addr := 0
  size := 16
  contents := []
  length_le := Nat.zero_le _

/-- An ordinary symbol and an alternate entry behind it are in one subsection. -/
theorem splitOk_example :
    ∃ split, splitFile true true [some sixteenBytes]
        [{ value := 8 }, { value := 8, altEntry := true }] = some split ∧
      SplitOk true [some sixteenBytes] [{ value := 8 }, { value := 8, altEntry := true }]
        split := by
  refine ⟨_, rfl, (splitOk_iff rfl).mpr ⟨fun i isec hsec => ?_, fun _ j msym i isec hin => ?_⟩⟩
  · cases i with
    | succ i => cases hsec
    | zero =>
      obtain rfl := Option.some.inj (Option.some.inj hsec)
      refine ⟨by decide, fun msym hmem _ _ => ?_, .inl (by decide)⟩
      simp only [List.mem_cons, List.not_mem_nil, or_false] at hmem
      rcases hmem with rfl | rfl <;> decide
  · have hj := hin.sym
    have hsec := hin.sec
    cases i with
    | succ i => cases hsec
    | zero =>
      obtain rfl := Option.some.inj (Option.some.inj hsec)
      rcases j with _ | _ | j
      · obtain rfl := Option.some.inj hj
        exact .inl rfl
      · obtain rfl := Option.some.inj hj
        exact .inr (.inr (.inl ⟨0, Nat.one_pos, { value := 8 }, rfl, ⟨rfl, rfl, rfl⟩,
          ⟨rfl, by decide, by decide⟩, rfl⟩))
      · cases hj

/-- An alternate entry before an ordinary symbol at its address is in the subsection that
ends there. -/
theorem not_splitOk_example :
    ∃ split, splitFile true true [some sixteenBytes]
        [{ value := 8, altEntry := true }, { value := 8 }] = some split ∧
      ¬ SplitOk true [some sixteenBytes] [{ value := 8, altEntry := true }, { value := 8 }]
        split := by
  refine ⟨_, rfl, fun hok => ?_⟩
  obtain ⟨k, s, hk, hs, -, hcontains⟩ := hok.symbols rfl 0 { value := 8, altEntry := true } 0
    sixteenBytes ⟨rfl, ⟨rfl, rfl, rfl⟩, rfl, rfl, by decide, by decide⟩
  obtain rfl : 0 = k := Option.some.inj hk
  obtain rfl := Option.some.inj hs
  revert hcontains
  decide

end Mold.MachO.Subsections
