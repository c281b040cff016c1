import Mold.Elf.RelocSectionCorrect
import Mold.Elf.RelocatableSections
import Mold.Lib.OptionTraverse

/-!
# COMDAT groups of a relocatable link

A later link that discards a group discards the sections that it lists.  These are the
sections of the group exactly if no other section of the link goes to one of its output
sections, and if each of its sections is one that has an output section at all.  It finds the
group by the name of a symbol of the output, so that symbol must be written.
-/

namespace Mold.Elf.Relocatable

open Mold.Lib

/-! ## Names of symbols -/

section

variable {ι : Type*} [DecidableEq ι] {ctx : Symtab.Context ι} {sizes : Symtab.Sizes ι}

/-- The name that a reader finds for a slot of the symbol table.  Section symbols have none of
their own. -/
def nameAt (ctx : Symtab.Context ι) (sizes : Symtab.Sizes ι) (slot : ℕ) : Option Symtab.Name :=
  ((ctx.symWrites sizes).find? fun w => w.slot = slot).bind fun w =>
    match w.content with
    | .symbol s _ =>
      if (ctx.sym s).isSection then none
      else ((ctx.stringWrites sizes).find? fun p => p.1 = w.stName).map Prod.snd
    | _ => none

omit [DecidableEq ι] in
theorem nodup_offsets {l : List (ℕ × Symtab.Name)}
    (h : (l.flatMap fun p => List.range' p.1 (p.2.length + 1)).Nodup) :
    (l.map Prod.fst).Nodup := by
  rw [List.nodup_flatMap] at h
  refine List.pairwise_map.mpr (h.2.imp fun {p q} hdisjoint heq => ?_)
  have hfirst : ∀ (name : Symtab.Name), p.1 ∈ List.range' p.1 (name.length + 1) := fun name =>
    List.mem_range'_1.mpr ⟨Nat.le_refl _, Nat.lt_add_of_pos_right (Nat.succ_pos _)⟩
  exact hdisjoint (hfirst p.2) (heq ▸ hfirst q.2)

theorem nameAt_getOutputSymIdx (h : Symtab.SizedAll ctx sizes)
    (hsame : Symtab.WritesCounted ctx) (howned : Symtab.Owned ctx) {s : ι} {n : ℕ}
    (hn : ctx.getOutputSymIdx sizes s = some n) :
    nameAt ctx sizes n = if (ctx.sym s).isSection then none else some (ctx.sym s).name := by
  have hcounted := h.isCounted howned (s := s) (by
    rw [hn]
    exact nofun)
  obtain ⟨slot, stName, xindex, hw⟩ := h.exists_mem_of_isCounted hsame hcounted
  obtain rfl := Option.some.inj ((h.indices hsame hw (s := s) rfl rfl).symm.trans hn)
  have hslots := (h.slots_perm hsame).nodup_iff.mpr List.nodup_range
  have hfind := find?_of_nodup_map hslots hw
  have hstrings := nodup_offsets ((h.strings_perm hsame).nodup_iff.mpr List.nodup_range')
  have hstring := find?_of_nodup_map hstrings (h.names hsame hw (s := s) rfl)
  rw [nameAt, hfind, Option.bind_some]
  change (if (ctx.sym s).isSection then none
    else ((ctx.stringWrites sizes).find? fun p => p.1 = stName).map Prod.snd) = _
  have hstName : (ctx.stringWrites sizes).find? (fun p => p.1 = stName) =
      some (stName, (ctx.sym s).name) := hstring
  rw [hstName, Option.map_some]

end

structure SymbolTable (ι : Type*) extends Symtab.Context ι where
  /-- The orders in which the files have counted their symbols. -/
  objOrder : List ℕ
  dsoOrder : List ℕ
  objOrder_perm : objOrder.Perm toContext.objIndices
  dsoOrder_perm : dsoOrder.Perm toContext.dsoIndices
  owned : Symtab.Owned toContext
  relocatable : args.relocatable = true

section

variable {ι : Type*} [DecidableEq ι] (t : Target) (args : Args) (objs : List ObjectFile)
  (symtab : SymbolTable ι)

def SymbolTable.sizes : Symtab.Sizes ι :=
  symtab.createOutputSymtab symtab.objOrder symtab.dsoOrder

omit [DecidableEq ι] in
def signatureSym (f : ℕ) (file : ObjectFile) (ref : ComdatGroupRef) : Option ι :=
  file.elfSections[ref.sectIdx]?.bind fun shdr =>
    symtab.objs[f]?.bind fun syms => syms.symbols[shdr.info]?

/-- `sh_info` of `ComdatGroupSection::update_shdr`, unless the assertion about the index fails.
With `--strip-all` there are no indices. -/
def groupInfo (f : ℕ) (file : ObjectFile) (ref : ComdatGroupRef) : Option ℕ :=
  if args.stripAll then none
  else (signatureSym symtab f file ref).bind (symtab.getOutputSymIdx symtab.sizes)

/-! ## The output -/

def sectionAt (chunks : List Chunk) (n : ℕ) : Option Chunk :=
  if n = 0 then none else (sectionTable t args objs chunks)[n - 1]?

/-- The input sections whose contents or relocations a chunk holds. -/
def contents : Chunk → List (ℕ × ℕ)
  | .osec key | .reloc key => membersOf t args objs key
  | _ => []

def Chunk.isReloc : Chunk → Bool
  | .reloc _ => true
  | _ => false

def Chunk.isSection : Chunk → Bool
  | .osec _ | .reloc _ => true
  | _ => false

/-- What `sh_info` and the words of a group must be for the group of a file. -/
structure GroupKept (chunks : List Chunk) (f : ℕ) (file : ObjectFile) (ref : ComdatGroupRef)
    (words : List ℕ) : Prop where
  /-- Its symbol is in the symbol table, with the signature as its name. -/
  signature : ∃ n, groupInfo args symtab f file ref = some n ∧
    nameAt symtab.toContext symtab.sizes n = some ref.signature.toUTF8.data.toList
  /-- It lists output sections that exist. -/
  lists : ∀ w ∈ words.tail, ∃ c, sectionAt t args objs chunks w = some c ∧ c.isSection = true
  /-- They contain only sections of the group. -/
  only : ∀ w ∈ words.tail, ∀ c, sectionAt t args objs chunks w = some c →
    ∀ id ∈ contents t args objs c, id.1 = f ∧ id.2 ∈ ref.members
  /-- They contain all of its sections that are alive. -/
  sections : ∀ j ∈ ref.members, isAlive t args objs file j = true →
    ∃ w ∈ words.tail, ∃ c, sectionAt t args objs chunks w = some c ∧ c.isReloc = false ∧
      (f, j) ∈ contents t args objs c
  /-- They contain the relocations of these. -/
  relocs : ∀ j ∈ ref.members, isAlive t args objs file j = true → 0 < file.numRels t j →
    ∃ w ∈ words.tail, ∃ c, sectionAt t args objs chunks w = some c ∧ c.isReloc = true ∧
      (f, j) ∈ contents t args objs c

def KeepsComdats (chunks : List Chunk) : Prop :=
  ∀ f file, objs[f]? = some file → ∀ ref ∈ file.comdatGroups, isOwned objs file ref = true →
    ∃ words, groupWords t args objs chunks file ref = some words ∧
      GroupKept t args objs symtab chunks f file ref words

/-- The input section that a member of a group is or is the relocation section of. -/
def target (file : ObjectFile) (j : ℕ) : ℕ :=
  match file.elfSections[j]? with
  | none => j
  | some shdr => if shdr.type = t.relType then shdr.info else j

def isRelocMember (file : ObjectFile) (j : ℕ) : Bool :=
  match file.elfSections[j]? with
  | none => false
  | some shdr => shdr.type = t.relType

structure GroupApart (f : ℕ) (file : ObjectFile) (ref : ComdatGroupRef) : Prop where
  /-- There is a symbol table, and the symbol of the group is counted, is not that of a section
  and has the signature as its name, not what is before a version. -/
  signature : args.stripAll = false ∧ ∃ s, signatureSym symtab f file ref = some s ∧
    symtab.IsCounted s ∧ (symtab.sym s).isSection = false ∧
      (symtab.sym s).name = ref.signature.toUTF8.data.toList
  /-- All members, or what they relocate, are alive. -/
  alive : ∀ j ∈ ref.members, isAlive t args objs file (target t file j) = true
  /-- No section besides the members has the output name, type and flags of one. -/
  apart : ∀ j ∈ ref.members, ∀ id ∈ sectionIds objs,
    outputSectionOf t args objs id = outputSectionOf t args objs (f, target t file j) →
      id.1 = f ∧ id.2 ∈ ref.members
  /-- Some member with the output name, type and flags of a listed one has relocations. -/
  nonempty : ∀ j ∈ ref.members, isRelocMember t file j = true →
    ∀ key, outputSectionOf t args objs (f, target t file j) = some key →
      numRelocs t args objs key * t.relSize ≠ 0
  /-- The relocations of members are listed. -/
  relocs : ∀ j ∈ ref.members, isAlive t args objs file j = true → 0 < file.numRels t j →
    ∃ j' ∈ ref.members, isRelocMember t file j' = true ∧
      outputSectionOf t args objs (f, target t file j') = outputSectionOf t args objs (f, j)

end

variable {ι : Type*} [DecidableEq ι] {t : Target} {args : Args} {objs : List ObjectFile}
  {symtab : SymbolTable ι}

/-! ## Sections and their indices -/

variable {chunks : List Chunk}

theorem sectionAt_shndx {c : Chunk} (h : c ∈ sectionTable t args objs chunks) :
    sectionAt t args objs chunks (shndx t args objs chunks c) = some c := by
  rw [shndx, if_pos h, sectionAt, if_neg (Nat.succ_ne_zero _), Nat.add_sub_cancel]
  exact List.getElem?_idxOf h

theorem sectionAt_shndx_eq_none {c : Chunk} (h : c ∉ sectionTable t args objs chunks) :
    sectionAt t args objs chunks (shndx t args objs chunks c) = none := by
  rw [shndx, if_neg h, sectionAt, if_pos rfl]

variable {others : List (Bool × ℕ)} {key : OutputSectionKey}

theorem mem_sectionTable_osec (hchunks : chunks.Perm (createdChunks t args objs others)) :
    .osec key ∈ sectionTable t args objs chunks ↔ key ∈ outputSections t args objs := by
  simp [sectionTable, hchunks.mem_iff, createdChunks, groupSections, hasShndx]

theorem mem_sectionTable_reloc (hchunks : chunks.Perm (createdChunks t args objs others)) :
    .reloc key ∈ sectionTable t args objs chunks ↔ key ∈ outputSections t args objs ∧
      numRelocs t args objs key * t.relSize ≠ 0 := by
  have hsize : hasShndx t args objs (.reloc key) = true ↔
      numRelocs t args objs key * t.relSize ≠ 0 := decide_eq_true_iff
  rw [sectionTable, List.mem_filter, hsize]
  simp [hchunks.mem_iff, createdChunks, groupSections]

variable {id : ℕ × ℕ}

theorem mem_sectionIds :
    id ∈ sectionIds objs ↔ ∃ file, objs[id.1]? = some file ∧ id.2 < file.elfSections.length := by
  simp only [sectionIds, List.mem_flatMap, List.mem_map, List.mem_range, Prod.exists,
    List.mk_mem_zipIdx_iff_getElem?]
  constructor
  · rintro ⟨file, f, hfile, i, hi, rfl⟩
    exact ⟨file, hfile, hi⟩
  · rintro ⟨file, hfile, hi⟩
    exact ⟨file, id.1, hfile, id.2, hi, rfl⟩

variable {file : ObjectFile}

theorem outputSectionOf_eq {f : ℕ} (hfile : objs[f]? = some file) (i : ℕ) :
    outputSectionOf t args objs (f, i) = outputSection t args objs file i := by
  rw [outputSectionOf, hfile, Option.bind_some]

theorem lt_length_of_isAlive {i : ℕ}
    (h : isAlive t args objs file i = true) : i < file.elfSections.length := by
  by_contra hge
  rw [isAlive, List.getElem?_eq_none (Nat.le_of_not_lt hge)] at h
  cases h

theorem outputSection_isSome {i : ℕ} :
    (∃ key, outputSection t args objs file i = some key) ↔ isAlive t args objs file i = true := by
  rw [outputSection]
  constructor
  · rintro ⟨key, h⟩
    by_contra hdead
    rw [if_neg hdead] at h
    cases h
  · intro h
    rw [if_pos h, List.getElem?_eq_getElem (lt_length_of_isAlive h)]
    exact ⟨_, rfl⟩

theorem mem_membersOf :
    id ∈ membersOf t args objs key ↔ outputSectionOf t args objs id = some key := by
  rw [membersOf, List.mem_filter, decide_eq_true_eq]
  refine ⟨And.right, fun h => ⟨?_, h⟩⟩
  rw [outputSectionOf] at h
  obtain ⟨file, hfile, hkey⟩ := Option.bind_eq_some_iff.mp h
  exact mem_sectionIds.mpr
    ⟨file, hfile, lt_length_of_isAlive (outputSection_isSome.mp ⟨key, hkey⟩)⟩

theorem mem_outputSections
    (h : outputSectionOf t args objs id = some key) : key ∈ outputSections t args objs := by
  refine List.mem_dedup.mpr (List.mem_filterMap.mpr ⟨id, ?_, h⟩)
  exact (List.mem_filter.mp (mem_membersOf.mpr h)).1

/-! ## The chunks of a group -/

theorem memberChunk_eq (file : ObjectFile) (j : ℕ) (hj : j < file.elfSections.length) :
    memberChunk t args objs file j =
      (outputSection t args objs file (target t file j)).map
        (if isRelocMember t file j then .reloc else .osec) := by
  rw [memberChunk, target, isRelocMember, List.getElem?_eq_getElem hj]
  by_cases hty : file.elfSections[j].type = t.relType
  · simp only [hty, if_true, decide_true]
  · simp only [hty, if_false, decide_false, Bool.false_eq_true]

variable {j : ℕ}

theorem target_of_length_le (hj : file.elfSections.length ≤ j) : target t file j = j := by
  rw [target, List.getElem?_eq_none hj]

theorem memberChunk_isSome :
    (∃ c, memberChunk t args objs file j = some c) ↔
      isAlive t args objs file (target t file j) = true := by
  rcases Nat.lt_or_ge j file.elfSections.length with hj | hj
  · rw [memberChunk_eq file j hj, ← outputSection_isSome]
    cases outputSection t args objs file (target t file j) with
    | none => exact ⟨fun ⟨_, h⟩ => (nomatch h), fun ⟨_, h⟩ => nomatch h⟩
    | some key => exact ⟨fun _ => ⟨key, rfl⟩, fun _ => ⟨_, rfl⟩⟩
  · rw [memberChunk, List.getElem?_eq_none hj, target_of_length_le hj]
    refine ⟨fun ⟨_, h⟩ => (nomatch h), fun h => ?_⟩
    exact absurd (lt_length_of_isAlive h) (Nat.not_lt_of_le hj)

theorem memberChunk_eq_some {c : Chunk} (h : memberChunk t args objs file j = some c) :
    ∃ key, outputSection t args objs file (target t file j) = some key ∧
      c = if isRelocMember t file j then .reloc key else .osec key := by
  obtain ⟨key, hkey⟩ := outputSection_isSome.mpr (memberChunk_isSome.mp ⟨c, h⟩)
  have hj : j < file.elfSections.length := by
    by_contra hge
    rw [memberChunk, List.getElem?_eq_none (Nat.le_of_not_lt hge)] at h
    cases h
  rw [memberChunk_eq file j hj, hkey, Option.map_some] at h
  refine ⟨key, hkey, ?_⟩
  rw [← Option.some.inj h]
  cases isRelocMember t file j <;> rfl

theorem isRelocMember_of_isAlive
    (h : isAlive t args objs file j = true) : isRelocMember t file j = false := by
  have hj := lt_length_of_isAlive h
  rw [isAlive, List.getElem?_eq_getElem hj] at h
  rw [isRelocMember, List.getElem?_eq_getElem hj]
  refine decide_eq_false fun hty => ?_
  simp only [isInputSection, hty, Bool.and_eq_true, Bool.not_eq_true'] at h
  have hspecial : specialTypes.contains t.relType = true := by
    rw [Target.relType]
    split <;> rfl
  rw [hspecial] at h
  cases h.1.1.1.1.1.1.1

theorem target_of_isAlive (h : isAlive t args objs file j = true) : target t file j = j := by
  have hrel := isRelocMember_of_isAlive h
  have hj := lt_length_of_isAlive h
  rw [isRelocMember, List.getElem?_eq_getElem hj] at hrel
  rw [target, List.getElem?_eq_getElem hj]
  exact if_neg (of_decide_eq_false hrel)

section

variable {f j : ℕ} {file : ObjectFile} {c : Chunk}

theorem isReloc_memberChunk (h : memberChunk t args objs file j = some c) :
    c.isReloc = isRelocMember t file j ∧ c.isSection = true := by
  obtain ⟨key, -, rfl⟩ := memberChunk_eq_some h
  cases isRelocMember t file j <;> exact ⟨rfl, rfl⟩

theorem mem_contents_memberChunk (hfile : objs[f]? = some file)
    (h : memberChunk t args objs file j = some c) :
    id ∈ contents t args objs c ↔
      outputSectionOf t args objs id = outputSectionOf t args objs (f, target t file j) := by
  obtain ⟨key, hkey, rfl⟩ := memberChunk_eq_some h
  have hcontents : contents t args objs (if isRelocMember t file j then .reloc key else .osec key) =
      membersOf t args objs key := by
    cases isRelocMember t file j <;> rfl
  rw [hcontents, mem_membersOf, outputSectionOf_eq hfile, hkey]

theorem mem_sectionTable_memberChunk
    (hchunks : chunks.Perm (createdChunks t args objs others)) (hfile : objs[f]? = some file)
    (h : memberChunk t args objs file j = some c) :
    c ∈ sectionTable t args objs chunks ↔ (isRelocMember t file j = true →
      ∀ key, outputSectionOf t args objs (f, target t file j) = some key →
        numRelocs t args objs key * t.relSize ≠ 0) := by
  obtain ⟨key, hkey, rfl⟩ := memberChunk_eq_some h
  rw [← outputSectionOf_eq hfile] at hkey
  have hmem := mem_outputSections hkey
  cases isRelocMember t file j with
  | true =>
    rw [if_pos rfl, mem_sectionTable_reloc hchunks]
    refine ⟨fun h _ key' hkey' => ?_, fun h => ⟨hmem, h rfl key hkey⟩⟩
    obtain rfl := Option.some.inj (hkey.symm.trans hkey')
    exact h.2
  | false =>
    rw [if_neg Bool.false_ne_true, mem_sectionTable_osec hchunks]
    refine ⟨fun _ h => ?_, fun _ => hmem⟩
    cases h

end

variable {ref : ComdatGroupRef} {words : List ℕ}

theorem mem_tail_groupWords (h : groupWords t args objs chunks file ref = some words) {w : ℕ} :
    w ∈ words.tail ↔ ∃ j ∈ ref.members, ∃ c, memberChunk t args objs file j = some c ∧
      shndx t args objs chunks c = w := by
  obtain ⟨cs, hcs, rfl⟩ := Option.map_eq_some_iff.mp h
  rw [List.tail_cons, List.mem_map]
  constructor
  · rintro ⟨c, hc, hw⟩
    obtain ⟨j, hj, hjc⟩ := (mem_of_mapM_eq_some hcs).mp hc
    exact ⟨j, hj, c, hjc, hw⟩
  · rintro ⟨j, hj, c, hjc, hw⟩
    exact ⟨c, (mem_of_mapM_eq_some hcs).mpr ⟨j, hj, hjc⟩, hw⟩

theorem groupWords_isSome :
    (∃ words, groupWords t args objs chunks file ref = some words) ↔
      ∀ j ∈ ref.members, isAlive t args objs file (target t file j) = true := by
  simp only [← memberChunk_isSome, ← mapM_isSome_iff]
  constructor
  · rintro ⟨words, h⟩
    obtain ⟨cs, hcs, -⟩ := Option.map_eq_some_iff.mp h
    exact ⟨cs, hcs⟩
  · rintro ⟨cs, hcs⟩
    exact ⟨_, Option.map_eq_some_iff.mpr ⟨cs, hcs, rfl⟩⟩

section

variable {chunks : List Chunk} {others : List (Bool × ℕ)} {f : ℕ} {file : ObjectFile}
  {ref : ComdatGroupRef}

theorem signature_iff (hcounted : Symtab.WritesCounted symtab.toContext) :
    (∃ n, groupInfo args symtab f file ref = some n ∧
      nameAt symtab.toContext symtab.sizes n = some ref.signature.toUTF8.data.toList) ↔
    args.stripAll = false ∧ ∃ s, signatureSym symtab f file ref = some s ∧ symtab.IsCounted s ∧
      (symtab.sym s).isSection = false ∧ (symtab.sym s).name = ref.signature.toUTF8.data.toList := by
  have hsized : Symtab.SizedAll symtab.toContext symtab.sizes :=
    Symtab.sizedAll_createOutputSymtab symtab.objOrder_perm symtab.dsoOrder_perm
  have hname (s : ι) (n : ℕ) (hn : symtab.getOutputSymIdx symtab.sizes s = some n) :
      nameAt symtab.toContext symtab.sizes n = some ref.signature.toUTF8.data.toList ↔
        (symtab.sym s).isSection = false ∧
          (symtab.sym s).name = ref.signature.toUTF8.data.toList := by
    rw [nameAt_getOutputSymIdx hsized hcounted symtab.owned hn]
    cases (symtab.sym s).isSection <;> simp
  rw [groupInfo]
  cases args.stripAll with
  | true => simp
  | false =>
    rw [if_neg Bool.false_ne_true, eq_self, true_and]
    constructor
    · rintro ⟨n, hn, hread⟩
      obtain ⟨s, hs, hn⟩ := Option.bind_eq_some_iff.mp hn
      have hidx : symtab.getOutputSymIdx symtab.sizes s ≠ none := by
        rw [hn]
        exact nofun
      exact ⟨s, hs, hsized.isCounted symtab.owned hidx, (hname s n hn).mp hread⟩
    · rintro ⟨s, hs, hsym, hsection⟩
      obtain ⟨n, hn⟩ := Option.ne_none_iff_exists'.mp
        ((hsized.getOutputSymIdx_ne_none hcounted symtab.owned).mpr hsym)
      exact ⟨n, Option.bind_eq_some_iff.mpr ⟨s, hs, hn⟩, (hname s n hn).mpr hsection⟩

theorem GroupKept.groupApart (hcounted : Symtab.WritesCounted symtab.toContext)
    (hchunks : chunks.Perm (createdChunks t args objs others)) (hfile : objs[f]? = some file)
    (hwords : groupWords t args objs chunks file ref = some words)
    (h : GroupKept t args objs symtab chunks f file ref words) :
    GroupApart t args objs symtab f file ref := by
  have halive := groupWords_isSome.mp ⟨words, hwords⟩
  -- a member without index would be listed as section 0
  have hindex : ∀ j ∈ ref.members, ∀ c, memberChunk t args objs file j = some c →
      c ∈ sectionTable t args objs chunks := by
    intro j hj c hc
    obtain ⟨d, hd, -⟩ := h.lists _ ((mem_tail_groupWords hwords).mpr ⟨j, hj, c, hc, rfl⟩)
    by_contra hmem
    rw [sectionAt_shndx_eq_none hmem] at hd
    cases hd
  constructor
  · obtain ⟨n, hn, hname⟩ := h.signature
    exact (signature_iff hcounted).mp ⟨n, hn, hname⟩
  · exact halive
  · intro j hj id hid heq
    obtain ⟨c, hc⟩ := memberChunk_isSome.mpr (halive j hj)
    exact h.only _ ((mem_tail_groupWords hwords).mpr ⟨j, hj, c, hc, rfl⟩) c
      (sectionAt_shndx (hindex j hj c hc)) id ((mem_contents_memberChunk hfile hc).mpr heq)
  · intro j hj
    obtain ⟨c, hc⟩ := memberChunk_isSome.mpr (halive j hj)
    exact (mem_sectionTable_memberChunk hchunks hfile hc).mp (hindex j hj c hc)
  · intro j hj hjalive hrels
    obtain ⟨w, hw, c, hat, hreloc, hmem⟩ := h.relocs j hj hjalive hrels
    obtain ⟨j', hj', c', hc', rfl⟩ := (mem_tail_groupWords hwords).mp hw
    rw [sectionAt_shndx (hindex j' hj' c' hc')] at hat
    obtain rfl := Option.some.inj hat
    refine ⟨j', hj', (isReloc_memberChunk hc').1.symm.trans hreloc, ?_⟩
    exact ((mem_contents_memberChunk hfile hc').mp hmem).symm

theorem GroupApart.groupKept (hcounted : Symtab.WritesCounted symtab.toContext)
    (hchunks : chunks.Perm (createdChunks t args objs others)) (hfile : objs[f]? = some file)
    (h : GroupApart t args objs symtab f file ref) :
    ∃ words, groupWords t args objs chunks file ref = some words ∧
      GroupKept t args objs symtab chunks f file ref words := by
  obtain ⟨words, hwords⟩ := groupWords_isSome.mpr h.alive
  have hat : ∀ j ∈ ref.members, ∀ c, memberChunk t args objs file j = some c →
      sectionAt t args objs chunks (shndx t args objs chunks c) = some c := fun j hj c hc =>
    sectionAt_shndx ((mem_sectionTable_memberChunk hchunks hfile hc).mpr (h.nonempty j hj))
  refine ⟨words, hwords, (signature_iff hcounted).mpr h.signature, ?_, ?_, ?_, ?_⟩
  · intro w hw
    obtain ⟨j, hj, c, hc, rfl⟩ := (mem_tail_groupWords hwords).mp hw
    exact ⟨c, hat j hj c hc, (isReloc_memberChunk hc).2⟩
  · intro w hw d hd id hid
    obtain ⟨j, hj, c, hc, rfl⟩ := (mem_tail_groupWords hwords).mp hw
    obtain rfl := Option.some.inj ((hat j hj c hc).symm.trans hd)
    have heq := (mem_contents_memberChunk hfile hc).mp hid
    obtain ⟨key, hkey, -⟩ := memberChunk_eq_some hc
    rw [← outputSectionOf_eq hfile] at hkey
    exact h.apart j hj id (List.mem_filter.mp (mem_membersOf.mpr (heq.trans hkey))).1 heq
  · intro j hj hjalive
    obtain ⟨c, hc⟩ := memberChunk_isSome.mpr (h.alive j hj)
    refine ⟨_, (mem_tail_groupWords hwords).mpr ⟨j, hj, c, hc, rfl⟩, c, hat j hj c hc, ?_, ?_⟩
    · exact (isReloc_memberChunk hc).1.trans (isRelocMember_of_isAlive hjalive)
    · rw [mem_contents_memberChunk hfile hc, target_of_isAlive hjalive]
  · intro j hj hjalive hrels
    obtain ⟨j', hj', hrel, heq⟩ := h.relocs j hj hjalive hrels
    obtain ⟨c, hc⟩ := memberChunk_isSome.mpr (h.alive j' hj')
    refine ⟨_, (mem_tail_groupWords hwords).mpr ⟨j', hj', c, hc, rfl⟩, c, hat j' hj' c hc, ?_, ?_⟩
    · exact (isReloc_memberChunk hc).1.trans hrel
    · exact (mem_contents_memberChunk hfile hc).mpr heq.symm

end

theorem GroupKept.mem_iff {f : ℕ} (hfile : objs[f]? = some file)
    (h : GroupKept t args objs symtab chunks f file ref words) :
    (∃ w ∈ words.tail, ∃ c, sectionAt t args objs chunks w = some c ∧ c.isReloc = false ∧
      id ∈ contents t args objs c) ↔
    id.1 = f ∧ id.2 ∈ ref.members ∧ isAlive t args objs file id.2 = true := by
  constructor
  · rintro ⟨w, hw, c, hat, hreloc, hmem⟩
    obtain ⟨rfl, hmember⟩ := h.only w hw c hat id hmem
    refine ⟨rfl, hmember, ?_⟩
    cases c with
    | osec key =>
      rw [contents, mem_membersOf, outputSectionOf_eq hfile] at hmem
      exact outputSection_isSome.mp ⟨key, hmem⟩
    | reloc key => cases hreloc
    | other isHeader size => cases hmem
    | group file' sectIdx numMembers => cases hmem
  · rintro ⟨rfl, hmember, halive⟩
    exact h.sections id.2 hmember halive

/-- A relocatable link keeps its COMDAT groups exactly if the sections of every group that is
kept have output sections of their own, and its symbol is written with the signature. -/
theorem keepsComdats_iff (hcounted : Symtab.WritesCounted symtab.toContext)
    {chunks : List Chunk} (others : List (Bool × ℕ))
    (hchunks : chunks.Perm (createdChunks t args objs others)) :
    KeepsComdats t args objs symtab chunks ↔ ∀ f file, objs[f]? = some file →
      ∀ ref ∈ file.comdatGroups, isOwned objs file ref = true →
        GroupApart t args objs symtab f file ref := by
  constructor
  · intro h f file hfile ref href howned
    obtain ⟨words, hwords, hkept⟩ := h f file hfile ref href howned
    exact hkept.groupApart hcounted hchunks hfile hwords
  · intro h f file hfile ref href howned
    exact (h f file hfile ref href howned).groupKept hcounted hchunks hfile

/-! ## Examples -/

def exampleTarget : Target := ⟨true, 24, false, false, true⟩

def exampleArgs : Args := ⟨false, fun _ => false, false, false, false, false, false⟩

/-- A group of code and its relocations, `other` being the name of the code of another group. -/
def exampleShdrs (other : String) : List ElfShdr :=
  [⟨"", 0, 0, 0, 0, 0, "", []⟩,
    ⟨".group", 17, 0, 1, 12, 4, "f", [1, 3, 4]⟩,
    ⟨".group", 17, 0, 2, 8, 4, "g", [1, 5]⟩,
    ⟨".text", 1, 0x206, 0, 16, 0, "", []⟩,
    ⟨".rela.text", 4, 0x240, 3, 24, 24, "", []⟩,
    ⟨other, 1, 0x206, 0, 8, 0, "", []⟩]

def exampleFile (other : String) : ObjectFile where
  priority := 1
  elfSections := exampleShdrs other
  comdatGroups := [⟨"f", 1, [3, 4]⟩, ⟨"g", 2, [5]⟩]
  read := rfl

def exampleChunks (other : String) : List Chunk :=
  createdChunks exampleTarget exampleArgs [exampleFile other] [(true, 64)]

theorem perm_exampleOrder : [0].Perm (List.range 1) := List.Perm.refl _

/-- The null symbol and the functions `f` and `g`. -/
def exampleSymbols (other : String) : SymbolTable (Fin 3) where
  args := { relocatable := true }
  sym := fun s =>
    { name := ([[], [102], [103]] : List (List UInt8)).getD s.val []
      file := some (.obj 0), symIdx := s }
  chunks := { isHeader := true } ::
    (sectionTable exampleTarget exampleArgs [exampleFile other] (exampleChunks other)).map
      fun _ => {}
  objs := [{ symbols := [0, 1, 2], firstGlobal := 1 }]
  dsos := []
  retained := fun _ => false
  retained_args := fun _ _ => rfl
  objs_ne_nil := List.cons_ne_nil _ _
  local_sym := fun k file hk => by
    cases k with
    | zero =>
      obtain rfl := Option.some.inj hk
      exact fun p hp => absurd hp List.not_mem_nil
    | succ k => cases hk
  local_ne_global := fun file hfile p hp => by
    obtain rfl := List.mem_singleton.mp hfile
    exact absurd hp List.not_mem_nil
  dso_sym := fun k file hk => absurd hk (by simp)
  objOrder := [0]
  dsoOrder := []
  objOrder_perm := perm_exampleOrder
  dsoOrder_perm := List.Perm.refl _
  owned :=
    { obj := fun s k hfile => by
        obtain rfl := Symtab.FileRef.obj.inj (Option.some.inj hfile)
        exact ⟨_, rfl, match s with | 0 | 1 | 2 => rfl⟩
      dso := fun s k hfile => by cases hfile }
  relocatable := rfl

theorem writesCounted_exampleSymbols (other : String) :
    Symtab.WritesCounted (exampleSymbols other).toContext :=
  Symtab.writesCounted_iff.mpr ⟨fun h => absurd h Bool.false_ne_true,
    fun h => absurd h Bool.false_ne_true⟩

/-- Groups whose sections have names of their own are kept. -/
theorem keepsComdats_example :
    KeepsComdats exampleTarget exampleArgs [exampleFile ".text.g"] (exampleSymbols ".text.g")
      (exampleChunks ".text.g") := by
  refine (keepsComdats_iff (writesCounted_exampleSymbols _) [(true, 64)] (List.Perm.refl _)).mpr ?_
  intro f file hfile ref href _
  obtain ⟨rfl, rfl⟩ : f = 0 ∧ exampleFile ".text.g" = file := by
    cases f with
    | zero => exact ⟨rfl, Option.some.inj hfile⟩
    | succ f => cases hfile
  rcases List.mem_pair.mp href with rfl | rfl
  · have hsym : (exampleSymbols ".text.g").IsCounted 1 :=
      ⟨_, rfl, ((1, 1), false), by decide, rfl⟩
    exact ⟨⟨rfl, 1, rfl, hsym, rfl, by decide⟩, by decide, by decide, by decide, by decide⟩
  · have hsym : (exampleSymbols ".text.g").IsCounted 2 :=
      ⟨_, rfl, ((2, 2), false), by decide, rfl⟩
    exact ⟨⟨rfl, 2, rfl, hsym, rfl, by decide⟩, by decide, by decide, by decide, by decide⟩

/-- Two groups whose code is called `.text` are put together: each lists the code of both. -/
theorem not_keepsComdats_example :
    ¬ KeepsComdats exampleTarget exampleArgs [exampleFile ".text"] (exampleSymbols ".text")
      (exampleChunks ".text") := by
  intro h
  obtain ⟨words, hwords, hkept⟩ := h 0 (exampleFile ".text") rfl ⟨"f", 1, [3, 4]⟩ (by decide)
    (by decide)
  have hlisted : groupWords exampleTarget exampleArgs [exampleFile ".text"]
      (exampleChunks ".text") (exampleFile ".text") ⟨"f", 1, [3, 4]⟩ = some [1, 1, 2] := by
    decide
  obtain rfl := Option.some.inj (hlisted.symm.trans hwords)
  have honly := hkept.only 1 List.mem_cons_self (.osec ⟨".text", 1, 0x206⟩) (by decide) (0, 5)
    (by decide)
  exact absurd honly.2 (by decide)

end Mold.Elf.Relocatable
