import Mold.Elf.RelocSection
import Mold.Elf.SymtabCorrect

/-!
# Meaning of copied relocations

The slots of a partitioned symbol table hold what their indices promise.  So an entry has
the meaning of its relocation if its symbol has a slot, or if the section of its section
symbol is in the output as a whole.
-/

namespace Mold.Elf.Symtab

open Lib

variable {ι : Type*}

section Indices

variable [DecidableEq ι] {ctx : Context ι} {sizes : Sizes ι}

theorem exists_of_countAll_index {n : ℕ} {flags : ι → Bool} {l : List (Tagged ι)} {i m : ℕ}
    (h : (Counting.countAll ctx
      { outputSymIndices := List.replicate n none, writeToSymtab := flags }
      l).outputSymIndices.getD i none = some m) : ∃ x ∈ l, x.1.2 = i := by
  by_contra hnone
  rw [List.getD_eq_getElem?_getD, countAll_indices_of_notMem _ _ fun x hx hi =>
    hnone ⟨x, hx, hi⟩, List.getElem?_replicate] at h
  split at h <;> cases h

structure Owned (ctx : Context ι) : Prop where
  obj : ∀ s k, (ctx.sym s).file = some (.obj k) →
    ∃ file, ctx.objs[k]? = some file ∧ file.symbols[(ctx.sym s).symIdx]? = some s
  dso : ∀ s k, (ctx.sym s).file = some (.dso k) →
    ∃ file, ctx.dsos[k]? = some file ∧ file.symbols[(ctx.sym s).symIdx]? = some s

def Context.IsCounted (ctx : Context ι) (s : ι) : Prop :=
  match (ctx.sym s).file with
  | none => False
  | some (.obj k) => ∃ file, ctx.objs[k]? = some file ∧
      ∃ x ∈ ctx.countedObject k file, x.1 = (s, (ctx.sym s).symIdx)
  | some (.dso k) => ∃ file, ctx.dsos[k]? = some file ∧
      ∃ x ∈ ctx.countedShared k file, x.1 = (s, (ctx.sym s).symIdx)

omit [DecidableEq ι] in
theorem eq_of_counted {symbols : List ι} {l : List (Tagged ι)} {s : ι} {i : ℕ}
    (h : (l.map Prod.fst).Sublist symbols.zipIdx) (hs : symbols[i]? = some s) {x : Tagged ι}
    (hx : x ∈ l) (hi : x.1.2 = i) : x.1 = (s, i) := by
  have hget : symbols[x.1.2]? = some x.1.1 :=
    List.mem_zipIdx_iff_getElem?.mp (h.subset (List.mem_map_of_mem hx))
  rw [hi, hs] at hget
  exact Prod.ext (Option.some.inj hget).symm hi

theorem SizedAll.isCounted (h : SizedAll ctx sizes) (howned : Owned ctx) {s : ι}
    (hidx : ctx.getOutputSymIdx sizes s ≠ none) : ctx.IsCounted s := by
  obtain ⟨m, hm⟩ := Option.ne_none_iff_exists'.mp hidx
  rw [Context.getOutputSymIdx] at hm
  rw [Context.IsCounted]
  cases hfile : (ctx.sym s).file with
  | none =>
    rw [hfile] at hm
    cases hm
  | some ref =>
    rw [hfile] at hm
    cases ref with
    | obj k =>
      obtain ⟨file, hk, hs⟩ := howned.obj s k hfile
      obtain ⟨flags, heq⟩ := h.obj k file hk
      simp only at hm
      rw [heq, Option.map_eq_some_iff] at hm
      obtain ⟨i, hi, -⟩ := hm
      obtain ⟨x, hx, hplace⟩ := exists_of_countAll_index hi
      exact ⟨file, hk, x, hx, eq_of_counted (countedObject_sublist ctx k file) hs hx hplace⟩
    | dso k =>
      obtain ⟨file, hk, hs⟩ := howned.dso s k hfile
      obtain ⟨flags, heq⟩ := h.dso k file hk
      simp only at hm
      rw [heq, Option.map_eq_some_iff] at hm
      obtain ⟨i, hi, -⟩ := hm
      obtain ⟨x, hx, hplace⟩ := exists_of_countAll_index hi
      exact ⟨file, hk, x, hx, eq_of_counted (countedShared_sublist ctx k file) hs hx hplace⟩

theorem SizedAll.exists_mem_of_isCounted (h : SizedAll ctx sizes) (hsame : WritesCounted ctx)
    {s : ι} (hs : ctx.IsCounted s) :
    ∃ slot stName xindex,
      ctx.symbolWrite (s, (ctx.sym s).symIdx) slot stName xindex ∈ ctx.symWrites sizes := by
  rw [Context.IsCounted] at hs
  cases hfile : (ctx.sym s).file with
  | none =>
    rw [hfile] at hs
    exact absurd hs id
  | some ref =>
    rw [hfile] at hs
    cases ref with
    | obj k =>
      obtain ⟨file, hk, x, hx, hxs⟩ := hs
      obtain ⟨n, stName, hw⟩ := h.exists_mem_counted hsame hk hx
      rw [hxs] at hw
      exact ⟨n, stName, n, hw⟩
    | dso k =>
      obtain ⟨file, hk, x, hx, hxs⟩ := hs
      obtain ⟨hglobal, hcounts, -⟩ := mem_countedShared hx
      obtain ⟨before, after, hglobals⟩ := List.append_of_mem hglobal
      obtain ⟨stName, hw⟩ := h.exists_mem_sharedPart hsame hk hglobals hcounts
      rw [hxs] at hw
      exact ⟨_, stName, _, hw⟩

theorem SizedAll.getOutputSymIdx_ne_none (h : SizedAll ctx sizes) (hsame : WritesCounted ctx)
    (howned : Owned ctx) {s : ι} : ctx.getOutputSymIdx sizes s ≠ none ↔ ctx.IsCounted s := by
  refine ⟨h.isCounted howned, fun hs => ?_⟩
  obtain ⟨slot, stName, xindex, hw⟩ := h.exists_mem_of_isCounted hsame hs
  rw [h.indices hsame hw (s := s) rfl rfl]
  exact nofun

end Indices

/-! ## Meaning of slots -/

namespace RelocContext

variable [DecidableEq ι] {ctx : RelocContext ι}

theorem sizedAll (ctx : RelocContext ι) : SizedAll ctx.toContext ctx.sizes :=
  sizedAll_createOutputSymtab ctx.objOrder_perm ctx.dsoOrder_perm

omit [DecidableEq ι] in
theorem writesCounted (hagree : PassesAgree ctx.toContext) : WritesCounted ctx.toContext :=
  writesCounted_iff.mpr ⟨hagree.objs, hagree.dsos⟩

theorem slots_perm (hagree : PassesAgree ctx.toContext) :
    ((ctx.symWrites ctx.sizes).map SymWrite.slot).Perm (List.range (ctx.nsyms ctx.sizes)) :=
  ctx.sizedAll.slots_perm (writesCounted hagree)

variable {c : ℕ}

omit [DecidableEq ι] in
theorem lt_of_shndx_ne_zero (hc : ctx.shndx c ≠ 0) : c < ctx.allChunks.length := by
  by_contra hle
  rw [Context.shndx, List.getD_eq_getElem?_getD,
    List.getElem?_eq_none (by rw [length_assignShndx]; exact Nat.not_lt.mp hle)] at hc
  exact hc rfl

omit [DecidableEq ι] in
theorem chunkAt_shndx (hc : ctx.shndx c ≠ 0) : ctx.chunkAt (ctx.shndx c) = some c := by
  have hslots := sectionWrites_map_slot ctx.toContext
  rw [Context.sectionWrites, List.map_map] at hslots
  have hnodup : (((List.range ctx.allChunks.length).filter fun c => ctx.shndx c ≠ 0).map
      ctx.shndx).Nodup := by
    have hrange := @List.nodup_range' 1 (ctx.allChunks.countP fun chunk => !chunk.isHeader) 1
    rw [← hslots] at hrange
    exact hrange
  exact find?_of_nodup_map hnodup (List.mem_filter.mpr ⟨List.mem_range.mpr (lt_of_shndx_ne_zero hc), decide_eq_true hc⟩)

variable (hagree : PassesAgree ctx.toContext)

include hagree

theorem find?_symWrites {w : SymWrite ι} (hw : w ∈ ctx.symWrites ctx.sizes) :
    (ctx.symWrites ctx.sizes).find? (fun w' => w'.slot = w.slot) = some w :=
  find?_of_nodup_map ((slots_perm hagree).nodup_iff.mpr List.nodup_range) hw

theorem slot_lt_nsyms {w : SymWrite ι} (hw : w ∈ ctx.symWrites ctx.sizes) :
    w.slot < ctx.nsyms ctx.sizes :=
  List.mem_range.mp ((slots_perm hagree).subset (List.mem_map_of_mem hw))

theorem slotPlace_zero (addend : ℤ) : ctx.slotPlace 0 addend = .absolute addend := by
  have hnull : (Context.nullWrite : SymWrite ι) ∈ ctx.symWrites ctx.sizes :=
    mem_symWrites.mpr (.inl List.mem_cons_self)
  rw [slotPlace, ← show (Context.nullWrite : SymWrite ι).slot = 0 from rfl,
    find?_symWrites hagree hnull]
  rfl

omit [DecidableEq ι] in
theorem shndx_lt_loreserve (c : ℕ) : ctx.shndx c < SHN_LORESERVE :=
  Nat.lt_trans (shndx_lt ctx.toContext c) (nextShndx_allChunks hagree.sections)

omit hagree [DecidableEq ι] in
theorem contentPlace_section (hc : ctx.shndx c ≠ 0) (content : Content ι)
    (addend : ℤ) : ctx.contentPlace content (some (.ofIndex (ctx.shndx c))) addend =
      .inChunk c (ctx.contentValue content - ctx.shAddr c + addend) := by
  rw [SectionRef.ofIndex, if_neg hc]
  unfold contentPlace
  cases content <;> simp only [chunkAt_shndx hc]

theorem section_slot (hc : ctx.shndx c ≠ 0) :
    ctx.shndx c < ctx.nsyms ctx.sizes ∧
      ∀ addend, ctx.slotPlace (ctx.shndx c) addend = .inChunk c addend := by
  have hfront : ctx.sectionWrite c ∈ ctx.frontWrites :=
    List.mem_append_left _ (List.mem_cons_of_mem _ (List.mem_map_of_mem (List.mem_filter.mpr
      ⟨List.mem_range.mpr (lt_of_shndx_ne_zero hc), decide_eq_true hc⟩)))
  have hw : ctx.sectionWrite c ∈ ctx.symWrites ctx.sizes := mem_symWrites.mpr (.inl hfront)
  refine ⟨slot_lt_nsyms hagree hw, fun addend => ?_⟩
  have hread := frontWrites_shndx hagree.sections hfront (ctx.xindexAt ctx.sizes (ctx.shndx c))
  have hslot : (ctx.sectionWrite c : SymWrite ι).slot = ctx.shndx c := rfl
  have hfind := find?_symWrites hagree hw
  rw [hslot] at hfind
  rw [slotPlace, hfind]
  change ctx.contentPlace (.section c) _ addend = _
  rw [hslot, hread]
  change ctx.contentPlace (.section c) (some (.ofIndex (ctx.shndx c))) addend = _
  rw [contentPlace_section hc, contentValue, Int.sub_self, Int.zero_add]

def writtenPlace (ctx : RelocContext ι) (s : ι) (entry : Option ℕ) (addend : ℤ) : Place ι :=
  ctx.contentPlace (.symbol s (ctx.sym s).symIdx) (readShndx (ctx.outputShndx s) entry) addend

variable {s : ι}

theorem symbol_slot {n : ℕ} (hn : ctx.getOutputSymIdx ctx.sizes s = some n) :
    n ≠ 0 ∧ n < ctx.nsyms ctx.sizes ∧
      ∃ entry, ∀ addend, ctx.slotPlace n addend = ctx.writtenPlace s entry addend := by
  have hsame := writesCounted hagree
  have hcounted := ctx.sizedAll.isCounted ⟨ctx.owned_obj, ctx.owned_dso⟩ (s := s) (by
    rw [hn]
    exact nofun)
  obtain ⟨slot, stName, xindex, hw⟩ := ctx.sizedAll.exists_mem_of_isCounted hsame hcounted
  have hslot := ctx.sizedAll.indices hsame hw (s := s) rfl rfl
  obtain rfl := Option.some.inj (hslot.symm.trans hn)
  refine ⟨fun hzero => ?_, slot_lt_nsyms hagree hw, ctx.xindexAt ctx.sizes slot, fun addend => ?_⟩
  · have hnull : (Context.nullWrite : SymWrite ι) ∈ ctx.symWrites ctx.sizes :=
      mem_symWrites.mpr (.inl List.mem_cons_self)
    have hfind := find?_symWrites hagree hw
    rw [hzero, ← show (Context.nullWrite : SymWrite ι).slot = 0 from rfl,
      find?_symWrites hagree hnull] at hfind
    cases congrArg SymWrite.content (Option.some.inj hfind)
  rw [slotPlace, find?_symWrites hagree hw]
  change ctx.contentPlace (.symbol s (ctx.sym s).symIdx) _ addend = _
  rw [stShndx_symbolWrite hagree.sections, Option.bind_some]
  rfl

omit [DecidableEq ι] in
theorem contentPlace_chunk (hc : ctx.shndx c ≠ 0) (entry : Option ℕ) (addend : ℤ) :
    ctx.contentPlace (.symbol s (ctx.sym s).symIdx) (readShndx (ctx.shndx c) entry) addend =
      .inChunk c (ctx.stValue s - ctx.shAddr c + addend) := by
  rw [readShndx_of_lt (shndx_lt_loreserve hagree c)]
  exact contentPlace_section hc _ addend

omit [DecidableEq ι] in
/-- A symbol with an offset in a chunk is written with the index of the chunk, if it has one. -/
theorem contentPlace_chunk_iff (hvalue : ctx.stValue s = ctx.shAddr c + ctx.symOffset s)
    (entry : Option ℕ) (addend : ℤ) :
    (ctx.contentPlace (.symbol s (ctx.sym s).symIdx) (readShndx (ctx.shndx c) entry) addend =
        .inChunk c (ctx.symOffset s + addend) ∨
      (.inChunk c (ctx.symOffset s + addend) : Place ι) = .removed ∧
        ctx.contentPlace (.symbol s (ctx.sym s).symIdx) (readShndx (ctx.shndx c) entry)
          addend = .undefined s addend) ↔ ctx.shndx c ≠ 0 := by
  have hundef : ctx.contentPlace (.symbol s (ctx.sym s).symIdx) (readShndx 0 entry) addend =
      .undefined s addend := rfl
  by_cases hc : ctx.shndx c = 0
  · rw [hc, hundef]
    simp
  · rw [contentPlace_chunk hagree hc, hvalue, add_sub_cancel_left]
    simp [hc]

omit [DecidableEq ι] in
/-- A symbol is written with the place that it has, or without a section after its place was
removed, exactly if it is kept. -/
theorem writtenPlace_iff (s : ι) (entry : Option ℕ) (addend : ℤ) :
    (ctx.writtenPlace s entry addend = ctx.symbolPlace s addend ∨
      ctx.symbolPlace s addend = .removed ∧
        ctx.writtenPlace s entry addend = .undefined s addend) ↔ ctx.SymbolKept s := by
  have hundef : ctx.contentPlace (.symbol s (ctx.sym s).symIdx) (readShndx 0 entry) addend =
      .undefined s addend := rfl
  have habs : ctx.contentPlace (.symbol s (ctx.sym s).symIdx) (readShndx SHN_ABS entry) addend =
      .absolute (ctx.stValue s + addend) := rfl
  have hchunk (c : ℕ) (hvalue : ctx.stValue s = ctx.shAddr c + ctx.symOffset s) :=
    contentPlace_chunk_iff hagree hvalue entry addend
  rw [writtenPlace, symbolPlace, Context.outputShndx, SymbolKept]
  cases hcopy : (ctx.sym s).copyrel with
  | some c => exact hchunk c (by rw [stValue, hcopy])
  | none =>
    cases hdso : ctx.isDso s || (ctx.sym s).isUndef with
    | true =>
      refine iff_of_true (.inl hundef) ?_
      rcases Bool.or_eq_true_iff.mp hdso with hdso | hdso
      · exact .inl hdso
      · exact .inr (.inl hdso)
    | false =>
      obtain ⟨hdso', hundef'⟩ := Bool.or_eq_false_iff.mp hdso
      have hvalue : ctx.stValue s = ctx.originAddr s := by
        rw [stValue, hcopy]
        simp only [hdso, Bool.false_eq_true, if_false]
      rw [originAddr] at hvalue
      simp only [hdso', hundef', Bool.false_eq_true, if_false, false_or]
      cases horigin : (ctx.sym s).origin with
      | absolute =>
        rw [horigin] at hvalue
        exact iff_of_true (.inl (by rw [habs, hvalue])) trivial
      | common =>
        refine iff_of_false ?_ id
        simp only [habs]
        simp
      | osec c =>
        rw [horigin] at hvalue
        exact hchunk c hvalue
      | frag isAlive c =>
        rw [horigin] at hvalue
        cases isAlive with
        | true => exact hchunk c hvalue
        | false =>
          by_cases hc : ctx.shndx c = 0
          · exact iff_of_true (.inr ⟨rfl, by simp only [hc]; exact hundef⟩) hc
          · refine iff_of_false ?_ hc
            simp only [contentPlace_chunk hagree hc]
            simp
      | isec isAlive isMerge c leader =>
        rw [horigin] at hvalue
        cases isAlive with
        | true => exact hchunk c hvalue
        | false =>
          cases leader with
          | some leader => exact hchunk leader hvalue
          | none =>
            cases (ctx.sym s).ehFrame with
            | none => exact iff_of_true (.inr ⟨rfl, hundef⟩) rfl
            | some c =>
              refine iff_of_false ?_ (Option.some_ne_none c)
              simp only [Bool.false_eq_true, if_false, hundef]
              simp

variable {addend : ℤ} {place : Place ι}

theorem denotes_section (hc : ctx.shndx c ≠ 0) :
    ctx.Denotes s (ctx.shndx c) addend place ↔ .inChunk c addend = place := by
  rw [Denotes, (section_slot hagree hc).2 addend]
  refine ⟨fun h => h.resolve_right ?_, .inl⟩
  rintro ⟨-, hzero | hplace⟩
  · exact hc hzero
  · cases hplace

theorem denotes_zero :
    ctx.Denotes s 0 addend place ↔ .absolute addend = place ∨ place = .removed := by
  rw [Denotes, slotPlace_zero hagree]
  simp

omit hagree

/-! ## Entries -/

theorem toNat_emod {n bits : ℕ} (h : n < 2 ^ bits) : ((n : ℤ) % 2 ^ bits).toNat = n := by
  have hlt : (n : ℤ) < 2 ^ bits := by exact_mod_cast h
  rw [Int.emod_eq_of_lt (Int.natCast_nonneg n) hlt, Int.toNat_natCast]

theorem entryCorrect_iff (haddend : ctx.isRela = true ∨ ctx.args.relocatable = true)
    (isec : Member ι) (rel : Rel ι) :
    ctx.EntryCorrect isec rel (ctx.copyRel isec rel) ↔
      rel.delta = 0 ∧ ∃ p, ctx.copySym isec rel = some p ∧
        (rel.keepsAddend = true ∨
          ctx.Denotes rel.sym (p.1 % 2 ^ ctx.symBits).toNat p.2 (ctx.relPlace rel)) := by
  have hwritten : (ctx.isRela || ctx.args.relocatable) = true := by
    rw [Bool.or_eq_true]
    exact haddend
  rw [EntryCorrect, copyRel]
  constructor
  · rintro ⟨e, he, hoffset, hmeaning⟩
    obtain ⟨p, hp, rfl⟩ := Option.map_eq_some_iff.mp he
    refine ⟨by simp only at hoffset; omega, p, hp, ?_⟩
    simp only [hwritten, if_true] at hmeaning
    split at hmeaning
    · exact .inl ‹_›
    · exact .inr hmeaning
  · rintro ⟨hdelta, p, hp, hmeaning⟩
    refine ⟨_, Option.map_eq_some_iff.mpr ⟨p, hp, rfl⟩, ?_, ?_⟩
    · rw [hdelta, Int.sub_zero, Int.add_assoc]
    · simp only [hwritten, if_true]
      split
      · rfl
      · exact hmeaning.resolve_left ‹_›

variable {frags : List (ℕ × Fragment)}

omit [DecidableEq ι] in
theorem shndx_of_getFragment (ctx : RelocContext ι)
    (hfrags : (ctx.sectionSym s).mergeable = some frags) {offset : ℤ}
    {p : Fragment × ℤ} (hp : getFragment frags offset = some p)
    (halive : p.1.isAlive = true) : ctx.shndx p.1.chunk ≠ 0 := by
  obtain ⟨q, hq, rfl⟩ := Option.map_eq_some_iff.mp hp
  have hmem := (List.mem_filter.mp (List.mem_of_getLast? hq)).1
  exact ctx.frag_shndx s frags hfrags q hmem halive

omit [DecidableEq ι] in
theorem frags_eq_nil (ctx : RelocContext ι)
    (hfrags : (ctx.sectionSym s).mergeable = some frags) {value : ℕ}
    (hnone : getFragment frags value = none) : frags = [] := by
  cases frags with
  | nil => rfl
  | cons p frags =>
    have hfirst := ctx.frags_first s p frags hfrags
    have hkeep : (p.1 : ℤ) ≤ value := by omega
    rw [getFragment, Option.map_eq_none_iff, List.getLast?_eq_none_iff,
      List.filter_eq_nil_iff] at hnone
    exact absurd (decide_eq_true hkeep) (hnone p List.mem_cons_self)

def Means (ctx : RelocContext ι) (rel : Rel ι) (place : Place ι) (p : ℤ × ℤ) : Prop :=
  rel.keepsAddend = true ∨ ctx.Denotes rel.sym (p.1 % 2 ^ ctx.symBits).toNat p.2 place

include hagree

variable (hbits : ctx.nsyms ctx.sizes ≤ 2 ^ ctx.symBits)

include hbits

variable {rel : Rel ι}

theorem means_section (hc : ctx.shndx c ≠ 0) :
    ctx.Means rel place (ctx.shndx c, addend) ↔
      rel.keepsAddend = true ∨ .inChunk c addend = place := by
  have hlt := Nat.lt_of_lt_of_le (section_slot hagree hc).1 hbits
  rw [Means, toNat_emod hlt, denotes_section hagree hc]

omit hbits in
theorem means_zero :
    ctx.Means rel place (0, addend) ↔
      rel.keepsAddend = true ∨ .absolute addend = place ∨ place = .removed := by
  rw [Means, Int.zero_emod, Int.toNat_zero, denotes_zero hagree]

variable {isec : Member ι}

theorem means_target (hmember : isec.isEhFrame = false)
    (hfragment : ctx.fragment isec rel = some none)
    (hmergeable : (ctx.sectionSym rel.sym).mergeable = none) :
    (∃ p, ctx.copySection isec rel = some p ∧
      ctx.Means rel (ctx.sectionPlace (ctx.sectionSym rel.sym) rel.addend) p) ↔
    ctx.TargetOk rel := by
  rw [copySection, hfragment, sectionPlace, hmergeable, TargetOk]
  cases hisec : (ctx.sectionSym rel.sym).isec with
  | none => simp
  | some target =>
    simp only [Option.some.injEq, exists_eq_left', targetPlace]
    cases hosec : target.outputSection with
    | some c =>
      have hc := ctx.osec_shndx rel.sym target c hisec hosec
      simp only [Option.some.injEq, exists_eq_left', means_section hagree hbits hc,
        Place.inChunk.injEq, true_and]
      refine or_congr Iff.rfl ?_
      omega
    | none =>
      simp only [hmember, Bool.false_eq_true, if_false, Option.some.injEq,
        exists_eq_left', means_zero hagree]
      refine or_congr Iff.rfl ?_
      cases target.leader with
      | some leader => simp
      | none => cases target.isEhFrame <;> simp

theorem means_removed :
    ctx.Means rel .removed (ctx.shndx c, addend) ↔ rel.keepsAddend = true ∨ ctx.shndx c = 0 := by
  by_cases hc : ctx.shndx c = 0
  · have hzero : (ctx.shndx c : ℤ) = 0 := by omega
    rw [hzero, means_zero hagree]
    simp [hc]
  · rw [means_section hagree hbits hc]
    simp [hc]

theorem means_inChunk {c c' : ℕ} (hc' : ctx.shndx c' ≠ 0)
    {addend offset : ℤ} :
    ctx.Means rel (.inChunk c' offset) (ctx.shndx c, addend) ↔
      rel.keepsAddend = true ∨ c = c' ∧ addend = offset := by
  by_cases hc : ctx.shndx c = 0
  · have hne : c ≠ c' := fun h => hc' (h ▸ hc)
    have hzero : (ctx.shndx c : ℤ) = 0 := by omega
    rw [hzero, means_zero hagree]
    simp [hne]
  · rw [means_section hagree hbits hc, Place.inChunk.injEq]

theorem means_fragment (hmember : isec.isEhFrame = false)
    (hmergeable : (ctx.sectionSym rel.sym).mergeable = some frags) :
    (∃ p, ctx.copySection isec rel = some p ∧
      ctx.Means rel (ctx.sectionPlace (ctx.sectionSym rel.sym) rel.addend) p) ↔
    ctx.FragmentOk isec rel frags := by
  rw [copySection, fragment, sectionPlace, hmergeable, FragmentOk]
  simp only
  cases isec.isAlloc with
  | true =>
    rw [if_pos rfl, if_pos rfl]
    cases hplace : getFragment frags ((ctx.sectionSym rel.sym).value + rel.addend) with
    | none => simp
    | some p =>
      simp only [Option.map_some, Option.some.injEq, exists_eq_left']
      cases halive : p.1.isAlive with
      | true =>
        have hc := ctx.shndx_of_getFragment hmergeable hplace halive
        rw [if_pos rfl, means_inChunk hagree hbits hc]
        refine or_congr Iff.rfl (iff_of_true ⟨rfl, ?_⟩ (.inl rfl))
        omega
      | false =>
        rw [if_neg Bool.false_ne_true, means_removed hagree hbits]
        simp
  | false =>
    rw [if_neg Bool.false_ne_true, if_neg Bool.false_ne_true]
    cases hfirst : getFragment frags (ctx.sectionSym rel.sym).value with
    | none =>
      obtain rfl := ctx.frags_eq_nil hmergeable hfirst
      have hplace : getFragment [] ((ctx.sectionSym rel.sym).value + rel.addend) =
          none := rfl
      rw [hplace, TargetOk]
      cases hisec : (ctx.sectionSym rel.sym).isec with
      | none => simp
      | some target =>
        obtain ⟨hosec, hleader, heh⟩ :=
          ctx.mergeable_removed rel.sym [] target hmergeable hisec
        simp only [hosec, hleader, heh, hmember, Bool.false_eq_true, if_false,
          Option.some.injEq, exists_eq_left', means_zero hagree]
        simp
    | some first =>
      simp only [Option.some.injEq, exists_eq_left']
      cases hplace : getFragment frags ((ctx.sectionSym rel.sym).value + rel.addend) with
      | none => exact means_removed hagree hbits
      | some p =>
        simp only
        cases halive : p.1.isAlive with
        | true =>
          have hc := ctx.shndx_of_getFragment hmergeable hplace halive
          exact means_inChunk hagree hbits hc
        | false => exact means_removed hagree hbits

theorem means_symbol (hsection : (ctx.sym rel.sym).isSection = false) :
    (∃ p, ctx.copySym isec rel = some p ∧ ctx.Means rel (ctx.relPlace rel) p) ↔
    ctx.SymbolOk rel := by
  rw [copySym, relPlace, hsection, SymbolOk]
  simp only [Bool.false_eq_true, if_false, Option.some.injEq, exists_eq_left']
  by_cases hzero : (ctx.sym rel.sym).symIdx = 0
  · simp only [hzero, if_true, true_and]
    rw [means_zero hagree]
    refine or_congr Iff.rfl ?_
    cases hdso : ctx.isDso rel.sym with
    | false => simp
    | true =>
      rw [symbolPlace, hdso]
      cases (ctx.sym rel.sym).copyrel <;> simp
  · simp only [hzero, if_false, false_and]
    rw [Means]
    refine or_congr Iff.rfl ?_
    cases hidx : ctx.getOutputSymIdx ctx.sizes rel.sym with
    | none => simp [outputSymIdx, hidx]
    | some n =>
      obtain ⟨hn, hlt, entry, hplace⟩ := symbol_slot hagree hidx
      rw [outputSymIdx, hidx]
      simp only
      rw [toNat_emod (Nat.lt_of_lt_of_le hlt hbits), Denotes, hplace, or_iff_right hn]
      exact writtenPlace_iff hagree rel.sym entry rel.addend

omit hagree hbits in
theorem copyBuf_slots (ctx : RelocContext ι) :
    ctx.copyBuf.map RelWrite.slot = List.range ctx.numEntries ∧
    ctx.copyBuf.map (fun w => (w.isec, w.rel)) =
      ctx.members.flatMap fun isec => isec.rels.map fun rel => (isec, rel) := by
  constructor
  · have hslots := @flatMap_tile_range' _ (fun isec : Member ι => isec.rels.length) 0 ctx.members
    rw [numEntries, List.range_eq_range', ← hslots, copyBuf, List.map_flatMap]
    refine List.flatMap_congr fun p _ => ?_
    rw [List.map_map, ← List.zipIdx_map_snd]
    rfl
  · have hfst := @tile_map_fst _ (fun isec : Member ι => isec.rels.length) 0 ctx.members
    rw [copyBuf, List.map_flatMap]
    conv_rhs => rw [← hfst]
    rw [List.flatMap_map]
    refine List.flatMap_congr fun p _ => ?_
    rw [List.map_map]
    conv_rhs => rw [← List.zipIdx_map_fst p.2 p.1.rels]
    rw [List.map_map]
    rfl

omit hagree hbits in
theorem entry_of_mem_copyBuf {w : RelWrite ι} (hw : w ∈ ctx.copyBuf) :
    w.entry = ctx.copyRel w.isec w.rel := by
  obtain ⟨p, -, hw⟩ := List.mem_flatMap.mp hw
  obtain ⟨q, -, rfl⟩ := List.mem_map.mp hw
  rfl

theorem entryCorrect_iff_relOk (haddend : ctx.isRela = true ∨ ctx.args.relocatable = true)
    (hmember : isec.isEhFrame = false) (rel : Rel ι) :
    ctx.EntryCorrect isec rel (ctx.copyRel isec rel) ↔ ctx.RelOk isec rel := by
  rw [entryCorrect_iff haddend, RelOk]
  refine and_congr Iff.rfl ?_
  cases hsection : (ctx.sym rel.sym).isSection with
  | false =>
    rw [if_neg Bool.false_ne_true]
    exact means_symbol hagree hbits hsection
  | true =>
    rw [if_pos rfl, copySym, relPlace, hsection, if_pos rfl, if_pos rfl]
    cases hmergeable : (ctx.sectionSym rel.sym).mergeable with
    | none =>
      have hfragment : ctx.fragment isec rel = some none := by
        rw [fragment, hmergeable]
      exact means_target hagree hbits hmember hfragment hmergeable
    | some frags => exact means_fragment hagree hbits hmember hmergeable

end RelocContext

/-- A call to the function `some true` of a shared library, which has the function
`some false` as well.  The function that is called may be the first symbol of the
library. -/
def exampleReloc (isFirst : Bool) : RelocContext (Option Bool) where
  args := {}
  sym := fun s =>
    match s with
    | none => { name := [], file := some (.obj 0), symIdx := 0, isUndef := true }
    | some s =>
      { name := [if s then 102 else 103], file := some (.dso 0)
        symIdx := if s = isFirst then 0 else 1, isImported := true }
  chunks := [{ isHeader := true }, {}]
  objs := [{ symbols := [none, some true], firstGlobal := 1 }]
  dsos := [{ symbols := [some isFirst, some !isFirst], firstGlobal := 0 }]
  retained := fun _ => false
  retained_args := fun _ _ => rfl
  objs_ne_nil := by simp
  local_sym := fun k file hk => by
    cases k with
    | zero =>
      obtain rfl := Option.some.inj hk
      exact fun p hp => absurd hp List.not_mem_nil
    | succ k => cases hk
  local_ne_global := fun file hfile p hp => by
    obtain rfl := List.mem_singleton.mp hfile
    exact absurd hp List.not_mem_nil
  dso_sym := fun k file hk => by
    cases k with
    | zero =>
      obtain rfl := Option.some.inj hk
      refine ⟨rfl, fun p _ hfile => ?_⟩
      cases hp : p.1 with
      | none => rfl
      | some s => rfl
    | succ k => cases hk
  objOrder := [0]
  dsoOrder := [0]
  isRela := true
  symBits := 32
  shAddr := fun _ => 0
  ehFrame := 2
  symOffset := fun _ => 0
  sectionSym := fun _ => {}
  chunk := 1
  members := [{ offset := 0, rels := [{ offset := 1, sym := some true, addend := -4 }] }]
  objOrder_perm := List.Perm.refl _
  dsoOrder_perm := List.Perm.refl _
  owned_obj := fun s k hfile => by
    cases s with
    | none =>
      obtain rfl := FileRef.obj.inj (Option.some.inj hfile)
      exact ⟨_, rfl, rfl⟩
    | some s => cases hfile
  owned_dso := fun s k hfile => by
    cases s with
    | none => cases hfile
    | some s =>
      obtain rfl := FileRef.dso.inj (Option.some.inj hfile)
      refine ⟨_, rfl, ?_⟩
      cases s <;> cases isFirst <;> rfl
  file_ne_none := fun isec hisec rel hrel => by
    obtain rfl := List.mem_singleton.mp hisec
    obtain rfl := List.mem_singleton.mp hrel
    exact nofun
  members_ehFrame := fun isec hisec => by
    obtain rfl := List.mem_singleton.mp hisec
    rfl
  frags_first := nofun
  mergeable_removed := nofun
  osec_shndx := nofun
  frag_shndx := nofun

theorem passesAgree_exampleReloc (isFirst : Bool) :
    PassesAgree (exampleReloc isFirst).toContext where
  objs := fun h => absurd h Bool.false_ne_true
  dsos := fun h => absurd h Bool.false_ne_true
  sections := by cases isFirst <;> decide

end Mold.Elf.Symtab
