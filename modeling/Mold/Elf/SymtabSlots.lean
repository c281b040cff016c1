import Mold.Elf.SymtabPartition
import Mathlib.Algebra.Order.BigOperators.Group.List

/-!
# Slots of the two passes

The slots that are written are the parts of the files, one behind the other.  As a file
never writes less than it has counted, the table is filled only if every file writes
what it has counted.
-/

namespace Mold.Elf.Symtab

open Lib

variable {ι : Type*} {ctx : Context ι} {sizes : Sizes ι}

/-! ## Parts -/

def Context.chunkCount (ctx : Context ι) : ℕ :=
  (ctx.allChunks.map fun chunk => chunk.symbols.numLocalSymtab ctx.args).sum

def Context.objectPart (ctx : Context ι) (sizes : Sizes ι) (p : InputFile ι × ℕ) : Writes ι :=
  ctx.populateObject sizes.writeToSymtab p.2 p.1 (Context.valueOf (ctx.localSlots sizes) p.2)
    (Context.valueOf (ctx.globalSlots sizes) p.2)
    (Context.valueOf (ctx.objStrings sizes) p.2)

def Context.sharedPart (ctx : Context ι) (sizes : Sizes ι) (p : InputFile ι × ℕ) : Writes ι :=
  ctx.populateShared sizes.writeToSymtab p.2 p.1 (Context.valueOf (ctx.sharedSlots sizes) p.2)
    (Context.valueOf (ctx.dsoStrings sizes) p.2)

def Context.chunkParts (ctx : Context ι) : List (Writes ι) :=
  (ctx.chunkSlots.zip ctx.chunkStrings).zipIdx.map fun p =>
    ctx.populateChunk p.2 p.1.1.1.symbols p.1.1.2 p.1.2.2

theorem parts_eq (ctx : Context ι) (sizes : Sizes ι) :
    ctx.parts sizes = { syms := Context.nullWrite :: ctx.sectionWrites } ::
      ctx.chunkParts ++ ctx.objs.zipIdx.map (ctx.objectPart sizes) ++
      ctx.dsos.zipIdx.map (ctx.sharedPart sizes) := rfl

theorem symWrites_eq (ctx : Context ι) (sizes : Sizes ι) :
    ctx.symWrites sizes = (Context.nullWrite :: ctx.sectionWrites) ++
      ctx.chunkParts.flatMap Writes.syms ++
      ctx.objs.zipIdx.flatMap (fun p => (ctx.objectPart sizes p).syms) ++
      ctx.dsos.zipIdx.flatMap fun p => (ctx.sharedPart sizes p).syms := by
  rw [Context.symWrites, parts_eq, List.flatMap_append, List.flatMap_append,
    List.flatMap_cons, List.flatMap_map, List.flatMap_map]

theorem stringWrites_eq (ctx : Context ι) (sizes : Sizes ι) :
    ctx.stringWrites sizes = ctx.chunkParts.flatMap Writes.strings ++
      ctx.objs.zipIdx.flatMap (fun p => (ctx.objectPart sizes p).strings) ++
      ctx.dsos.zipIdx.flatMap fun p => (ctx.sharedPart sizes p).strings := by
  rw [Context.stringWrites, parts_eq, List.flatMap_append, List.flatMap_append,
    List.flatMap_cons, List.flatMap_map, List.flatMap_map, List.nil_append]

variable {α : Type*}

theorem length_tile (size : α → ℕ) (start : ℕ) (l : List α) :
    (tile size start l).length = l.length := by
  rw [← List.length_map Prod.fst, tile_map_fst]

theorem length_chunkSlots (ctx : Context ι) : ctx.chunkSlots.length = ctx.chunkStrings.length := by
  rw [Context.chunkSlots, Context.chunkStrings, length_tile, length_tile]

theorem chunkParts_slots (ctx : Context ι) :
    (ctx.chunkParts.flatMap Writes.syms).map SymWrite.slot =
      List.range' ctx.chunkStart ctx.chunkCount := by
  have hparts : ((ctx.chunkSlots.zip ctx.chunkStrings).zipIdx.map Prod.fst).map Prod.fst =
      ctx.chunkSlots := by
    rw [List.zipIdx_map_fst, List.map_fst_zip (Nat.le_of_eq (length_chunkSlots ctx))]
  rw [Context.chunkParts, List.flatMap_map, List.map_flatMap]
  simp only [populateChunk_slots]
  refine Eq.trans ?_ (@flatMap_tile_range' _
    (fun chunk : Chunk => chunk.symbols.numLocalSymtab ctx.args) ctx.chunkStart ctx.allChunks)
  rw [← Context.chunkSlots, ← hparts, List.flatMap_map, List.flatMap_map, hparts]

variable {l : List α}

theorem fst_eq_of_mem_zip_tile {size size' : α → ℕ} {start start' : ℕ}
    {p : (α × ℕ) × α × ℕ}
    (hp : p ∈ (tile size start l).zip (tile size' start' l)) : p.1.1 = p.2.1 := by
  induction l generalizing start start' with
  | nil => exact absurd hp List.not_mem_nil
  | cons x l ih =>
    rcases List.mem_cons.mp hp with rfl | hp
    · rfl
    · exact ih hp

theorem chunkParts_strings (ctx : Context ι) :
    (ctx.chunkParts.flatMap Writes.strings).flatMap (fun p => List.range' p.1 (p.2.length + 1)) =
      List.range' 1 (ctx.allChunks.map fun chunk => chunk.symbols.strtabSize ctx.args).sum := by
  have hparts : ((ctx.chunkSlots.zip ctx.chunkStrings).zipIdx.map Prod.fst).map Prod.snd =
      ctx.chunkStrings := by
    rw [List.zipIdx_map_fst, List.map_snd_zip (Nat.le_of_eq (length_chunkSlots ctx).symm)]
  have hbytes : ∀ p ∈ (ctx.chunkSlots.zip ctx.chunkStrings).zipIdx,
      (ctx.populateChunk p.2 p.1.1.1.symbols p.1.1.2 p.1.2.2).strings.flatMap
        (fun p => List.range' p.1 (p.2.length + 1)) =
      List.range' p.1.2.2 (p.1.2.1.symbols.strtabSize ctx.args) := by
    intro p hp
    have hmem := List.mem_map_of_mem (f := Prod.fst) hp
    rw [List.zipIdx_map_fst] at hmem
    rw [populateChunk_strings, fst_eq_of_mem_zip_tile hmem]
  rw [Context.chunkParts, List.flatMap_map, List.flatMap_assoc, List.flatMap_congr hbytes]
  refine Eq.trans ?_ (@flatMap_tile_range' _
    (fun chunk : Chunk => chunk.symbols.strtabSize ctx.args) 1 ctx.allChunks)
  rw [← Context.chunkStrings, ← hparts, List.flatMap_map, List.flatMap_map, hparts]

section Slots

theorem objectPart_slots (ctx : Context ι) (sizes : Sizes ι) (p : InputFile ι × ℕ) :
    (ctx.objectPart sizes p).syms.map SymWrite.slot = number Prod.snd
      (nextOf (Context.valueOf (ctx.localSlots sizes) p.2)
        (Context.valueOf (ctx.globalSlots sizes) p.2))
      (ctx.writtenObject sizes.writeToSymtab p.2 p.1) := by
  rw [Context.objectPart, (populateObject_eq _ _ _ _ _ _).1, emit_map_slot]

theorem sharedPart_slots (ctx : Context ι) (sizes : Sizes ι) (p : InputFile ι × ℕ) :
    (ctx.sharedPart sizes p).syms.map SymWrite.slot =
      List.range' (Context.valueOf (ctx.sharedSlots sizes) p.2)
        (ctx.writtenShared sizes.writeToSymtab p.2 p.1).length := by
  rw [Context.sharedPart, (populateShared_eq _ _ _ _ _).1, emitShared_map_slot]

/-- The symbols before those of the object files. -/
def Context.frontWrites (ctx : Context ι) : List (SymWrite ι) :=
  (Context.nullWrite :: ctx.sectionWrites) ++ ctx.chunkParts.flatMap Writes.syms

theorem frontWrites_slots (ctx : Context ι) :
    ctx.frontWrites.map SymWrite.slot = List.range' 0 ctx.localStart := by
  have hnull : 0 :: List.range' 1 (ctx.allChunks.countP fun chunk => !chunk.isHeader) =
      List.range' 0 ctx.chunkStart := by
    rw [Context.chunkStart, Nat.add_comm, List.range'_succ]
  have happend := @List.range'_append_1 0 ctx.chunkStart ctx.chunkCount
  rw [Nat.zero_add] at happend
  rw [Context.frontWrites, List.map_append, List.map_cons, chunkParts_slots,
    sectionWrites_map_slot]
  refine Eq.trans ?_ happend
  rw [← hnull]
  rfl

theorem symWrites_slots (ctx : Context ι) (sizes : Sizes ι) :
    (ctx.symWrites sizes).map SymWrite.slot = List.range' 0 ctx.localStart ++
      ctx.objs.zipIdx.flatMap (fun p => (ctx.objectPart sizes p).syms.map SymWrite.slot) ++
      ctx.dsos.zipIdx.flatMap
        fun p => (ctx.sharedPart sizes p).syms.map SymWrite.slot := by
  rw [symWrites_eq, List.map_append, List.map_append, List.map_flatMap, List.map_flatMap,
    ← frontWrites_slots]
  rfl

theorem mem_symWrites {w : SymWrite ι} : w ∈ ctx.symWrites sizes ↔ w ∈ ctx.frontWrites ∨
    (∃ k file, ctx.objs[k]? = some file ∧ w ∈ (ctx.objectPart sizes (file, k)).syms) ∨
    ∃ k file, ctx.dsos[k]? = some file ∧ w ∈ (ctx.sharedPart sizes (file, k)).syms := by
  have hfiles : ∀ (l : List (InputFile ι)) (f : InputFile ι × ℕ → List (SymWrite ι)),
      w ∈ l.zipIdx.flatMap f ↔ ∃ k file, l[k]? = some file ∧ w ∈ f (file, k) := by
    intro l f
    rw [List.mem_flatMap]
    constructor
    · rintro ⟨⟨file, k⟩, hp, hw⟩
      exact ⟨k, file, List.mem_zipIdx_iff_getElem?.mp hp, hw⟩
    · rintro ⟨k, file, hk, hw⟩
      exact ⟨(file, k), List.mem_zipIdx_iff_getElem?.mpr hk, hw⟩
  rw [symWrites_eq, List.mem_append, List.mem_append, hfiles, hfiles, or_assoc]
  rfl

theorem mem_frontWrites {w : SymWrite ι} (hw : w ∈ ctx.frontWrites) :
    w.isLocal = true ∧ (∀ s i, w.content ≠ .symbol s i) ∧
      ∃ n < nextShndx ctx.allChunks, w.stShndx = some (Context.toU16 n) ∧
        ctx.contentSection w.content = .ofIndex n := by
  have hlabel : ∀ chunk slot stName, w = ctx.labelWrite chunk slot stName →
      w.isLocal = true ∧ (∀ s i, w.content ≠ .symbol s i) ∧
        ∃ n < nextShndx ctx.allChunks, w.stShndx = some (Context.toU16 n) ∧
          ctx.contentSection w.content = .ofIndex n := by
    rintro chunk slot stName rfl
    exact ⟨rfl, nofun, _, shndx_lt ctx chunk, rfl, rfl⟩
  have hlabels : ∀ chunk strOff markers labels slot off,
      w ∈ (ctx.writeLabels chunk strOff markers slot off labels).syms →
      ∃ slot stName, w = ctx.labelWrite chunk slot stName := by
    intro chunk strOff markers labels
    induction labels with
    | nil => exact fun slot off hw => absurd hw List.not_mem_nil
    | cons label labels ih =>
      intro slot off hw
      rcases List.mem_cons.mp hw with hw | hw
      · exact ⟨slot, off, hw⟩
      · rcases List.mem_append.mp hw with hw | hw
        · obtain ⟨p, -, hp⟩ := List.mem_map.mp hw
          exact ⟨p.2, p.1.2, hp.symm⟩
        · exact ih _ _ hw
  rcases List.mem_append.mp hw with hw | hw
  · rcases List.mem_cons.mp hw with rfl | hw
    · exact ⟨rfl, nofun, 0, Nat.lt_of_lt_of_le Nat.zero_lt_one (Nat.le_add_right _ _), rfl, rfl⟩
    · obtain ⟨chunk, -, rfl⟩ := List.mem_map.mp hw
      exact ⟨rfl, nofun, _, shndx_lt ctx chunk, rfl, rfl⟩
  · obtain ⟨writes, hwrites, hw⟩ := List.mem_flatMap.mp hw
    obtain ⟨p, -, rfl⟩ := List.mem_map.mp hwrites
    rw [Context.populateChunk] at hw
    split at hw
    · exact absurd hw List.not_mem_nil
    · obtain ⟨slot, stName, heq⟩ := hlabels _ _ _ _ _ _ hw
      exact hlabel _ _ _ heq

theorem map_range_length {α β : Type*} (l : List α) (f : ℕ → β) :
    (List.range l.length).map f = l.zipIdx.map fun p => f p.2 := by
  rw [List.range_eq_range', ← List.zipIdx_map_snd 0 l, List.map_map]
  rfl

theorem classSize_snd (l : List (Tagged ι)) :
    classSize Prod.snd l true + classSize Prod.snd l false = l.length := by
  induction l with
  | nil => rfl
  | cons x l ih =>
    rw [classSize_cons, classSize_cons, List.length_cons, ← ih]
    cases x.2 <;> simp <;> omega

variable [DecidableEq ι]

theorem SizedAll.obj_sizes (h : SizedAll ctx sizes) {k : ℕ} {file : InputFile ι}
    (hk : ctx.objs[k]? = some file) :
    (sizes.obj k).strtabSize = ((ctx.countedObject k file).map (nameSize ctx)).sum ∧
    (sizes.obj k).numLocalSymtab = classSize Prod.snd (ctx.countedObject k file) true ∧
    (sizes.obj k).numGlobalSymtab = classSize Prod.snd (ctx.countedObject k file) false := by
  obtain ⟨flags, heq⟩ := h.obj k file hk
  obtain ⟨hsize, hlocal, hglobal, -⟩ := @countAll_sizes _ ctx _
    { outputSymIndices := List.replicate file.symbols.length none, writeToSymtab := flags }
    (ctx.countedObject k file)
  rw [heq, hsize, hlocal, hglobal]
  simp

theorem SizedAll.dso_sizes (h : SizedAll ctx sizes) {k : ℕ} {file : InputFile ι}
    (hk : ctx.dsos[k]? = some file) :
    (sizes.dso k).strtabSize = ((ctx.countedShared k file).map (nameSize ctx)).sum ∧
    (sizes.dso k).numGlobalSymtab = (ctx.countedShared k file).length := by
  obtain ⟨flags, heq⟩ := h.dso k file hk
  obtain ⟨hsize, -, hglobal, -⟩ := @countAll_sizes _ ctx _
    { outputSymIndices := List.replicate file.symbols.length none, writeToSymtab := flags }
    (ctx.countedShared k file)
  have hclass : classSize Prod.snd (ctx.countedShared k file) false =
      (ctx.countedShared k file).length :=
    List.countP_eq_length.mpr fun x hx => decide_eq_true (mem_countedShared hx).2.2
  rw [heq, hsize, hglobal, hclass]
  simp

theorem SizedAll.nsyms_eq (h : SizedAll ctx sizes) : ctx.nsyms sizes = ctx.localStart +
    (ctx.objs.zipIdx.map fun p => (ctx.countedObject p.2 p.1).length).sum +
    (ctx.dsos.zipIdx.map fun p => (ctx.countedShared p.2 p.1).length).sum := by
  have hobjs : (ctx.objs.zipIdx.map fun p => (ctx.countedObject p.2 p.1).length).sum =
      (ctx.objIndices.map fun k => (sizes.obj k).numLocalSymtab).sum +
        (ctx.objIndices.map fun k => (sizes.obj k).numGlobalSymtab).sum := by
    rw [Context.objIndices, map_range_length, map_range_length, ← List.sum_map_add]
    refine congrArg List.sum (List.map_congr_left fun p hp => ?_)
    obtain ⟨-, hlocal, hglobal⟩ := h.obj_sizes (List.mem_zipIdx_iff_getElem?.mp hp)
    rw [hlocal, hglobal, classSize_snd]
  have hdsos : (ctx.dsos.zipIdx.map fun p => (ctx.countedShared p.2 p.1).length).sum =
      (ctx.dsoIndices.map fun k => (sizes.dso k).numGlobalSymtab).sum := by
    rw [Context.dsoIndices, map_range_length]
    refine congrArg List.sum (List.map_congr_left fun p hp => ?_)
    rw [(h.dso_sizes (List.mem_zipIdx_iff_getElem?.mp hp)).2]
  rw [hobjs, hdsos, Context.nsyms, tileEnd, Context.sharedStart, tileEnd,
    Context.globalStart, tileEnd, ← Nat.add_assoc]

omit [DecidableEq ι] in
theorem length_symWrites (ctx : Context ι) (sizes : Sizes ι) :
    (ctx.symWrites sizes).length = ctx.localStart +
      (ctx.objs.zipIdx.map fun p =>
        (ctx.writtenObject sizes.writeToSymtab p.2 p.1).length).sum +
      (ctx.dsos.zipIdx.map fun p =>
        (ctx.writtenShared sizes.writeToSymtab p.2 p.1).length).sum := by
  rw [← List.length_map SymWrite.slot, symWrites_slots, List.length_append,
    List.length_append, List.length_range', List.length_flatMap, List.length_flatMap]
  simp only [objectPart_slots, sharedPart_slots, length_number, List.length_range']

end Slots

/-! ## Symbols of both passes -/

structure WritesCounted (ctx : Context ι) : Prop where
  objs : ∀ k file, ctx.objs[k]? = some file → ∀ p ∈ file.globals,
    ctx.writesGlobal k p = true → ctx.countsGlobal k p = true
  dsos : ∀ k file, ctx.dsos[k]? = some file → ∀ p ∈ file.globals,
    ctx.writesShared k p = true → ctx.countsShared k p = true

variable {k : ℕ}

theorem writesGlobal_of_counts {p : ι × ℕ} (h : ctx.countsGlobal k p = true) :
    ctx.writesGlobal k p = true := by
  rw [Context.writesGlobal, file_of_countsGlobal h, h]
  simp

theorem writesShared_of_counts {p : ι × ℕ} (h : ctx.countsShared k p = true) :
    ctx.writesShared k p = true := by
  rw [Context.writesShared, file_of_countsShared h, h]
  simp

theorem filter_eq_of_length {p q : α → Bool} (himp : ∀ x, p x = true → q x = true)
    (hlength : (l.filter q).length ≤ (l.filter p).length) : l.filter p = l.filter q :=
  (List.monotone_filter_right l himp).eq_of_length_le hlength

theorem length_filter_le {p q : α → Bool} (l : List α)
    (himp : ∀ x, p x = true → q x = true) : (l.filter p).length ≤ (l.filter q).length :=
  (List.monotone_filter_right l himp).length_le

theorem map_fst_filter_zipIdx (q : α → Bool) (l : List α) :
    (l.zipIdx.filter fun p => q p.1).map Prod.fst = l.filter q := by
  conv_rhs => rw [← List.zipIdx_map_fst 0 l, List.filter_map]
  rfl

theorem eq_of_sum_le {f g : α → ℕ} (hle : ∀ x ∈ l, f x ≤ g x)
    (hsum : (l.map g).sum ≤ (l.map f).sum) : ∀ x ∈ l, g x ≤ f x := by
  intro x hx
  by_contra hlt
  exact Nat.not_lt.mpr hsum (List.sum_lt_sum f g hle ⟨x, hx, Nat.not_le.mp hlt⟩)

theorem length_countedObject (ctx : Context ι) (p : InputFile ι × ℕ) :
    (ctx.countedObject p.2 p.1).length = (ctx.countedLocals p.1).length +
      (p.1.globals.filter (ctx.countsGlobal p.2)).length := by
  rw [Context.countedObject, List.length_append, List.length_map, List.length_map]

theorem length_countedShared (ctx : Context ι) (p : InputFile ι × ℕ) :
    (ctx.countedShared p.2 p.1).length = (p.1.globals.filter (ctx.countsShared p.2)).length := by
  rw [Context.countedShared, List.length_map]

section Same

variable [DecidableEq ι] {p : InputFile ι × ℕ}

theorem SizedAll.length_writtenObject (h : SizedAll ctx sizes) (hp : p ∈ ctx.objs.zipIdx) :
    (ctx.writtenObject sizes.writeToSymtab p.2 p.1).length =
      (ctx.countedLocals p.1).length + (p.1.globals.filter (ctx.writesGlobal p.2)).length := by
  rw [h.writtenObject_eq (List.mem_zipIdx_iff_getElem?.mp hp), List.length_append,
    List.length_map, List.length_map]

theorem SizedAll.length_writtenShared (h : SizedAll ctx sizes) (hp : p ∈ ctx.dsos.zipIdx) :
    (ctx.writtenShared sizes.writeToSymtab p.2 p.1).length =
      (p.1.globals.filter (ctx.writesShared p.2)).length := by
  rw [h.writtenShared_eq (List.mem_zipIdx_iff_getElem?.mp hp), ← List.length_map Prod.fst]
  exact congrArg List.length (map_fst_filter_zipIdx (ctx.writesShared p.2) p.1.globals)

theorem SizedAll.writesCounted (h : SizedAll ctx sizes)
    (hlength : (ctx.symWrites sizes).length = ctx.nsyms sizes) : WritesCounted ctx := by
  have hobjs : ∀ p ∈ ctx.objs.zipIdx, (ctx.countedObject p.2 p.1).length ≤
      (ctx.writtenObject sizes.writeToSymtab p.2 p.1).length := by
    intro p hp
    rw [h.length_writtenObject hp, length_countedObject]
    exact Nat.add_le_add_left (length_filter_le _ fun _ hx => writesGlobal_of_counts hx) _
  have hdsos : ∀ p ∈ ctx.dsos.zipIdx, (ctx.countedShared p.2 p.1).length ≤
      (ctx.writtenShared sizes.writeToSymtab p.2 p.1).length := by
    intro p hp
    rw [h.length_writtenShared hp, length_countedShared]
    exact length_filter_le _ fun _ hx => writesShared_of_counts hx
  have hobjsSum := List.sum_le_sum hobjs
  have hdsosSum := List.sum_le_sum hdsos
  rw [h.nsyms_eq, length_symWrites] at hlength
  refine ⟨fun k file hk p hp hwrites => ?_, fun k file hk p hp hwrites => ?_⟩
  · have hmem : (file, k) ∈ ctx.objs.zipIdx := List.mem_zipIdx_iff_getElem?.mpr hk
    have hle := eq_of_sum_le hobjs (by omega) (file, k) hmem
    rw [h.length_writtenObject hmem, length_countedObject] at hle
    have hsame := filter_eq_of_length (fun _ hx => writesGlobal_of_counts hx)
      (Nat.le_of_add_le_add_left hle)
    have hfilter : p ∈ file.globals.filter (ctx.writesGlobal k) :=
      List.mem_filter.mpr ⟨hp, hwrites⟩
    rw [← hsame] at hfilter
    exact (List.mem_filter.mp hfilter).2
  · have hmem : (file, k) ∈ ctx.dsos.zipIdx := List.mem_zipIdx_iff_getElem?.mpr hk
    have hle := eq_of_sum_le hdsos (by omega) (file, k) hmem
    rw [h.length_writtenShared hmem, length_countedShared] at hle
    have hsame := filter_eq_of_length (fun _ hx => writesShared_of_counts hx) hle
    have hfilter : p ∈ file.globals.filter (ctx.writesShared k) :=
      List.mem_filter.mpr ⟨hp, hwrites⟩
    rw [← hsame] at hfilter
    exact (List.mem_filter.mp hfilter).2

theorem SizedAll.writtenObject_eq_counted (h : SizedAll ctx sizes)
    (hsame : WritesCounted ctx) {file : InputFile ι}
    (hk : ctx.objs[k]? = some file) :
    ctx.writtenObject sizes.writeToSymtab k file = ctx.countedObject k file := by
  have hglobals : file.globals.filter (ctx.writesGlobal k) =
      file.globals.filter (ctx.countsGlobal k) :=
    List.filter_congr fun p hp =>
      Bool.eq_iff_iff.mpr ⟨hsame.objs k file hk p hp, writesGlobal_of_counts⟩
  rw [h.writtenObject_eq hk, hglobals, Context.countedObject]

theorem SizedAll.writtenShared_eq_counted (h : SizedAll ctx sizes)
    (hsame : WritesCounted ctx) {file : InputFile ι}
    (hk : ctx.dsos[k]? = some file) :
    ctx.writtenShared sizes.writeToSymtab k file =
      file.globals.zipIdx.filter fun p => ctx.countsShared k p.1 := by
  rw [h.writtenShared_eq hk]
  refine List.filter_congr fun p hp => ?_
  have hmem := List.mem_map_of_mem (f := Prod.fst) hp
  rw [List.zipIdx_map_fst] at hmem
  exact Bool.eq_iff_iff.mpr ⟨hsame.dsos k file hk p.1 hmem, writesShared_of_counts⟩

/-! ## Partition -/

omit [DecidableEq ι] in
theorem flatMap_zipIdx_valueOf (l : List α) (size : ℕ → ℕ) (start : ℕ) :
    l.zipIdx.flatMap (fun p => List.range'
        (Context.valueOf (tile size start (List.range l.length)) p.2) (size p.2)) =
      List.range' start ((List.range l.length).map size).sum := by
  rw [← flatMap_valueOf_range' size start l.length, ← List.flatMap_map Prod.snd
    fun k => List.range' (Context.valueOf (tile size start (List.range l.length)) k) (size k),
    List.zipIdx_map_snd, ← List.range_eq_range']

theorem SizedAll.objectParts_slots (h : SizedAll ctx sizes) (hsame : WritesCounted ctx) :
    (ctx.objs.zipIdx.flatMap fun p => (ctx.objectPart sizes p).syms.map SymWrite.slot).Perm
      (List.range' ctx.localStart (ctx.sharedStart sizes - ctx.localStart)) := by
  have hpart : ∀ p ∈ ctx.objs.zipIdx,
      ((ctx.objectPart sizes p).syms.map SymWrite.slot).Perm
        (List.range' (Context.valueOf (ctx.localSlots sizes) p.2) (sizes.obj p.2).numLocalSymtab ++
        List.range' (Context.valueOf (ctx.globalSlots sizes) p.2)
          (sizes.obj p.2).numGlobalSymtab) := by
    intro p hp
    have hk := List.mem_zipIdx_iff_getElem?.mp hp
    obtain ⟨-, hlocal, hglobal⟩ := h.obj_sizes hk
    rw [objectPart_slots, h.writtenObject_eq_counted hsame hk, hlocal, hglobal]
    have hperm := @number_perm (Tagged ι) Bool _ Prod.snd
      (nextOf (Context.valueOf (ctx.localSlots sizes) p.2)
        (Context.valueOf (ctx.globalSlots sizes) p.2))
      (ctx.countedObject p.2 p.1) [true, false] (by decide) fun x _ => by cases x.2 <;> simp
    simpa [nextOf] using hperm
  have hlocals := flatMap_zipIdx_valueOf ctx.objs (fun k => (sizes.obj k).numLocalSymtab)
    ctx.localStart
  have hglobals := flatMap_zipIdx_valueOf ctx.objs
    (fun k => (sizes.obj k).numGlobalSymtab) (ctx.globalStart sizes)
  refine (List.Perm.flatMap_left _ hpart).trans
    ((List.flatMap_append_perm _ _ _).symm.trans (List.Perm.of_eq ?_))
  rw [Context.localSlots, Context.objIndices, hlocals, Context.globalSlots,
    Context.objIndices, hglobals, Context.sharedStart, tileEnd, Context.globalStart, tileEnd,
    Nat.add_assoc, Nat.add_sub_cancel_left, Context.objIndices, ← List.range'_append_1]

theorem SizedAll.sharedParts_slots (h : SizedAll ctx sizes) (hsame : WritesCounted ctx) :
    (ctx.dsos.zipIdx.flatMap fun p => (ctx.sharedPart sizes p).syms.map SymWrite.slot) =
      List.range' (ctx.sharedStart sizes) (ctx.nsyms sizes - ctx.sharedStart sizes) := by
  have hpart : ∀ p ∈ ctx.dsos.zipIdx, (ctx.sharedPart sizes p).syms.map SymWrite.slot =
      List.range' (Context.valueOf (ctx.sharedSlots sizes) p.2)
        (sizes.dso p.2).numGlobalSymtab := by
    intro p hp
    have hk := List.mem_zipIdx_iff_getElem?.mp hp
    have hfilter := map_fst_filter_zipIdx (ctx.countsShared p.2) p.1.globals
    rw [sharedPart_slots, h.writtenShared_eq_counted hsame hk, (h.dso_sizes hk).2,
      length_countedShared ctx p, ← hfilter, List.length_map]
  have hshared := flatMap_zipIdx_valueOf ctx.dsos (fun k => (sizes.dso k).numGlobalSymtab)
    (ctx.sharedStart sizes)
  rw [List.flatMap_congr hpart, Context.sharedSlots, Context.dsoIndices, hshared,
    Context.nsyms, tileEnd, Nat.add_sub_cancel_left, Context.dsoIndices]

omit [DecidableEq ι] in
theorem range'_append_of_le {a b c : ℕ} (hab : a ≤ b) (hbc : b ≤ c) :
    List.range' a (b - a) ++ List.range' b (c - b) = List.range' a (c - a) := by
  have happend := @List.range'_append_1 a (b - a) (c - b)
  rwa [Nat.add_sub_cancel' hab, Nat.add_comm, Nat.sub_add_sub_cancel hbc hab] at happend

theorem SizedAll.slots_perm (h : SizedAll ctx sizes) (hsame : WritesCounted ctx) :
    ((ctx.symWrites sizes).map SymWrite.slot).Perm (List.range (ctx.nsyms sizes)) := by
  have hlocal : ctx.localStart ≤ ctx.sharedStart sizes :=
    Nat.le_trans (Nat.le_add_right _ _) (Nat.le_add_right _ _)
  have hshared : ctx.sharedStart sizes ≤ ctx.nsyms sizes := Nat.le_add_right _ _
  have happend : List.range' 0 ctx.localStart ++
      (List.range' ctx.localStart (ctx.sharedStart sizes - ctx.localStart) ++
        List.range' (ctx.sharedStart sizes) (ctx.nsyms sizes - ctx.sharedStart sizes)) =
      List.range (ctx.nsyms sizes) := by
    rw [range'_append_of_le hlocal hshared, List.range_eq_range']
    exact range'_append_of_le (Nat.zero_le _) (Nat.le_trans hlocal hshared)
  rw [symWrites_slots, h.sharedParts_slots hsame, ← happend, List.append_assoc]
  exact ((h.objectParts_slots hsame).append_right _).append_left _

theorem SizedAll.objectPart_bytes (h : SizedAll ctx sizes) (hsame : WritesCounted ctx)
    (hp : p ∈ ctx.objs.zipIdx) :
    (ctx.objectPart sizes p).strings.flatMap (fun q => List.range' q.1 (q.2.length + 1)) =
      List.range' (Context.valueOf (ctx.objStrings sizes) p.2) (sizes.obj p.2).strtabSize := by
  have hk := List.mem_zipIdx_iff_getElem?.mp hp
  rw [Context.objectPart, (populateObject_eq _ _ _ _ _ _).2, emitNames_bytes,
    h.writtenObject_eq_counted hsame hk, (h.obj_sizes hk).1]

theorem SizedAll.sharedPart_bytes (h : SizedAll ctx sizes) (hsame : WritesCounted ctx)
    (hp : p ∈ ctx.dsos.zipIdx) :
    (ctx.sharedPart sizes p).strings.flatMap (fun q => List.range' q.1 (q.2.length + 1)) =
      List.range' (Context.valueOf (ctx.dsoStrings sizes) p.2) (sizes.dso p.2).strtabSize := by
  have hk := List.mem_zipIdx_iff_getElem?.mp hp
  have hcounted : (ctx.writtenShared sizes.writeToSymtab p.2 p.1).map (fun q => (q.1, false)) =
      ctx.countedShared p.2 p.1 := by
    have hfilter := map_fst_filter_zipIdx (ctx.countsShared p.2) p.1.globals
    rw [h.writtenShared_eq_counted hsame hk, Context.countedShared, ← hfilter, List.map_map]
    rfl
  rw [Context.sharedPart, (populateShared_eq _ _ _ _ _).2, emitNames_bytes, hcounted,
    (h.dso_sizes hk).1]

theorem SizedAll.strings_perm (h : SizedAll ctx sizes) (hsame : WritesCounted ctx) :
    ((ctx.stringWrites sizes).flatMap fun p => List.range' p.1 (p.2.length + 1)).Perm
      (List.range' 1 (ctx.strtabEnd sizes - 1)) := by
  have hobjs := flatMap_zipIdx_valueOf ctx.objs (fun k => (sizes.obj k).strtabSize)
    ctx.objStringStart
  have hdsos := flatMap_zipIdx_valueOf ctx.dsos (fun k => (sizes.dso k).strtabSize)
    (ctx.dsoStringStart sizes)
  rw [stringWrites_eq, List.flatMap_append, List.flatMap_append, chunkParts_strings,
    List.flatMap_assoc, List.flatMap_congr fun p hp => h.objectPart_bytes hsame hp,
    List.flatMap_assoc, List.flatMap_congr fun p hp => h.sharedPart_bytes hsame hp,
    Context.objStrings, Context.objIndices, hobjs, Context.dsoStrings, Context.dsoIndices,
    hdsos]
  have hend : ctx.strtabEnd sizes - 1 =
      (ctx.allChunks.map fun chunk => chunk.symbols.strtabSize ctx.args).sum +
        (ctx.objIndices.map fun k => (sizes.obj k).strtabSize).sum +
        (ctx.dsoIndices.map fun k => (sizes.dso k).strtabSize).sum := by
    rw [Context.strtabEnd, tileEnd, Context.dsoStringStart, tileEnd, Context.objStringStart,
      tileEnd]
    omega
  rw [hend, Nat.add_assoc, ← List.range'_append_1, ← List.range'_append_1, List.append_assoc]
  exact List.Perm.refl _

end Same

end Mold.Elf.Symtab
