import Mold.Elf.SymtabPasses
import Mold.Lib.KeyedList

/-!
# Partition of the symbol table

If the two passes take the same symbols, every slot is written once and every byte of
the names too.  They take the same symbols if and only if the symbols of
`--retain-symbols-file` are kept by the other conditions.
-/

namespace Mold.Elf.Symtab

open Lib

variable {ι : Type*}

/-! ## Specification -/

inductive SectionRef where
  | undef
  | abs
  | common
  | section (n : ℕ)
deriving DecidableEq, Repr

def SectionRef.ofIndex (n : ℕ) : SectionRef := if n = 0 then .undef else .section n

/-- What a reader makes of `st_shndx` and the entry of the table for large section indices.
The other reserved indices are not those of sections. -/
def readShndx (stShndx : ℕ) (entry : Option ℕ) : Option SectionRef :=
  if stShndx = SHN_XINDEX then entry.map .ofIndex
  else if stShndx = SHN_ABS then some .abs
  else if stShndx = SHN_COMMON then some .common
  else if SHN_LORESERVE ≤ stShndx then none
  else some (.ofIndex stShndx)

namespace Context

variable (ctx : Context ι)

def symSection (s : ι) : SectionRef :=
  match (ctx.sym s).copyrel with
  | some chunk => .ofIndex (ctx.shndx chunk)
  | none =>
    if ctx.isDso s || (ctx.sym s).isUndef then .undef
    else
      match (ctx.sym s).origin, (ctx.sym s).ehFrame with
      | .absolute, _ => .abs
      | .common, _ => .common
      | .osec chunk, _ | .frag _ chunk, _ | .isec true _ chunk _, _ => .ofIndex (ctx.shndx chunk)
      | .isec false _ _ (some leader), _ => .ofIndex (ctx.shndx leader)
      | .isec false _ _ none, some chunk => .ofIndex (ctx.shndx chunk)
      | .isec false _ _ none, none => .undef

def contentSection : Content ι → SectionRef
  | .null => .undef
  | .section chunk | .label chunk => .ofIndex (ctx.shndx chunk)
  | .symbol s _ => ctx.symSection s

/-- `to_output_esym` has an index for the section of the symbol: it is no common symbol with
`-r`, and it is not in `.eh_frame`. -/
def HasOutputShndx (s : ι) : Prop :=
  (ctx.sym s).copyrel = none → ctx.isDso s = false → (ctx.sym s).isUndef = false →
    match (ctx.sym s).origin with
    | .common => False
    | .isec false _ _ none => ∀ chunk, (ctx.sym s).ehFrame = some chunk → ctx.shndx chunk = 0
    | _ => True

/-- The entry of the table for large section indices at a slot. -/
def xindexAt (sizes : Sizes ι) (slot : ℕ) : Option ℕ :=
  (((ctx.symWrites sizes).filterMap SymWrite.xindex).find? fun p => p.1 = slot).map Prod.snd

end Context

/-- Every slot and every byte of the names is written once, local symbols come first,
symbols are found at their indices, and their sections can be read. -/
structure Partition (ctx : Context ι) (sizes : Sizes ι) : Prop where
  slots : ((ctx.symWrites sizes).map SymWrite.slot).Perm (List.range (ctx.nsyms sizes))
  locals : ∀ w ∈ ctx.symWrites sizes, w.isLocal = true ↔ w.slot < ctx.shInfo sizes
  strings : ((ctx.stringWrites sizes).flatMap fun p =>
    List.range' p.1 (p.2.length + 1)).Perm (List.range' 1 (ctx.strtabEnd sizes - 1))
  names : ∀ w ∈ ctx.symWrites sizes, ∀ s i, w.content = .symbol s i →
    (w.stName, (ctx.sym s).name) ∈ ctx.stringWrites sizes
  indices : ∀ w ∈ ctx.symWrites sizes, ∀ s i, w.content = .symbol s i →
    (ctx.sym s).symIdx = i → ctx.getOutputSymIdx sizes s = some w.slot
  shndx : ∀ w ∈ ctx.symWrites sizes,
    (w.stShndx.bind fun v => readShndx v (ctx.xindexAt sizes w.slot)) =
      some (ctx.contentSection w.content)

/-- What the passes need to take the same symbols, and to write section indices that can be
read. -/
structure PassesAgree (ctx : Context ι) : Prop where
  objs : ctx.args.retainSymbolsFile = true → ∀ k file, ctx.objs[k]? = some file →
    ∀ p ∈ file.globals, (ctx.sym p.1).file = some (.obj k) → ctx.retained p.1 = true →
      ctx.isAlive p.1 = true
  dsos : ctx.args.retainSymbolsFile = true → ∀ k file, ctx.dsos[k]? = some file →
    ∀ p ∈ file.globals, (ctx.sym p.1).file = some (.dso k) → ctx.retained p.1 = true →
      ((ctx.sym p.1).isImported || (ctx.sym p.1).isExported) = true
  sections : nextShndx ctx.chunks < SHN_LORESERVE

def SectionsKnown (ctx : Context ι) : Prop :=
  ∀ k file, ctx.objs[k]? = some file → ∀ x ∈ ctx.countedObject k file, ctx.HasOutputShndx x.1.1

/-! ## Slots -/

variable {ctx : Context ι}

theorem filter_assignShndx {start : ℕ} (hstart : 0 < start) (l : List Chunk) :
    (assignShndx start l).filter (fun n => n ≠ 0) =
      List.range' start (l.countP fun chunk => !chunk.isHeader) := by
  induction l generalizing start with
  | nil => rfl
  | cons chunk l ih =>
    cases hheader : chunk.isHeader with
    | true => simpa [assignShndx, hheader] using ih hstart
    | false =>
      have hne : start ≠ 0 := Nat.ne_of_gt hstart
      simpa [assignShndx, hheader, hne, List.range'_succ] using ih (Nat.succ_pos start)

theorem length_assignShndx (start : ℕ) (l : List Chunk) :
    (assignShndx start l).length = l.length := by
  induction l generalizing start with
  | nil => rfl
  | cons chunk l ih =>
    rw [assignShndx]
    split <;> rw [List.length_cons, ih, List.length_cons]

theorem sectionWrites_map_slot (ctx : Context ι) :
    ctx.sectionWrites.map SymWrite.slot =
      List.range' 1 (ctx.allChunks.countP fun chunk => !chunk.isHeader) := by
  rw [← filter_assignShndx Nat.zero_lt_one, Context.sectionWrites, List.map_map]
  have hall : (List.range ctx.allChunks.length).map ctx.shndx = assignShndx 1 ctx.allChunks := by
    rw [← length_assignShndx 1 ctx.allChunks]
    refine List.ext_getElem (by simp) fun i hi hi' => ?_
    rw [List.getElem_map, List.getElem_range, Context.shndx, List.getD_eq_getElem?_getD,
      List.getElem?_eq_getElem hi', Option.getD_some]
  rw [← hall, List.filter_map]
  rfl

theorem shndx_lt (ctx : Context ι) (chunk : ℕ) : ctx.shndx chunk < nextShndx ctx.allChunks := by
  by_cases hzero : ctx.shndx chunk = 0
  · rw [hzero]
    exact Nat.lt_of_lt_of_le Nat.zero_lt_one (Nat.le_add_right _ _)
  · have hmem : ctx.shndx chunk ∈ (assignShndx 1 ctx.allChunks).filter fun n => n ≠ 0 := by
      refine List.mem_filter.mpr ⟨?_, by simpa using hzero⟩
      rw [Context.shndx, List.getD_eq_getElem?_getD] at hzero ⊢
      cases hget : (assignShndx 1 ctx.allChunks)[chunk]? with
      | none =>
        rw [hget] at hzero
        exact absurd rfl hzero
      | some n => exact List.mem_of_getElem? hget
    rw [filter_assignShndx Nat.zero_lt_one, List.mem_range'_1] at hmem
    exact hmem.2

theorem writeLabels_slots (chunk strOff : ℕ) (markers : List Name) (slot off : ℕ)
    (labels : List Name) :
    (ctx.writeLabels chunk strOff markers slot off labels).syms.map SymWrite.slot =
      List.range' slot (labels.length * (1 + markers.length)) := by
  induction labels generalizing slot off with
  | nil => simp [Context.writeLabels]
  | cons label labels ih =>
    have hmarkers : ((tile (fun name : Name => name.length + 1) strOff markers).zipIdx
        (slot + 1)).map (SymWrite.slot ∘ fun p => ctx.labelWrite chunk p.2 p.1.2) =
        List.range' (slot + 1) markers.length := by
      have hlength : (tile (fun name : Name => name.length + 1) strOff markers).length =
          markers.length := by
        rw [← List.length_map Prod.fst, tile_map_fst]
      rw [← hlength, ← List.zipIdx_map_snd (slot + 1)]
      rfl
    have hsplit : List.range' slot ((labels.length + 1) * (1 + markers.length)) =
        slot :: (List.range' (slot + 1) markers.length ++
          List.range' (slot + (1 + markers.length)) (labels.length * (1 + markers.length))) := by
      rw [Nat.succ_mul, Nat.add_comm, ← List.range'_append_1, Nat.add_comm 1 markers.length,
        List.range'_succ]
      rfl
    rw [Context.writeLabels, List.cons_append, List.map_cons, List.map_append,
      List.map_map, hmarkers, ih, List.length_cons, hsplit]
    rfl

theorem namesSize_eq_zero {names : List Name} (h : ChunkSymbols.namesSize names = 0) :
    names = [] := by
  cases names with
  | nil => rfl
  | cons name names =>
    rw [ChunkSymbols.namesSize, List.map_cons, List.sum_cons] at h
    omega

theorem numLocalSymtab_eq_zero {args : Args} {symbols : ChunkSymbols}
    (h : symbols.strtabSize args = 0) : symbols.numLocalSymtab args = 0 := by
  rw [ChunkSymbols.strtabSize] at h
  rw [ChunkSymbols.numLocalSymtab]
  split at h
  · rw [if_pos ‹_›]
  · rw [if_neg ‹_›, namesSize_eq_zero (Nat.eq_zero_of_add_eq_zero_left h), List.length_nil,
      Nat.zero_mul]

theorem populateChunk_slots (chunk : ℕ) (symbols : ChunkSymbols) (slot strOff : ℕ) :
    (ctx.populateChunk chunk symbols slot strOff).syms.map SymWrite.slot =
      List.range' slot (symbols.numLocalSymtab ctx.args) := by
  rw [Context.populateChunk]
  split
  case isTrue hsize =>
    rw [numLocalSymtab_eq_zero hsize]
    rfl
  case isFalse hsize =>
    have homitted : ¬ symbols.isOmitted ctx.args = true := fun h =>
      hsize (by rw [ChunkSymbols.strtabSize, if_pos h])
    rw [ChunkSymbols.numLocalSymtab, if_neg homitted]
    exact writeLabels_slots _ _ _ _ _ _

theorem flatMap_tile_names {α : Type*} (name : α → Name) (off : ℕ) (l : List α) :
    ((tile (fun x => (name x).length + 1) off l).map fun p => (p.2, name p.1)).flatMap
        (fun p => List.range' p.1 (p.2.length + 1)) =
      List.range' off (l.map fun x => (name x).length + 1).sum := by
  rw [List.flatMap_map]
  exact @flatMap_tile_range' _ (fun x => (name x).length + 1) off l

theorem writeLabels_strings (chunk strOff : ℕ) (markers : List Name) (slot off : ℕ)
    (labels : List Name) :
    (ctx.writeLabels chunk strOff markers slot off labels).strings =
      (tile (fun name : Name => name.length + 1) off labels).map fun p => (p.2, p.1) := by
  induction labels generalizing slot off with
  | nil => rfl
  | cons label labels ih =>
    rw [Context.writeLabels, ih]
    rfl

theorem populateChunk_strings (chunk : ℕ) (symbols : ChunkSymbols) (slot strOff : ℕ) :
    (ctx.populateChunk chunk symbols slot strOff).strings.flatMap
        (fun p => List.range' p.1 (p.2.length + 1)) =
      List.range' strOff (symbols.strtabSize ctx.args) := by
  rw [Context.populateChunk]
  split
  case isTrue hsize =>
    rw [hsize]
    rfl
  case isFalse hsize =>
    have homitted : ¬ symbols.isOmitted ctx.args = true := fun h =>
      hsize (by rw [ChunkSymbols.strtabSize, if_pos h])
    have hnames := fun off names => flatMap_tile_names (fun name : Name => name) off names
    simp only [writeLabels_strings, List.flatMap_append, hnames]
    rw [ChunkSymbols.strtabSize, if_neg homitted]
    exact List.range'_append_1

theorem emitNames_bytes (off : ℕ) (l : List (Tagged ι)) :
    (emitNames ctx off l).flatMap (fun p => List.range' p.1 (p.2.length + 1)) =
      List.range' off (l.map (nameSize ctx)).sum :=
  flatMap_tile_names (fun x : Tagged ι => (ctx.sym x.1.1).name) off l

/-! ## Parts of files -/

theorem valueOf_of_mem {l : List (ℕ × ℕ)} (hnodup : (l.map Prod.fst).Nodup) {p : ℕ × ℕ}
    (hp : p ∈ l) : Context.valueOf l p.1 = p.2 := by
  rw [Context.valueOf, find?_of_nodup_map hnodup hp]
  rfl

variable {size : ℕ → ℕ} {start n k : ℕ}

theorem tile_range_nodup (size : ℕ → ℕ) (start n : ℕ) :
    ((tile size start (List.range n)).map Prod.fst).Nodup := by
  rw [tile_map_fst]
  exact List.nodup_range

theorem mem_tile_valueOf (hk : k < n) :
    (k, Context.valueOf (tile size start (List.range n)) k) ∈ tile size start (List.range n) := by
  obtain ⟨v, hv⟩ := @exists_mem_tile _ size _ _ (List.mem_range.mpr hk) start
  have heq := valueOf_of_mem (tile_range_nodup size start n) hv
  rw [heq]
  exact hv

theorem flatMap_valueOf {β : Type*} (f : ℕ → ℕ → List β) :
    (List.range n).flatMap (fun k => f k (Context.valueOf (tile size start (List.range n)) k)) =
      (tile size start (List.range n)).flatMap fun p => f p.1 p.2 := by
  have hall : (tile size start (List.range n)).flatMap (fun p => f p.1 p.2) =
      (tile size start (List.range n)).flatMap fun p =>
        f p.1 (Context.valueOf (tile size start (List.range n)) p.1) :=
    List.flatMap_congr fun p hp => by
      rw [valueOf_of_mem (tile_range_nodup size start n) hp]
  have hfst := @tile_map_fst _ size start (List.range n)
  rw [hall]
  conv_lhs => rw [← hfst]
  rw [List.flatMap_map, hfst]

theorem flatMap_valueOf_range' (size : ℕ → ℕ) (start n : ℕ) :
    (List.range n).flatMap (fun k =>
        List.range' (Context.valueOf (tile size start (List.range n)) k) (size k)) =
      List.range' start ((List.range n).map size).sum := by
  rw [flatMap_valueOf fun k v => List.range' v (size k)]
  exact flatMap_tile_range' start _

section Flags

variable [DecidableEq ι] {sizes : Sizes ι} {objOrder dsoOrder : List ℕ}

structure SizedAll (ctx : Context ι) (sizes : Sizes ι) : Prop where
  obj : ∀ k file, ctx.objs[k]? = some file → ∃ flags, sizes.obj k = Counting.countAll ctx
    { outputSymIndices := List.replicate file.symbols.length none, writeToSymtab := flags }
    (ctx.countedObject k file)
  dso : ∀ k file, ctx.dsos[k]? = some file → ∃ flags, sizes.dso k = Counting.countAll ctx
    { outputSymIndices := List.replicate file.symbols.length none, writeToSymtab := flags }
    (ctx.countedShared k file)
  flags : ∀ s, sizes.writeToSymtab s = true ↔ ctx.retained s = true ∨
    (∃ k file, ctx.objs[k]? = some file ∧ ∃ x ∈ ctx.countedObject k file, x.1.1 = s) ∨
    ∃ k file, ctx.dsos[k]? = some file ∧ ∃ x ∈ ctx.countedShared k file, x.1.1 = s

theorem sizedAll_createOutputSymtab (hobj : objOrder.Perm ctx.objIndices)
    (hdso : dsoOrder.Perm ctx.dsoIndices) :
    SizedAll ctx (ctx.createOutputSymtab objOrder dsoOrder) := by
  have h := sized_createOutputSymtab ctx objOrder dsoOrder
  have hobj' : ∀ k file, ctx.objs[k]? = some file → k ∈ objOrder := fun k file hk =>
    hobj.symm.subset (List.mem_range.mpr (List.getElem?_eq_some_iff.mp hk).1)
  have hdso' : ∀ k file, ctx.dsos[k]? = some file → k ∈ dsoOrder := fun k file hk =>
    hdso.symm.subset (List.mem_range.mpr (List.getElem?_eq_some_iff.mp hk).1)
  refine ⟨fun k file hk => h.obj k (hobj' k file hk) file hk,
    fun k file hk => h.dso k (hdso' k file hk) file hk, fun s => (h.flags s).trans ?_⟩
  refine or_congr Iff.rfl (or_congr ?_ ?_)
  · exact ⟨fun ⟨k, _, file, hk, hx⟩ => ⟨k, file, hk, hx⟩,
      fun ⟨k, file, hk, hx⟩ => ⟨k, hobj' k file hk, file, hk, hx⟩⟩
  · exact ⟨fun ⟨k, _, file, hk, hx⟩ => ⟨k, file, hk, hx⟩,
      fun ⟨k, file, hk, hx⟩ => ⟨k, hdso' k file hk, file, hk, hx⟩⟩

variable {k : ℕ} {file : InputFile ι}

omit [DecidableEq ι] in
theorem mem_countedObject {x : Tagged ι} (hx : x ∈ ctx.countedObject k file) :
    (x.1 ∈ ctx.countedLocals file ∧ x.1 ∈ file.locals ∧ x.2 = true) ∨
      (x.1 ∈ file.globals ∧ ctx.countsGlobal k x.1 = true ∧ x.2 = ctx.isLocal x.1.1) := by
  rcases List.mem_append.mp hx with hx | hx
  · obtain ⟨p, hp, rfl⟩ := List.mem_map.mp hx
    refine .inl ⟨hp, ?_, rfl⟩
    rw [Context.countedLocals] at hp
    split at hp
    · exact (List.mem_filter.mp hp).1
    · exact absurd hp List.not_mem_nil
  · obtain ⟨p, hp, rfl⟩ := List.mem_map.mp hx
    exact .inr ⟨(List.mem_filter.mp hp).1, (List.mem_filter.mp hp).2, rfl⟩

variable {p : ι × ℕ}

omit [DecidableEq ι] in
theorem file_of_countsGlobal (h : ctx.countsGlobal k p = true) :
    (ctx.sym p.1).file = some (.obj k) := by
  rw [Context.countsGlobal, Bool.and_eq_true, Bool.and_eq_true, decide_eq_true_eq] at h
  exact h.1.1

omit [DecidableEq ι] in
theorem file_of_countsShared (h : ctx.countsShared k p = true) :
    (ctx.sym p.1).file = some (.dso k) := by
  rw [Context.countsShared, Bool.and_eq_true, Bool.and_eq_true, decide_eq_true_eq] at h
  exact h.1.1

omit [DecidableEq ι] in
theorem mem_countedShared {x : Tagged ι} (hx : x ∈ ctx.countedShared k file) :
    x.1 ∈ file.globals ∧ ctx.countsShared k x.1 = true ∧ x.2 = false := by
  obtain ⟨p, hp, rfl⟩ := List.mem_map.mp hx
  exact ⟨(List.mem_filter.mp hp).1, (List.mem_filter.mp hp).2, rfl⟩

theorem SizedAll.flag_local (h : SizedAll ctx sizes)
    (hk : ctx.objs[k]? = some file) (hp : p ∈ file.locals) :
    sizes.writeToSymtab p.1 = true ↔ p ∈ ctx.countedLocals file := by
  obtain ⟨hfile, hidx, hretained, -⟩ := ctx.local_sym k file hk p hp
  rw [h.flags]
  constructor
  · rintro (hflag | ⟨j, file', hj, x, hx, hxp⟩ | ⟨j, file', hj, x, hx, hxp⟩)
    · rw [hretained] at hflag
      cases hflag
    · rcases mem_countedObject hx with ⟨hcounted, hlocal, -⟩ | ⟨hglobal, hcounts, -⟩
      · obtain ⟨hfile', hidx', -⟩ := ctx.local_sym j file' hj x.1 hlocal
        rw [hxp] at hfile' hidx'
        obtain rfl := FileRef.obj.inj (Option.some.inj (hfile.symm.trans hfile'))
        obtain rfl := Option.some.inj (hk.symm.trans hj)
        have heq : x.1 = p := Prod.ext hxp (hidx'.symm.trans hidx)
        rwa [heq] at hcounted
      · have hfile' := file_of_countsGlobal hcounts
        rw [hxp] at hfile'
        obtain rfl := FileRef.obj.inj (Option.some.inj (hfile.symm.trans hfile'))
        obtain rfl := Option.some.inj (hk.symm.trans hj)
        exact absurd hxp.symm (ctx.local_ne_global file (List.mem_of_getElem? hk) p hp x.1 hglobal)
    · have hfile' := file_of_countsShared (mem_countedShared hx).2.1
      rw [hxp, hfile] at hfile'
      cases hfile'
  · intro hcounted
    exact .inr (.inl ⟨k, file, hk, (p, true),
      List.mem_append_left _ (List.mem_map_of_mem hcounted), rfl⟩)

theorem SizedAll.flag_global (h : SizedAll ctx sizes)
    (hk : ctx.objs[k]? = some file) (hp : p ∈ file.globals)
    (hfile : (ctx.sym p.1).file = some (.obj k)) :
    sizes.writeToSymtab p.1 = true ↔ ctx.retained p.1 = true ∨ ctx.countsGlobal k p = true := by
  rw [h.flags]
  refine or_congr Iff.rfl ⟨?_, ?_⟩
  · rintro (⟨j, file', hj, x, hx, hxp⟩ | ⟨j, file', hj, x, hx, hxp⟩)
    · rcases mem_countedObject hx with ⟨-, hlocal, -⟩ | ⟨hglobal, hcounts, -⟩
      · obtain ⟨hfile', -⟩ := ctx.local_sym j file' hj x.1 hlocal
        rw [hxp] at hfile'
        obtain rfl := FileRef.obj.inj (Option.some.inj (hfile.symm.trans hfile'))
        obtain rfl := Option.some.inj (hk.symm.trans hj)
        exact absurd hxp (ctx.local_ne_global file (List.mem_of_getElem? hk) x.1 hlocal p hp)
      · have hfile' := file_of_countsGlobal hcounts
        rw [hxp] at hfile'
        obtain rfl := FileRef.obj.inj (Option.some.inj (hfile.symm.trans hfile'))
        rw [Context.countsGlobal, hxp] at hcounts
        exact hcounts
    · have hfile' := file_of_countsShared (mem_countedShared hx).2.1
      rw [hxp, hfile] at hfile'
      cases hfile'
  · intro hcounts
    exact .inl ⟨k, file, hk, (p, ctx.isLocal p.1), List.mem_append_right _
      (List.mem_map_of_mem (List.mem_filter.mpr ⟨hp, hcounts⟩)), rfl⟩

theorem SizedAll.flag_shared (h : SizedAll ctx sizes)
    (hk : ctx.dsos[k]? = some file) (hp : p ∈ file.globals)
    (hfile : (ctx.sym p.1).file = some (.dso k)) :
    sizes.writeToSymtab p.1 = true ↔ ctx.retained p.1 = true ∨ ctx.countsShared k p = true := by
  rw [h.flags]
  refine or_congr Iff.rfl ⟨?_, ?_⟩
  · rintro (⟨j, file', hj, x, hx, hxp⟩ | ⟨j, file', hj, x, hx, hxp⟩)
    · have hfile' : (ctx.sym x.1.1).file = some (.obj j) := by
        rcases mem_countedObject hx with ⟨-, hlocal, -⟩ | ⟨-, hcounts, -⟩
        · exact (ctx.local_sym j file' hj x.1 hlocal).1
        · exact file_of_countsGlobal hcounts
      rw [hxp, hfile] at hfile'
      cases hfile'
    · obtain ⟨-, hcounts, -⟩ := mem_countedShared hx
      have hfile' := file_of_countsShared hcounts
      rw [hxp] at hfile'
      obtain rfl := FileRef.dso.inj (Option.some.inj (hfile.symm.trans hfile'))
      rw [Context.countsShared, hxp] at hcounts
      exact hcounts
  · intro hcounts
    exact .inr ⟨k, file, hk, (p, false),
      List.mem_map_of_mem (List.mem_filter.mpr ⟨hp, hcounts⟩), rfl⟩

def Context.writesGlobal (ctx : Context ι) (k : ℕ) (p : ι × ℕ) : Bool :=
  (ctx.sym p.1).file = some (.obj k) && (ctx.retained p.1 || ctx.countsGlobal k p)

def Context.writesShared (ctx : Context ι) (k : ℕ) (p : ι × ℕ) : Bool :=
  (ctx.sym p.1).file = some (.dso k) && (ctx.retained p.1 || ctx.countsShared k p)

theorem SizedAll.writtenObject_eq (h : SizedAll ctx sizes) (hk : ctx.objs[k]? = some file) :
    ctx.writtenObject sizes.writeToSymtab k file =
      (ctx.countedLocals file).map (fun p => (p, true)) ++
        (file.globals.filter (ctx.writesGlobal k)).map fun p => (p, ctx.isLocal p.1) := by
  have hlocals : file.locals.filter (fun p => sizes.writeToSymtab p.1) =
      ctx.countedLocals file := by
    have hflag := fun p hp => h.flag_local hk (p := p) hp
    rw [Context.countedLocals] at hflag ⊢
    split at hflag
    · rw [if_pos ‹_›]
      refine List.filter_congr fun p hp => ?_
      rw [Bool.eq_iff_iff, hflag p hp, List.mem_filter, and_iff_right hp]
    · rw [if_neg ‹_›]
      refine List.filter_eq_nil_iff.mpr fun p hp => ?_
      rw [hflag p hp]
      exact List.not_mem_nil
  have hglobals : file.globals.filter (fun p =>
      (ctx.sym p.1).file = some (.obj k) && sizes.writeToSymtab p.1) =
      file.globals.filter (ctx.writesGlobal k) := by
    refine List.filter_congr fun p hp => ?_
    rw [Context.writesGlobal]
    by_cases hfile : (ctx.sym p.1).file = some (.obj k)
    · rw [decide_eq_true hfile, Bool.true_and, Bool.true_and, Bool.eq_iff_iff,
        h.flag_global hk hp hfile, Bool.or_eq_true]
    · rw [decide_eq_false hfile, Bool.false_and, Bool.false_and]
  rw [Context.writtenObject, hlocals, hglobals]

theorem SizedAll.writtenShared_eq (h : SizedAll ctx sizes) (hk : ctx.dsos[k]? = some file) :
    ctx.writtenShared sizes.writeToSymtab k file =
      file.globals.zipIdx.filter fun p => ctx.writesShared k p.1 := by
  refine List.filter_congr fun p hp => ?_
  have hmem : p.1 ∈ file.globals := by
    have hfst := List.mem_map_of_mem (f := Prod.fst) hp
    rwa [List.zipIdx_map_fst] at hfst
  rw [Context.writesShared]
  by_cases hfile : (ctx.sym p.1.1).file = some (.dso k)
  · rw [decide_eq_true hfile, Bool.true_and, Bool.true_and, Bool.eq_iff_iff,
      h.flag_shared hk hmem hfile, Bool.or_eq_true]
  · rw [decide_eq_false hfile, Bool.false_and, Bool.false_and]

end Flags

end Mold.Elf.Symtab
