import Mold.Elf.SymtabSlots

/-!
# The two passes over the symbols

When the files write what they have counted, each symbol is at the place that its file
has noted.  Its section can be read if the indices of all sections are below the reserved
ones.  With a table for large section indices that is never so.
-/

namespace Mold.Elf.Symtab

open Lib

variable {ι : Type*} {ctx : Context ι} {sizes : Sizes ι}

theorem mem_objectPart {p : InputFile ι × ℕ} {w : SymWrite ι}
    (hp : ctx.objs[p.2]? = some p.1) (hw : w ∈ (ctx.objectPart sizes p).syms) :
    ∃ x n stName, (x, n) ∈ (ctx.writtenObject sizes.writeToSymtab p.2 p.1).zip
        (number Prod.snd
          (nextOf (Context.valueOf (ctx.localSlots sizes) p.2)
            (Context.valueOf (ctx.globalSlots sizes) p.2))
          (ctx.writtenObject sizes.writeToSymtab p.2 p.1)) ∧
      w = ctx.symbolWrite x.1 n stName n ∧
      (stName, (ctx.sym x.1.1).name) ∈ ctx.stringWrites sizes := by
  obtain ⟨hsyms, hstrings⟩ := @populateObject_eq _ ctx sizes.writeToSymtab p.2 p.1
    (Context.valueOf (ctx.localSlots sizes) p.2)
    (Context.valueOf (ctx.globalSlots sizes) p.2)
    (Context.valueOf (ctx.objStrings sizes) p.2)
  rw [Context.objectPart, hsyms] at hw
  obtain ⟨x, n, stName, hx, heq, hname⟩ := mem_emit hw
  refine ⟨x, n, stName, hx, heq, ?_⟩
  rw [stringWrites_eq, List.mem_append, List.mem_append]
  refine .inl (.inr (List.mem_flatMap.mpr ⟨p, List.mem_zipIdx_iff_getElem?.mpr hp, ?_⟩))
  rw [Context.objectPart, hstrings]
  exact hname

theorem mem_sharedPart {p : InputFile ι × ℕ} {w : SymWrite ι}
    (hp : ctx.dsos[p.2]? = some p.1) (hw : w ∈ (ctx.sharedPart sizes p).syms) :
    ∃ front x back stName, ctx.writtenShared sizes.writeToSymtab p.2 p.1 = front ++ x :: back ∧
      w = ctx.symbolWrite x.1 (Context.valueOf (ctx.sharedSlots sizes) p.2 + front.length)
        stName (Context.valueOf (ctx.sharedSlots sizes) p.2 + x.2) ∧
      (stName, (ctx.sym x.1.1).name) ∈ ctx.stringWrites sizes := by
  obtain ⟨hsyms, hstrings⟩ := @populateShared_eq _ ctx sizes.writeToSymtab p.2 p.1
    (Context.valueOf (ctx.sharedSlots sizes) p.2)
    (Context.valueOf (ctx.dsoStrings sizes) p.2)
  rw [Context.sharedPart, hsyms] at hw
  obtain ⟨front, x, back, stName, hwritten, heq, hname⟩ := mem_emitShared hw
  refine ⟨front, x, back, stName, hwritten, heq, ?_⟩
  rw [stringWrites_eq, List.mem_append]
  refine .inr (List.mem_flatMap.mpr ⟨p, List.mem_zipIdx_iff_getElem?.mpr hp, ?_⟩)
  rw [Context.sharedPart, hstrings]
  exact hname

theorem exists_mem_emitShared (base slot off : ℕ) (front : List ((ι × ℕ) × ℕ))
    (p : (ι × ℕ) × ℕ) (back : List ((ι × ℕ) × ℕ)) :
    ∃ stName, ctx.symbolWrite p.1 (slot + front.length) stName (base + p.2) ∈
      emitShared ctx base slot off (front ++ p :: back) := by
  induction front generalizing slot off with
  | nil => exact ⟨off, List.mem_cons_self⟩
  | cons q front ih =>
    obtain ⟨stName, hmem⟩ := ih (slot + 1) (off + nameSize ctx (q.1, false))
    refine ⟨stName, List.mem_cons_of_mem _ ?_⟩
    rwa [List.length_cons, ← Nat.add_assoc, Nat.add_right_comm]

theorem exists_of_filter_zipIdx {α : Type*} {q : α → Bool} {l : List α}
    {front back : List (α × ℕ)} {p : α × ℕ}
    (h : l.zipIdx.filter (fun p => q p.1) = front ++ p :: back) :
    ∃ before after, l = before ++ p.1 :: after ∧ p.2 = before.length ∧
      front.length = (before.filter q).length ∧ q p.1 = true := by
  obtain ⟨before, rest, hl, hfront, hrest⟩ := List.filter_eq_append_iff.mp h
  obtain ⟨skipped, after, rfl, hskipped, hp, -⟩ := List.filter_eq_cons_iff.mp hrest
  rw [← List.append_assoc] at hl
  have hget : l.zipIdx[(before ++ skipped).length]? = some p := by
    rw [hl, List.getElem?_append_right (Nat.le_refl _), Nat.sub_self]
    rfl
  rw [List.getElem?_zipIdx, Nat.zero_add, Option.map_eq_some_iff] at hget
  obtain ⟨y, -, rfl⟩ := hget
  refine ⟨(before ++ skipped).map Prod.fst, after.map Prod.fst, ?_, ?_, ?_, hp⟩
  · rw [← List.zipIdx_map_fst 0 l, hl, List.map_append, List.map_cons]
  · rw [List.length_map]
  · have hnone : skipped.filter (fun p => q p.1) = [] :=
      List.filter_eq_nil_iff.mpr hskipped
    rw [List.filter_map, List.length_map, List.filter_append]
    simp only [Function.comp_def]
    rw [hnone, List.append_nil, hfront]

/-! ## Section indices -/

theorem readShndx_of_lt {n : ℕ} (h : n < SHN_LORESERVE) (entry : Option ℕ) :
    readShndx n entry = some (.ofIndex n) := by
  have hx : n ≠ SHN_XINDEX := Nat.ne_of_lt (Nat.lt_trans h (by decide))
  have ha : n ≠ SHN_ABS := Nat.ne_of_lt (Nat.lt_trans h (by decide))
  have hc : n ≠ SHN_COMMON := Nat.ne_of_lt (Nat.lt_trans h (by decide))
  rw [readShndx, if_neg hx, if_neg ha, if_neg hc, if_neg (Nat.not_le_of_lt h)]

theorem hasSymtabShndx_eq_false (hsections : nextShndx ctx.chunks < SHN_LORESERVE) :
    ctx.hasSymtabShndx = false :=
  decide_eq_false (Nat.not_le_of_lt hsections)

theorem nextShndx_allChunks (hsections : nextShndx ctx.chunks < SHN_LORESERVE) :
    nextShndx ctx.allChunks < SHN_LORESERVE := by
  rw [Context.allChunks, hasSymtabShndx_eq_false hsections, if_neg Bool.false_ne_true,
    List.append_nil]
  exact hsections

/-- What a symbol is written with says its section, if there is an index for that. -/
theorem readShndx_outputShndx (hlt : ∀ chunk, ctx.shndx chunk < SHN_LORESERVE) (s : ι)
    (entry : Option ℕ) :
    readShndx (ctx.outputShndx s) entry = some (ctx.symSection s) ↔ ctx.HasOutputShndx s := by
  have hread (chunk : ℕ) : readShndx (ctx.shndx chunk) entry =
      some (.ofIndex (ctx.shndx chunk)) := readShndx_of_lt (hlt chunk) entry
  have hzero : readShndx 0 entry = some .undef := rfl
  have habs : readShndx SHN_ABS entry = some .abs := rfl
  rw [Context.outputShndx, Context.symSection, Context.HasOutputShndx]
  cases (ctx.sym s).copyrel with
  | some chunk => simp [hread chunk]
  | none =>
    cases hdso : ctx.isDso s || (ctx.sym s).isUndef with
    | true =>
      refine iff_of_true hzero fun _ hdso' hundef => ?_
      rw [hdso', hundef] at hdso
      cases hdso
    | false =>
      obtain ⟨hdso', hundef⟩ := Bool.or_eq_false_iff.mp hdso
      simp only [Bool.false_eq_true, if_false, hdso', hundef, forall_const]
      cases (ctx.sym s).origin with
      | absolute => exact iff_of_true habs trivial
      | common => exact iff_of_false (by rw [habs]; exact nofun) id
      | osec chunk => exact iff_of_true (hread chunk) trivial
      | frag isAlive chunk => exact iff_of_true (hread chunk) trivial
      | isec isAlive isMerge chunk leader =>
        cases isAlive with
        | true => exact iff_of_true (hread chunk) trivial
        | false =>
          cases leader with
          | some leader => exact iff_of_true (hread leader) trivial
          | none =>
            cases (ctx.sym s).ehFrame with
            | none => exact iff_of_true hzero nofun
            | some chunk =>
              simp only [Bool.false_eq_true, if_false, hzero, Option.some.injEq,
                forall_eq', SectionRef.ofIndex]
              by_cases hchunk : ctx.shndx chunk = 0
              · rw [if_pos hchunk]
                exact iff_of_true rfl hchunk
              · rw [if_neg hchunk]
                exact iff_of_false nofun hchunk

theorem outputShndx_lt (hlt : ∀ chunk, ctx.shndx chunk < SHN_LORESERVE) (s : ι) :
    ctx.outputShndx s < SHN_LORESERVE ∨ ctx.outputShndx s = SHN_ABS := by
  rw [Context.outputShndx]
  split
  · exact .inl (hlt _)
  split
  · exact .inl (by decide)
  split
  · exact .inl (hlt _)
  · exact .inl (hlt _)
  · exact .inr rfl
  · exact .inr rfl
  · split
    · exact .inl (hlt _)
    · split
      · exact .inl (hlt _)
      · exact .inl (by decide)

theorem stShndx_symbolWrite (hsections : nextShndx ctx.chunks < SHN_LORESERVE) (p : ι × ℕ)
    (slot stName xindex : ℕ) :
    (ctx.symbolWrite p slot stName xindex).stShndx = some (ctx.outputShndx p.1) := by
  have hlt : ∀ chunk, ctx.shndx chunk < SHN_LORESERVE := fun chunk =>
    Nat.lt_trans (shndx_lt ctx chunk) (nextShndx_allChunks hsections)
  rw [Context.symbolWrite, hasSymtabShndx_eq_false hsections]
  simp only [Bool.false_eq_true, if_false]
  rw [Context.stShndx, if_neg]
  simp only [Bool.and_eq_true, decide_eq_true_eq]
  rintro ⟨⟨hle, habs⟩, -⟩
  exact (outputShndx_lt hlt p.1).elim (Nat.not_lt.mpr hle) habs

theorem symbolWrite_shndx (hsections : nextShndx ctx.chunks < SHN_LORESERVE) (p : ι × ℕ)
    (slot stName xindex : ℕ) (entry : Option ℕ) :
    ((ctx.symbolWrite p slot stName xindex).stShndx.bind fun v => readShndx v entry) =
      some (ctx.symSection p.1) ↔ ctx.HasOutputShndx p.1 := by
  have hlt : ∀ chunk, ctx.shndx chunk < SHN_LORESERVE := fun chunk =>
    Nat.lt_trans (shndx_lt ctx chunk) (nextShndx_allChunks hsections)
  rw [stShndx_symbolWrite hsections, Option.bind_some]
  exact readShndx_outputShndx hlt p.1 entry

/-! ## Indices -/

theorem countedObject_sublist (ctx : Context ι) (k : ℕ) (file : InputFile ι) :
    ((ctx.countedObject k file).map Prod.fst).Sublist file.symbols.zipIdx := by
  have hlocals : (ctx.countedLocals file).Sublist (file.symbols.zipIdx.take file.firstGlobal) := by
    rw [Context.countedLocals]
    split
    · exact List.filter_sublist.trans (List.drop_sublist _ _)
    · exact List.nil_sublist _
  have hglobals : (file.globals.filter (ctx.countsGlobal k)).Sublist
      (file.symbols.zipIdx.drop file.firstGlobal) := List.filter_sublist
  have hboth := hlocals.append hglobals
  rw [List.take_append_drop] at hboth
  rw [Context.countedObject, List.map_append, List.map_map, List.map_map]
  simpa only [Function.comp_def, List.map_id'] using hboth

theorem countedShared_sublist (ctx : Context ι) (k : ℕ) (file : InputFile ι) :
    ((ctx.countedShared k file).map Prod.fst).Sublist file.symbols.zipIdx := by
  have hglobals : (file.globals.filter (ctx.countsShared k)).Sublist
      file.symbols.zipIdx :=
    List.filter_sublist.trans (List.drop_sublist file.firstGlobal file.symbols.zipIdx)
  rw [Context.countedShared, List.map_map]
  simpa only [Function.comp_def, List.map_id'] using hglobals

variable {l : List (Tagged ι)}

theorem counted_nodup {symbols : List ι} (h : (l.map Prod.fst).Sublist symbols.zipIdx) :
    (l.map fun x => x.1.2).Nodup ∧ ∀ x ∈ l, x.1.2 < symbols.length := by
  have hidx := h.map Prod.snd
  rw [List.zipIdx_map_snd, List.map_map] at hidx
  refine ⟨hidx.nodup List.nodup_range', fun x hx => ?_⟩
  have hmem : x.1.2 ∈ List.range' 0 symbols.length :=
    hidx.subset (List.mem_map_of_mem (f := Prod.snd ∘ Prod.fst) hx)
  rw [List.mem_range'_1, Nat.zero_add] at hmem
  exact hmem.2

theorem countAll_index [DecidableEq ι] {symbols : List ι}
    {flags : ι → Bool} (h : (l.map Prod.fst).Sublist symbols.zipIdx)
    {localIdx globalIdx : ℕ} {x : Tagged ι} {n : ℕ}
    (hx : (x, n) ∈ l.zip (number Prod.snd (nextOf localIdx globalIdx) l)) :
    ∃ m, (Counting.countAll ctx
        { outputSymIndices := List.replicate symbols.length none, writeToSymtab := flags }
        l).outputSymIndices.getD x.1.2 none = some m ∧
      n = nextOf localIdx globalIdx x.2 + m := by
  have hbase : nextOf localIdx globalIdx =
      fun b => nextOf localIdx globalIdx b + nextOf 0 0 b := by
    funext b
    cases b <;> rfl
  rw [hbase] at hx
  obtain ⟨m, hm, hn⟩ := exists_of_mem_zip_number hx
  obtain ⟨hnodup, hlt⟩ := counted_nodup h
  refine ⟨m, ?_, hn⟩
  rw [List.getD_eq_getElem?_getD, countAll_indices _ l hnodup
    (fun y hy => by rw [List.length_replicate]; exact hlt y hy) hm]
  rfl

section Correct

variable [DecidableEq ι] {k : ℕ} {file : InputFile ι}

omit [DecidableEq ι] in
theorem tag_of_counted (hk : ctx.objs[k]? = some file)
    {x : Tagged ι} (hx : x ∈ ctx.countedObject k file) :
    x.2 = ctx.isLocal x.1.1 ∧ (ctx.sym x.1.1).file = some (.obj k) := by
  rcases mem_countedObject hx with ⟨-, hlocal, htag⟩ | ⟨-, hcounts, htag⟩
  · obtain ⟨hfile, -, -, hbind, himported, hexported⟩ := ctx.local_sym k file hk x.1 hlocal
    refine ⟨?_, hfile⟩
    rw [htag, Context.isLocal, hbind, himported, hexported]
    simp
  · exact ⟨htag, file_of_countsGlobal hcounts⟩

variable {p : ι × ℕ}

omit [DecidableEq ι] in
theorem isLocal_of_counted (hk : ctx.dsos[k]? = some file)
    (hp : p ∈ file.globals) (hcounts : ctx.countsShared k p = true) :
    ctx.isLocal p.1 = false := by
  have hfile := file_of_countsShared hcounts
  rw [Context.countsShared, Bool.and_eq_true, Bool.and_eq_true] at hcounts
  obtain ⟨⟨-, hdynamic⟩, -⟩ := hcounts
  rw [Context.isLocal, (ctx.dso_sym k file hk).2 p hp hfile]
  cases himported : (ctx.sym p.1).isImported <;> cases hexported : (ctx.sym p.1).isExported
  · rw [himported, hexported] at hdynamic
    cases hdynamic
  all_goals simp

theorem SizedAll.index_object (h : SizedAll ctx sizes)
    (hk : ctx.objs[k]? = some file) {x : Tagged ι} {n : ℕ}
    (hx : (x, n) ∈ (ctx.countedObject k file).zip (number Prod.snd
      (nextOf (Context.valueOf (ctx.localSlots sizes) k)
        (Context.valueOf (ctx.globalSlots sizes) k)) (ctx.countedObject k file)))
    (hidx : (ctx.sym x.1.1).symIdx = x.1.2) :
    ctx.getOutputSymIdx sizes x.1.1 = some n := by
  obtain ⟨flags, heq⟩ := h.obj k file hk
  obtain ⟨m, hm, rfl⟩ := @countAll_index _ ctx _ _ _ flags
    (countedObject_sublist ctx k file) _ _ _ _ hx
  obtain ⟨htag, hfile⟩ := tag_of_counted hk (List.of_mem_zip hx).1
  rw [Context.getOutputSymIdx, hfile]
  simp only
  rw [heq, hidx, hm, Option.map_some, ← htag]
  cases x.2 <;> rfl

theorem SizedAll.index_shared (h : SizedAll ctx sizes)
    (hk : ctx.dsos[k]? = some file) {before after : List (ι × ℕ)}
    (hglobals : file.globals = before ++ p :: after) (hcounts : ctx.countsShared k p = true)
    (hidx : (ctx.sym p.1).symIdx = p.2) :
    ctx.getOutputSymIdx sizes p.1 =
      some (Context.valueOf (ctx.sharedSlots sizes) k +
        (before.filter (ctx.countsShared k)).length) := by
  obtain ⟨flags, heq⟩ := h.dso k file hk
  have hnumber : ∀ (l : List (ι × ℕ)) (n : ℕ),
      number Prod.snd (nextOf 0 n) (l.map fun p => (p, false)) = List.range' n l.length := by
    intro l
    induction l with
    | nil => exact fun _ => rfl
    | cons q l ih =>
      intro n
      have hnext : Function.update (nextOf 0 n) false (nextOf 0 n false + 1) =
          nextOf 0 (n + 1) := by
        funext b
        cases b <;> simp [nextOf, Function.update]
      rw [List.map_cons, number_cons, hnext, ih, List.length_cons, List.range'_succ]
      rfl
  have hx : ((p, false), (before.filter (ctx.countsShared k)).length) ∈
      (ctx.countedShared k file).zip
        (number Prod.snd (nextOf 0 0) (ctx.countedShared k file)) := by
    rw [Context.countedShared, hnumber, hglobals, List.filter_append,
      List.filter_cons_of_pos hcounts]
    refine List.mem_of_getElem? (i := (before.filter (ctx.countsShared k)).length) ?_
    rw [List.getElem?_zip_eq_some, List.getElem?_map, List.getElem?_append_right (Nat.le_refl _),
      Nat.sub_self, List.getElem?_range' (by simp)]
    simp
  obtain ⟨m, hm, hn⟩ := @countAll_index _ ctx _ _ _ flags
    (countedShared_sublist ctx k file) _ _ _ _ hx
  have hmem : p ∈ file.globals := hglobals ▸ List.mem_append_right _ List.mem_cons_self
  have hzero : nextOf 0 0 false = 0 := rfl
  rw [hzero, Nat.zero_add] at hn
  rw [Context.getOutputSymIdx, file_of_countsShared hcounts]
  simp only
  rw [heq, hidx, hm, Option.map_some, isLocal_of_counted hk hmem hcounts, hn]
  rfl

omit [DecidableEq ι] in
theorem shInfo_eq (ctx : Context ι) (sizes : Sizes ι) :
    ctx.shInfo sizes = ctx.globalStart sizes := by
  have hpos : 0 < ctx.objs.length := List.length_pos_iff.mpr ctx.objs_ne_nil
  have hfirst : (0, ctx.globalStart sizes) ∈ ctx.globalSlots sizes := by
    obtain ⟨n, hn⟩ := Nat.exists_eq_succ_of_ne_zero (Nat.ne_of_gt hpos)
    rw [Context.globalSlots, Context.objIndices, hn, List.range_succ_eq_map]
    exact List.mem_cons_self
  exact valueOf_of_mem (tile_range_nodup _ _ _) hfirst

theorem SizedAll.locals_object (h : SizedAll ctx sizes)
    (hk : ctx.objs[k]? = some file) {x : Tagged ι} {n : ℕ}
    (hx : (x, n) ∈ (ctx.countedObject k file).zip (number Prod.snd
      (nextOf (Context.valueOf (ctx.localSlots sizes) k)
        (Context.valueOf (ctx.globalSlots sizes) k)) (ctx.countedObject k file))) :
    x.2 = true ↔ n < ctx.globalStart sizes := by
  have hlt : k < ctx.objs.length := (List.getElem?_eq_some_iff.mp hk).1
  have hlocal := bounds_of_mem_tile (@mem_tile_valueOf
    (fun k => (sizes.obj k).numLocalSymtab) ctx.localStart ctx.objs.length k hlt)
  have hglobal := bounds_of_mem_tile (@mem_tile_valueOf
    (fun k => (sizes.obj k).numGlobalSymtab) (ctx.globalStart sizes) ctx.objs.length k hlt)
  obtain ⟨hle, hnext⟩ := number_mem_range hx
  obtain ⟨-, hlocals, -⟩ := h.obj_sizes hk
  cases htag : x.2 with
  | true =>
    rw [htag, ← hlocals] at hnext
    exact iff_of_true rfl (Nat.lt_of_lt_of_le hnext hlocal.2)
  | false =>
    rw [htag] at hle
    exact iff_of_false Bool.false_ne_true (Nat.not_lt.mpr (Nat.le_trans hglobal.1 hle))

/-! ## Partition -/

theorem SizedAll.mem_objectPart (h : SizedAll ctx sizes) (hsame : WritesCounted ctx)
    (hk : ctx.objs[k]? = some file) {w : SymWrite ι}
    (hw : w ∈ (ctx.objectPart sizes (file, k)).syms) :
    ∃ x n stName, (x, n) ∈ (ctx.countedObject k file).zip (number Prod.snd
        (nextOf (Context.valueOf (ctx.localSlots sizes) k)
          (Context.valueOf (ctx.globalSlots sizes) k)) (ctx.countedObject k file)) ∧
      w = ctx.symbolWrite x.1 n stName n ∧
      (stName, (ctx.sym x.1.1).name) ∈ ctx.stringWrites sizes := by
  have hpart := @Symtab.mem_objectPart _ ctx sizes (file, k) w hk hw
  rwa [h.writtenObject_eq_counted hsame hk] at hpart

theorem SizedAll.mem_sharedPart (h : SizedAll ctx sizes) (hsame : WritesCounted ctx)
    (hk : ctx.dsos[k]? = some file) {w : SymWrite ι}
    (hw : w ∈ (ctx.sharedPart sizes (file, k)).syms) :
    ∃ before p after stName, file.globals = before ++ p :: after ∧ ctx.countsShared k p = true ∧
      w = ctx.symbolWrite p (Context.valueOf (ctx.sharedSlots sizes) k +
          (before.filter (ctx.countsShared k)).length) stName
        (Context.valueOf (ctx.sharedSlots sizes) k + before.length) ∧
      (stName, (ctx.sym p.1).name) ∈ ctx.stringWrites sizes := by
  obtain ⟨front, x, back, stName, hwritten, rfl, hname⟩ :=
    @Symtab.mem_sharedPart _ ctx sizes (file, k) w hk hw
  rw [h.writtenShared_eq_counted hsame hk] at hwritten
  obtain ⟨before, after, hglobals, hplace, hfront, hcounts⟩ :=
    exists_of_filter_zipIdx hwritten
  rw [hplace, hfront]
  exact ⟨before, x.1, after, stName, hglobals, hcounts, rfl, hname⟩

theorem SizedAll.exists_mem_sharedPart (h : SizedAll ctx sizes) (hsame : WritesCounted ctx)
    (hk : ctx.dsos[k]? = some file)
    {before after : List (ι × ℕ)} (hglobals : file.globals = before ++ p :: after)
    (hcounts : ctx.countsShared k p = true) :
    ∃ stName, ctx.symbolWrite p (Context.valueOf (ctx.sharedSlots sizes) k +
        (before.filter (ctx.countsShared k)).length) stName
      (Context.valueOf (ctx.sharedSlots sizes) k + before.length) ∈ ctx.symWrites sizes := by
  have hwritten := h.writtenShared_eq_counted hsame hk
  rw [hglobals, List.zipIdx_append, List.filter_append, List.zipIdx_cons,
    List.filter_cons_of_pos (by exact hcounts), Nat.zero_add] at hwritten
  have hlength : (before.zipIdx.filter fun q => ctx.countsShared k q.1).length =
      (before.filter (ctx.countsShared k)).length := by
    rw [← List.length_map Prod.fst]
    exact congrArg List.length (map_fst_filter_zipIdx (ctx.countsShared k) before)
  obtain ⟨stName, hmem⟩ := @exists_mem_emitShared _ ctx
    (Context.valueOf (ctx.sharedSlots sizes) k) (Context.valueOf (ctx.sharedSlots sizes) k)
    (Context.valueOf (ctx.dsoStrings sizes) k)
    (before.zipIdx.filter fun q => ctx.countsShared k q.1) (p, before.length)
    ((after.zipIdx (before.length + 1)).filter fun q => ctx.countsShared k q.1)
  rw [← hwritten, hlength] at hmem
  refine ⟨stName, mem_symWrites.mpr (.inr (.inr ⟨k, file, hk, ?_⟩))⟩
  rw [Context.sharedPart, (populateShared_eq _ _ _ _ _).1]
  exact hmem

omit [DecidableEq ι] in
theorem frontWrites_shndx (hsections : nextShndx ctx.chunks < SHN_LORESERVE)
    {w : SymWrite ι} (hw : w ∈ ctx.frontWrites) (entry : Option ℕ) :
    (w.stShndx.bind fun v => readShndx v entry) = some (ctx.contentSection w.content) := by
  obtain ⟨-, -, n, hlt, hst, hcontent⟩ := mem_frontWrites hw
  have hbound := Nat.lt_trans hlt (nextShndx_allChunks hsections)
  have hsame : Context.toU16 n = n := Nat.mod_eq_of_lt (Nat.lt_trans hbound (by decide))
  rw [hst, hsame, hcontent, Option.bind_some, readShndx_of_lt hbound]

theorem SizedAll.indices (h : SizedAll ctx sizes) (hsame : WritesCounted ctx) {w : SymWrite ι}
    (hw : w ∈ ctx.symWrites sizes) {s : ι} {i : ℕ} (hcontent : w.content = .symbol s i)
    (hidx : (ctx.sym s).symIdx = i) : ctx.getOutputSymIdx sizes s = some w.slot := by
  rcases mem_symWrites.mp hw with hw | ⟨k, file, hk, hw⟩ | ⟨k, file, hk, hw⟩
  · exact absurd hcontent ((mem_frontWrites hw).2.1 s i)
  · obtain ⟨x, n, stName, hx, rfl, -⟩ := h.mem_objectPart hsame hk hw
    obtain ⟨rfl, rfl⟩ := Content.symbol.inj hcontent
    exact h.index_object hk hx hidx
  · obtain ⟨before, p, after, stName, hglobals, hcounts, rfl, -⟩ :=
      h.mem_sharedPart hsame hk hw
    obtain ⟨rfl, rfl⟩ := Content.symbol.inj hcontent
    exact h.index_shared hk hglobals hcounts hidx

theorem SizedAll.names (h : SizedAll ctx sizes) (hsame : WritesCounted ctx) {w : SymWrite ι}
    (hw : w ∈ ctx.symWrites sizes) {s : ι} {i : ℕ} (hcontent : w.content = .symbol s i) :
    (w.stName, (ctx.sym s).name) ∈ ctx.stringWrites sizes := by
  rcases mem_symWrites.mp hw with hw | ⟨k, file, hk, hw⟩ | ⟨k, file, hk, hw⟩
  · exact absurd hcontent ((mem_frontWrites hw).2.1 s i)
  · obtain ⟨x, n, stName, -, rfl, hname⟩ := h.mem_objectPart hsame hk hw
    obtain ⟨rfl, rfl⟩ := Content.symbol.inj hcontent
    exact hname
  · obtain ⟨before, p, after, stName, -, -, rfl, hname⟩ := h.mem_sharedPart hsame hk hw
    obtain ⟨rfl, rfl⟩ := Content.symbol.inj hcontent
    exact hname

omit [DecidableEq ι] in
theorem isDso_of_file {s : ι} (h : (ctx.sym s).file = some (.dso k)) : ctx.isDso s = true := by
  rw [Context.isDso, h]

theorem SizedAll.partition (h : SizedAll ctx sizes) (hsame : WritesCounted ctx)
    (hsections : nextShndx ctx.chunks < SHN_LORESERVE) (hknown : SectionsKnown ctx) :
    Partition ctx sizes := by
  have hlocalStart : ctx.localStart ≤ ctx.globalStart sizes := Nat.le_add_right _ _
  refine ⟨h.slots_perm hsame, fun w hw => ?_, h.strings_perm hsame,
    fun w hw s i => h.names hsame hw, fun w hw s i => h.indices hsame hw, fun w hw => ?_⟩
  · rw [shInfo_eq]
    rcases mem_symWrites.mp hw with hw | ⟨k, file, hk, hw⟩ | ⟨k, file, hk, hw⟩
    · have hmem := List.mem_map_of_mem (f := SymWrite.slot) hw
      rw [frontWrites_slots, List.mem_range'_1, Nat.zero_add] at hmem
      exact iff_of_true (mem_frontWrites hw).1 (Nat.lt_of_lt_of_le hmem.2 hlocalStart)
    · obtain ⟨x, n, stName, hx, rfl, -⟩ := h.mem_objectPart hsame hk hw
      have hlocal : (ctx.symbolWrite x.1 n stName n).isLocal = ctx.isLocal x.1.1 := rfl
      rw [hlocal, ← (tag_of_counted hk (List.of_mem_zip hx).1).1]
      exact h.locals_object hk hx
    · obtain ⟨before, p, after, stName, hglobals, hcounts, rfl, -⟩ :=
        h.mem_sharedPart hsame hk hw
      have hmem : p ∈ file.globals := hglobals ▸ List.mem_append_right _ List.mem_cons_self
      have hslots := bounds_of_mem_tile (@mem_tile_valueOf
        (fun k => (sizes.dso k).numGlobalSymtab) (ctx.sharedStart sizes) ctx.dsos.length k
        (List.getElem?_eq_some_iff.mp hk).1)
      have hstart : ctx.globalStart sizes ≤ Context.valueOf (ctx.sharedSlots sizes) k :=
        Nat.le_trans (Nat.le_add_right _ _) hslots.1
      have hlocal : ctx.isLocal p.1 = false := isLocal_of_counted hk hmem hcounts
      refine iff_of_false (fun h => ?_) (Nat.not_lt.mpr (Nat.le_add_right_of_le hstart))
      exact Bool.false_ne_true (hlocal.symm.trans h)
  · rcases mem_symWrites.mp hw with hw | ⟨k, file, hk, hw⟩ | ⟨k, file, hk, hw⟩
    · exact frontWrites_shndx hsections hw _
    · obtain ⟨x, n, stName, hx, rfl, -⟩ := h.mem_objectPart hsame hk hw
      exact (symbolWrite_shndx hsections _ _ _ _ _).mpr (hknown k file hk x (List.of_mem_zip hx).1)
    · obtain ⟨before, p, after, stName, hglobals, hcounts, rfl, -⟩ :=
        h.mem_sharedPart hsame hk hw
      refine (symbolWrite_shndx hsections _ _ _ _ _).mpr fun _ hdso => ?_
      rw [isDso_of_file (file_of_countsShared hcounts)] at hdso
      cases hdso

omit [DecidableEq ι] in
theorem writesCounted_iff : WritesCounted ctx ↔
    (ctx.args.retainSymbolsFile = true → ∀ k file, ctx.objs[k]? = some file →
      ∀ p ∈ file.globals, (ctx.sym p.1).file = some (.obj k) → ctx.retained p.1 = true →
        ctx.isAlive p.1 = true) ∧
    (ctx.args.retainSymbolsFile = true → ∀ k file, ctx.dsos[k]? = some file →
      ∀ p ∈ file.globals, (ctx.sym p.1).file = some (.dso k) → ctx.retained p.1 = true →
        ((ctx.sym p.1).isImported || (ctx.sym p.1).isExported) = true) := by
  constructor
  · intro h
    refine ⟨fun _ k file hk p hp hfile hretained => ?_,
      fun _ k file hk p hp hfile hretained => ?_⟩
    · have hcounts := h.objs k file hk p hp (by
        rw [Context.writesGlobal, hfile, hretained]
        simp)
      rw [Context.countsGlobal, Bool.and_eq_true, Bool.and_eq_true] at hcounts
      exact hcounts.1.2
    · have hcounts := h.dsos k file hk p hp (by
        rw [Context.writesShared, hfile, hretained]
        simp)
      rw [Context.countsShared, Bool.and_eq_true, Bool.and_eq_true] at hcounts
      exact hcounts.1.2
  · rintro ⟨hobjs, hdsos⟩
    have hretain : ∀ s, ctx.retained s = true → ctx.args.retainSymbolsFile = true := by
      intro s hs
      by_contra hargs
      rw [ctx.retained_args (Bool.eq_false_iff.mpr hargs) s] at hs
      cases hs
    refine ⟨fun k file hk p hp hwrites => ?_, fun k file hk p hp hwrites => ?_⟩
    · rw [Context.writesGlobal, Bool.and_eq_true, Bool.or_eq_true] at hwrites
      obtain ⟨hfile, hretained | hcounts⟩ := hwrites
      · have halive := hobjs (hretain p.1 hretained) k file hk p hp
          (of_decide_eq_true hfile) hretained
        rw [Context.countsGlobal, hfile, halive, hretained]
        simp
      · exact hcounts
    · rw [Context.writesShared, Bool.and_eq_true, Bool.or_eq_true] at hwrites
      obtain ⟨hfile, hretained | hcounts⟩ := hwrites
      · have hdynamic := hdsos (hretain p.1 hretained) k file hk p hp
          (of_decide_eq_true hfile) hretained
        rw [Context.countsShared, hfile, hdynamic, hretained]
        simp
      · exact hcounts

omit [DecidableEq ι] in
/-- With as many sections as there are indices that are not reserved, one of them gets a
reserved index, which its symbol is written with. -/
theorem sections_of_partition (hpart : Partition ctx sizes) :
    nextShndx ctx.chunks < SHN_LORESERVE := by
  by_contra hlt
  have hle := Nat.not_lt.mp hlt
  have htable : ctx.hasSymtabShndx = true := decide_eq_true hle
  have hnext : SHN_LORESERVE < nextShndx ctx.allChunks := by
    have hall : nextShndx ctx.allChunks = nextShndx ctx.chunks + 1 := by
      rw [Context.allChunks, htable, if_pos rfl, nextShndx, List.countP_append, ← Nat.add_assoc]
      rfl
    omega
  have hmem : SHN_LORESERVE ∈ ctx.sectionWrites.map SymWrite.slot := by
    rw [sectionWrites_map_slot, List.mem_range'_1]
    exact ⟨by decide, hnext⟩
  obtain ⟨w, hw, hslot⟩ := List.mem_map.mp hmem
  obtain ⟨chunk, -, rfl⟩ := List.mem_map.mp hw
  have hshndx : ctx.shndx chunk = SHN_LORESERVE := hslot
  have hread := hpart.shndx _ (mem_symWrites.mpr (.inl
    (List.mem_append_left _ (List.mem_cons_of_mem _ hw))))
  have hst : (ctx.sectionWrite chunk : SymWrite ι).stShndx = some SHN_LORESERVE := by
    rw [Context.sectionWrite, hshndx]
    rfl
  rw [hst] at hread
  cases hread

omit [DecidableEq ι] in
theorem exists_mem_emit {next : Bool → ℕ} {off : ℕ} {x : Tagged ι}
    (hx : x ∈ l) : ∃ n stName, ctx.symbolWrite x.1 n stName n ∈ emit ctx next off l := by
  induction l generalizing next off with
  | nil => exact absurd hx List.not_mem_nil
  | cons y l ih =>
    rw [emit]
    rcases List.mem_cons.mp hx with rfl | hx
    · exact ⟨_, _, List.mem_cons_self⟩
    · obtain ⟨n, stName, hw⟩ := @ih _ _ hx
      exact ⟨n, stName, List.mem_cons_of_mem _ hw⟩

theorem SizedAll.exists_mem_counted (h : SizedAll ctx sizes) (hsame : WritesCounted ctx)
    (hk : ctx.objs[k]? = some file) {x : Tagged ι}
    (hx : x ∈ ctx.countedObject k file) :
    ∃ n stName, ctx.symbolWrite x.1 n stName n ∈ ctx.symWrites sizes := by
  rw [← h.writtenObject_eq_counted hsame hk] at hx
  obtain ⟨n, stName, hw⟩ := exists_mem_emit hx
  refine ⟨n, stName, mem_symWrites.mpr (.inr (.inl ⟨k, file, hk, ?_⟩))⟩
  rw [Context.objectPart, (populateObject_eq _ _ _ _ _ _).1]
  exact hw

theorem SizedAll.writesCounted_of_partition (h : SizedAll ctx sizes)
    (hpart : Partition ctx sizes) : WritesCounted ctx := by
  have hslots := hpart.slots.length_eq
  rw [List.length_map, List.length_range] at hslots
  exact h.writesCounted hslots

/-- The symbol table is partitioned if and only if the passes agree and the section of each
symbol can be written. -/
theorem partition_iff {objOrder dsoOrder : List ℕ} (hobj : objOrder.Perm ctx.objIndices)
    (hdso : dsoOrder.Perm ctx.dsoIndices) :
    Partition ctx (ctx.createOutputSymtab objOrder dsoOrder) ↔
      PassesAgree ctx ∧ SectionsKnown ctx := by
  have h := sizedAll_createOutputSymtab hobj hdso
  constructor
  · intro hpart
    have hsame := h.writesCounted_of_partition hpart
    obtain ⟨hobjs, hdsos⟩ := writesCounted_iff.mp hsame
    have hsections := sections_of_partition hpart
    refine ⟨⟨hobjs, hdsos, hsections⟩, fun k file hk x hx => ?_⟩
    obtain ⟨n, stName, hw⟩ := h.exists_mem_counted hsame hk hx
    exact (symbolWrite_shndx hsections _ _ _ _ _).mp (hpart.shndx _ hw)
  · rintro ⟨hagree, hknown⟩
    exact h.partition (writesCounted_iff.mpr ⟨hagree.objs, hagree.dsos⟩) hagree.sections hknown

end Correct

/-- A file with the function `f`, which `--retain-symbols-file` names, with
`--gc-sections`. -/
def exampleSymtab (isAlive : Bool) : Context Bool where
  args := { retainSymbolsFile := true, gcSections := true }
  sym := fun isFunction =>
    if isFunction then
      { name := [102], file := some (.obj 0), symIdx := 1
        origin := .isec isAlive false 1 none }
    else { name := [], file := some (.obj 0), symIdx := 0 }
  chunks := [{ isHeader := true }, {}]
  objs := [{ symbols := [false, true], firstGlobal := 1 }]
  dsos := []
  retained := id
  retained_args := fun h => absurd h (by decide)
  objs_ne_nil := by decide
  local_sym := fun k file hk => by
    cases k with
    | zero =>
      obtain rfl := Option.some.inj hk
      exact fun p hp => absurd hp List.not_mem_nil
    | succ k => cases hk
  local_ne_global := fun file hfile p hp => by
    obtain rfl := List.mem_singleton.mp hfile
    exact absurd hp List.not_mem_nil
  dso_sym := fun k file hk => absurd hk (by simp)

theorem passesAgree_exampleSymtab : PassesAgree (exampleSymtab true) where
  objs := fun _ k file hk => by
    cases k with
    | zero =>
      obtain rfl := Option.some.inj hk
      intro p hp _ _
      obtain rfl := List.mem_singleton.mp hp
      rfl
    | succ k => cases hk
  dsos := fun _ k file hk => absurd hk (by simp [exampleSymtab])
  sections := by decide

theorem sectionsKnown_exampleSymtab : SectionsKnown (exampleSymtab true) := by
  intro k file hk x hx
  cases k with
  | zero =>
    obtain rfl := Option.some.inj hk
    have hfunction : x.1.1 = true := by
      revert x
      decide
    rw [hfunction]
    exact fun _ _ _ => trivial
  | succ k => cases hk

/-- A symbol table is partitioned. -/
theorem partition_exampleSymtab :
    Partition (exampleSymtab true) ((exampleSymtab true).createOutputSymtab [0] []) :=
  (partition_iff (List.Perm.refl _) (List.Perm.refl _)).mpr
    ⟨passesAgree_exampleSymtab, sectionsKnown_exampleSymtab⟩

/-- The symbol of a function that is not alive is written without a slot of its own. -/
theorem not_partition_exampleSymtab :
    ¬ Partition (exampleSymtab false) ((exampleSymtab false).createOutputSymtab [0] []) :=
  fun h => absurd h.slots.length_eq (by decide)

end Mold.Elf.Symtab
