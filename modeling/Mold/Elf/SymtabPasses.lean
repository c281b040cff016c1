import Mold.Elf.OutputSymtab

/-!
# What the passes over the symbols count and write

Both passes take a part of the symbols of a file in the same order.  With the symbols
that are counted as a list, what is counted are the sizes of the list, and the
indices and slots of its symbols are their numbers in it.
-/

namespace Mold.Elf.Symtab

open Lib

variable {ι : Type*} {ctx : Context ι}

/-- A symbol with its index in its file that is counted as a local or as a global one. -/
abbrev Tagged (ι : Type*) := (ι × ℕ) × Bool

def nextOf (localIdx globalIdx : ℕ) : Bool → ℕ
  | true => localIdx
  | false => globalIdx

def nameSize (ctx : Context ι) (x : Tagged ι) : ℕ := (ctx.sym x.1.1).name.length + 1

theorem foldl_if_map {α β γ : Type*} (f : β → γ → β) (c : α → Bool) (g : α → γ)
    (l : List α) (b : β) :
    l.foldl (fun b x => if c x then f b (g x) else b) b = ((l.filter c).map g).foldl f b := by
  rw [List.foldl_map, List.foldl_filter]

section Count

variable [DecidableEq ι]

def Counting.countAll (ctx : Context ι) (st : Counting ι) (l : List (Tagged ι)) : Counting ι :=
  l.foldl (fun st x => st.count ctx x.2 x.1) st

theorem countAll_append (st : Counting ι) (l l' : List (Tagged ι)) :
    st.countAll ctx (l ++ l') = (st.countAll ctx l).countAll ctx l' :=
  List.foldl_append

theorem countAll_cons (st : Counting ι) (x : Tagged ι) (l : List (Tagged ι)) :
    st.countAll ctx (x :: l) = (st.count ctx x.2 x.1).countAll ctx l := rfl

theorem countAll_sizes (st : Counting ι) (l : List (Tagged ι)) :
    (st.countAll ctx l).strtabSize = st.strtabSize + (l.map (nameSize ctx)).sum ∧
    (st.countAll ctx l).numLocalSymtab = st.numLocalSymtab + classSize Prod.snd l true ∧
    (st.countAll ctx l).numGlobalSymtab = st.numGlobalSymtab + classSize Prod.snd l false ∧
    (st.countAll ctx l).outputSymIndices.length = st.outputSymIndices.length := by
  induction l generalizing st with
  | nil => exact ⟨rfl, rfl, rfl, rfl⟩
  | cons x l ih =>
    obtain ⟨hsize, hlocal, hglobal, hlength⟩ := ih (st.count ctx x.2 x.1)
    rw [countAll_cons, List.map_cons, List.sum_cons, classSize_cons, classSize_cons]
    refine ⟨?_, ?_, ?_, ?_⟩
    · rw [hsize, Counting.count, nameSize, Nat.add_assoc]
    · rw [hlocal, Counting.count]
      cases x.2 <;> simp
      omega
    · rw [hglobal, Counting.count]
      cases x.2 <;> simp
      omega
    · rw [hlength, Counting.count, List.length_set]

theorem countAll_writeToSymtab (st : Counting ι) (l : List (Tagged ι)) (s : ι) :
    (st.countAll ctx l).writeToSymtab s = true ↔
      st.writeToSymtab s = true ∨ ∃ x ∈ l, x.1.1 = s := by
  induction l generalizing st with
  | nil => simp [Counting.countAll]
  | cons x l ih =>
    rw [countAll_cons, ih, Counting.count]
    by_cases hs : s = x.1.1
    · simp [hs]
    · have hs' : ¬ x.1.1 = s := fun h => hs h.symm
      simp [hs, hs']

theorem countAll_indices_of_notMem (st : Counting ι) (l : List (Tagged ι)) {i : ℕ}
    (hi : ∀ x ∈ l, x.1.2 ≠ i) :
    (st.countAll ctx l).outputSymIndices[i]? = st.outputSymIndices[i]? := by
  induction l generalizing st with
  | nil => rfl
  | cons x l ih =>
    rw [countAll_cons, ih _ fun y hy => hi y (List.mem_cons_of_mem _ hy), Counting.count]
    exact List.getElem?_set_ne (hi x List.mem_cons_self)

theorem countAll_indices (st : Counting ι) (l : List (Tagged ι))
    (hnodup : (l.map fun x => x.1.2).Nodup)
    (hlt : ∀ x ∈ l, x.1.2 < st.outputSymIndices.length) {x : Tagged ι} {n : ℕ}
    (hx : (x, n) ∈ l.zip (number Prod.snd (nextOf st.numLocalSymtab st.numGlobalSymtab) l)) :
    (st.countAll ctx l).outputSymIndices[x.1.2]? = some (some n) := by
  induction l generalizing st with
  | nil => exact absurd hx List.not_mem_nil
  | cons y l ih =>
    rw [List.map_cons, List.nodup_cons] at hnodup
    have hlength : (st.count ctx y.2 y.1).outputSymIndices.length =
        st.outputSymIndices.length := by
      rw [Counting.count, List.length_set]
    rw [number_cons, List.zip_cons_cons, List.mem_cons] at hx
    rw [countAll_cons]
    rcases hx with hx | hx
    · obtain ⟨rfl, rfl⟩ := Prod.mk.inj hx
      have hother : ∀ z ∈ l, z.1.2 ≠ x.1.2 := fun z hz heq =>
        hnodup.1 (List.mem_map.mpr ⟨z, hz, heq⟩)
      rw [countAll_indices_of_notMem _ _ hother, Counting.count]
      simp only
      rw [List.getElem?_set_self (hlt x List.mem_cons_self)]
      cases x.2 <;> rfl
    · have hnext : nextOf (st.count ctx y.2 y.1).numLocalSymtab
          (st.count ctx y.2 y.1).numGlobalSymtab =
          Function.update (nextOf st.numLocalSymtab st.numGlobalSymtab) y.2
            (nextOf st.numLocalSymtab st.numGlobalSymtab y.2 + 1) := by
        funext b
        rw [Counting.count]
        cases y.2 <;> cases b <;> simp [nextOf, Function.update]
      refine ih _ hnodup.2 (fun z hz => ?_) ?_
      · rw [hlength]
        exact hlt z (List.mem_cons_of_mem _ hz)
      · rw [hnext]
        exact hx

end Count

/-! ## What is counted -/

namespace Context

variable (ctx : Context ι)

def countsLocal (p : ι × ℕ) : Bool :=
  ctx.isAlive p.1 && ctx.shouldWriteToLocalSymtab p.1

def countsGlobal (k : ℕ) (p : ι × ℕ) : Bool :=
  (ctx.sym p.1).file = some (.obj k) && ctx.isAlive p.1 &&
    (!ctx.args.retainSymbolsFile || ctx.retained p.1)

def countsShared (k : ℕ) (p : ι × ℕ) : Bool :=
  (ctx.sym p.1).file = some (.dso k) && ((ctx.sym p.1).isImported || (ctx.sym p.1).isExported) &&
    (!ctx.args.retainSymbolsFile || ctx.retained p.1)

def countedLocals (file : InputFile ι) : List (ι × ℕ) :=
  if !ctx.args.discardAll && !ctx.args.retainSymbolsFile then
    file.locals.filter ctx.countsLocal
  else []

def countedObject (k : ℕ) (file : InputFile ι) : List (Tagged ι) :=
  (ctx.countedLocals file).map (fun p => (p, true)) ++
    (file.globals.filter (ctx.countsGlobal k)).map fun p => (p, ctx.isLocal p.1)

def countedShared (k : ℕ) (file : InputFile ι) : List (Tagged ι) :=
  (file.globals.filter (ctx.countsShared k)).map fun p => (p, false)

end Context

section Counted

variable [DecidableEq ι]

def FlagsKept (ctx : Context ι) (flags : ι → Bool) : Prop :=
  ctx.args.retainSymbolsFile = true → flags = ctx.retained

theorem foldl_count_of_flags (c : ι × ℕ → Bool) (tag : ι × ℕ → Bool)
    (l : List (ι × ℕ)) (st : Counting ι) (hflags : FlagsKept ctx st.writeToSymtab) :
    l.foldl (fun st p => if c p && (!ctx.args.retainSymbolsFile || st.writeToSymtab p.1)
        then st.count ctx (tag p) p else st) st =
      st.countAll ctx ((l.filter fun p =>
        c p && (!ctx.args.retainSymbolsFile || ctx.retained p.1)).map fun p => (p, tag p)) ∧
    FlagsKept ctx (st.countAll ctx ((l.filter fun p =>
      c p && (!ctx.args.retainSymbolsFile || ctx.retained p.1)).map
        fun p => (p, tag p))).writeToSymtab := by
  induction l generalizing st with
  | nil => exact ⟨rfl, hflags⟩
  | cons p l ih =>
    have hsame : (!ctx.args.retainSymbolsFile || st.writeToSymtab p.1) =
        (!ctx.args.retainSymbolsFile || ctx.retained p.1) := by
      cases hretain : ctx.args.retainSymbolsFile with
      | false => rfl
      | true => rw [hflags hretain]
    rw [List.foldl_cons, List.filter_cons, hsame]
    split
    case isTrue hc =>
      rw [List.map_cons, countAll_cons]
      refine ih _ fun hretain => ?_
      rw [hretain, Bool.not_true, Bool.false_or, Bool.and_eq_true] at hc
      have hset : Function.update st.writeToSymtab p.1 true = st.writeToSymtab :=
        Function.update_eq_self_iff.mpr (by rw [hflags hretain, hc.2])
      exact hset.trans (hflags hretain)
    case isFalse => exact ih _ hflags

theorem computeObjectSize_eq {k : ℕ} {file : InputFile ι} {flags : ι → Bool}
    (hflags : FlagsKept ctx flags) :
    ctx.computeObjectSize k file flags = Counting.countAll ctx
      { outputSymIndices := List.replicate file.symbols.length none, writeToSymtab := flags }
      (ctx.countedObject k file) ∧
    FlagsKept ctx (ctx.computeObjectSize k file flags).writeToSymtab := by
  have hlocals : ∀ st : Counting ι, (if !ctx.args.discardAll && !ctx.args.retainSymbolsFile
      then file.locals.foldl ctx.countLocal st else st) =
      st.countAll ctx ((ctx.countedLocals file).map fun p => (p, true)) := by
    intro st
    rw [Context.countedLocals]
    split
    · exact foldl_if_map (fun st (x : Tagged ι) => st.count ctx x.2 x.1) ctx.countsLocal
        (fun p => (p, true)) file.locals st
    · rfl
  have hkept : ∀ st : Counting ι, FlagsKept ctx st.writeToSymtab → FlagsKept ctx
      (st.countAll ctx ((ctx.countedLocals file).map fun p => (p, true))).writeToSymtab := by
    intro st hst hretain
    rw [Context.countedLocals, hretain, Bool.not_true, Bool.and_false, if_neg Bool.false_ne_true]
    exact hst hretain
  have hglobals := @foldl_count_of_flags _ ctx _
    (fun p => (ctx.sym p.1).file = some (.obj k) && ctx.isAlive p.1)
    (fun p => ctx.isLocal p.1) file.globals _
    (hkept { outputSymIndices := List.replicate file.symbols.length none,
             writeToSymtab := flags } hflags)
  have heq : ctx.computeObjectSize k file flags = Counting.countAll ctx
      { outputSymIndices := List.replicate file.symbols.length none, writeToSymtab := flags }
      (ctx.countedObject k file) := by
    rw [Context.computeObjectSize]
    simp only [hlocals]
    rw [Context.countedObject, countAll_append]
    exact hglobals.1
  refine ⟨heq, ?_⟩
  rw [heq, Context.countedObject, countAll_append]
  exact hglobals.2

theorem computeSharedSize_eq {k : ℕ} {file : InputFile ι} {flags : ι → Bool}
    (hflags : FlagsKept ctx flags) :
    ctx.computeSharedSize k file flags = Counting.countAll ctx
      { outputSymIndices := List.replicate file.symbols.length none, writeToSymtab := flags }
      (ctx.countedShared k file) ∧
    FlagsKept ctx (ctx.computeSharedSize k file flags).writeToSymtab := by
  have hshared := @foldl_count_of_flags _ ctx _
    (fun p => (ctx.sym p.1).file = some (.dso k) &&
      ((ctx.sym p.1).isImported || (ctx.sym p.1).isExported))
    (fun _ => false) file.globals
    { outputSymIndices := List.replicate file.symbols.length none, writeToSymtab := flags }
    hflags
  have heq : ctx.computeSharedSize k file flags = Counting.countAll ctx
      { outputSymIndices := List.replicate file.symbols.length none, writeToSymtab := flags }
      (ctx.countedShared k file) := hshared.1
  refine ⟨heq, ?_⟩
  rw [heq]
  exact hshared.2

structure Sized (ctx : Context ι) (objOrder dsoOrder : List ℕ) (sizes : Sizes ι) : Prop where
  obj : ∀ k ∈ objOrder, ∀ file, ctx.objs[k]? = some file → ∃ flags, sizes.obj k =
    Counting.countAll ctx
      { outputSymIndices := List.replicate file.symbols.length none, writeToSymtab := flags }
      (ctx.countedObject k file)
  dso : ∀ k ∈ dsoOrder, ∀ file, ctx.dsos[k]? = some file → ∃ flags, sizes.dso k =
    Counting.countAll ctx
      { outputSymIndices := List.replicate file.symbols.length none, writeToSymtab := flags }
      (ctx.countedShared k file)
  flags : ∀ s, sizes.writeToSymtab s = true ↔ ctx.retained s = true ∨
    (∃ k ∈ objOrder, ∃ file, ctx.objs[k]? = some file ∧
      ∃ x ∈ ctx.countedObject k file, x.1.1 = s) ∨
    ∃ k ∈ dsoOrder, ∃ file, ctx.dsos[k]? = some file ∧ ∃ x ∈ ctx.countedShared k file, x.1.1 = s
  kept : FlagsKept ctx sizes.writeToSymtab

theorem Sized.sizeObject {objOrder : List ℕ} {sizes : Sizes ι}
    (h : Sized ctx objOrder [] sizes) (k : ℕ) :
    Sized ctx (objOrder ++ [k]) [] (ctx.sizeObject sizes k) := by
  cases hfile : ctx.objs[k]? with
  | none =>
    rw [Context.sizeObject, hfile]
    refine ⟨fun j hj file hj' => ?_, h.dso, fun s => ?_, h.kept⟩
    · rcases List.mem_append.mp hj with hj | hj
      · exact h.obj j hj file hj'
      · rw [List.mem_singleton.mp hj, hfile] at hj'
        cases hj'
    · simp [h.flags, or_and_right, exists_or, hfile]
  | some file =>
    obtain ⟨heq, hkept⟩ := @computeObjectSize_eq _ ctx _ k file _ h.kept
    rw [Context.sizeObject, hfile]
    refine ⟨fun j hj file' hj' => ?_, h.dso, fun s => ?_, hkept⟩
    · by_cases hjk : j = k
      · subst hjk
        obtain rfl := Option.some.inj (hfile.symm.trans hj')
        exact ⟨_, (Function.update_self _ _ _).trans heq⟩
      · have hmem : j ∈ objOrder := (List.mem_append.mp hj).resolve_right
          fun hj => hjk (List.mem_singleton.mp hj)
        obtain ⟨flags, hobj⟩ := h.obj j hmem file' hj'
        exact ⟨flags, (Function.update_of_ne hjk _ _).trans hobj⟩
    · simp only [heq, countAll_writeToSymtab, h.flags, List.mem_append,
        List.mem_singleton, or_and_right, exists_or, exists_eq_left, hfile,
        Option.some.injEq, exists_eq_left', List.not_mem_nil, false_and, exists_false,
        or_false, or_assoc]

theorem Sized.sizeShared {objOrder dsoOrder : List ℕ} {sizes : Sizes ι}
    (h : Sized ctx objOrder dsoOrder sizes) (k : ℕ) :
    Sized ctx objOrder (dsoOrder ++ [k]) (ctx.sizeShared sizes k) := by
  cases hfile : ctx.dsos[k]? with
  | none =>
    rw [Context.sizeShared, hfile]
    refine ⟨h.obj, fun j hj file hj' => ?_, fun s => ?_, h.kept⟩
    · rcases List.mem_append.mp hj with hj | hj
      · exact h.dso j hj file hj'
      · rw [List.mem_singleton.mp hj, hfile] at hj'
        cases hj'
    · simp [h.flags, or_and_right, exists_or, hfile]
  | some file =>
    obtain ⟨heq, hkept⟩ := @computeSharedSize_eq _ ctx _ k file _ h.kept
    rw [Context.sizeShared, hfile]
    refine ⟨h.obj, fun j hj file' hj' => ?_, fun s => ?_, hkept⟩
    · by_cases hjk : j = k
      · subst hjk
        obtain rfl := Option.some.inj (hfile.symm.trans hj')
        exact ⟨_, (Function.update_self _ _ _).trans heq⟩
      · have hmem : j ∈ dsoOrder := (List.mem_append.mp hj).resolve_right
          fun hj => hjk (List.mem_singleton.mp hj)
        obtain ⟨flags, hdso⟩ := h.dso j hmem file' hj'
        exact ⟨flags, (Function.update_of_ne hjk _ _).trans hdso⟩
    · simp only [heq, countAll_writeToSymtab, h.flags, List.mem_append,
        List.mem_singleton, or_and_right, exists_or, exists_eq_left, hfile,
        Option.some.injEq, exists_eq_left', or_assoc]

theorem sized_createOutputSymtab (ctx : Context ι) (objOrder dsoOrder : List ℕ) :
    Sized ctx objOrder dsoOrder (ctx.createOutputSymtab objOrder dsoOrder) := by
  have hobjs : ∀ l front sizes, Sized ctx front [] sizes →
      Sized ctx (front ++ l) [] (l.foldl ctx.sizeObject sizes) := by
    intro l
    induction l with
    | nil =>
      intro front sizes h
      rw [List.append_nil]
      exact h
    | cons k l ih =>
      intro front sizes h
      rw [List.append_cons]
      exact ih _ _ (h.sizeObject k)
  have hdsos : ∀ l front sizes, Sized ctx objOrder front sizes →
      Sized ctx objOrder (front ++ l) (l.foldl ctx.sizeShared sizes) := by
    intro l
    induction l with
    | nil =>
      intro front sizes h
      rw [List.append_nil]
      exact h
    | cons k l ih =>
      intro front sizes h
      rw [List.append_cons]
      exact ih _ _ (h.sizeShared k)
  refine hdsos dsoOrder [] _ (hobjs objOrder [] _ ⟨fun k hk => absurd hk List.not_mem_nil,
    fun k hk => absurd hk List.not_mem_nil, fun s => ?_, fun _ => rfl⟩)
  simp

end Counted

/-! ## Writing -/

def emit (ctx : Context ι) : (Bool → ℕ) → ℕ → List (Tagged ι) → List (SymWrite ι)
  | _, _, [] => []
  | next, off, x :: l =>
    ctx.symbolWrite x.1 (next x.2) off (next x.2) ::
      emit ctx (Function.update next x.2 (next x.2 + 1)) (off + nameSize ctx x) l

def emitNames (ctx : Context ι) (off : ℕ) (l : List (Tagged ι)) : List (ℕ × Name) :=
  (tile (nameSize ctx) off l).map fun p => (p.2, (ctx.sym p.1.1.1).name)

def Populating.writeAll (ctx : Context ι) (st : Populating ι) (l : List (Tagged ι)) :
    Populating ι :=
  l.foldl (fun st x => ctx.writeSym x.2 st x.1) st

theorem writeAll_writes (st : Populating ι) (l : List (Tagged ι)) :
    (st.writeAll ctx l).writes.syms = st.writes.syms ++
      emit ctx (nextOf st.localIdx st.globalIdx) st.strtabOff l ∧
    (st.writeAll ctx l).writes.strings = st.writes.strings ++ emitNames ctx st.strtabOff l := by
  induction l generalizing st with
  | nil => exact ⟨(List.append_nil _).symm, (List.append_nil _).symm⟩
  | cons x l ih =>
    obtain ⟨hsyms, hstrings⟩ := ih (ctx.writeSym x.2 st x.1)
    have hnext : nextOf (ctx.writeSym x.2 st x.1).localIdx (ctx.writeSym x.2 st x.1).globalIdx =
        Function.update (nextOf st.localIdx st.globalIdx) x.2
          (nextOf st.localIdx st.globalIdx x.2 + 1) := by
      funext b
      rw [Context.writeSym]
      cases x.2 <;> cases b <;> simp [nextOf, Function.update]
    have hslot : (if x.2 = true then st.localIdx else st.globalIdx) =
        nextOf st.localIdx st.globalIdx x.2 := by
      cases x.2 <;> rfl
    constructor
    · refine hsyms.trans ?_
      rw [hnext, emit, ← hslot]
      simp [Context.writeSym, nameSize]
    · refine hstrings.trans ?_
      simp [Context.writeSym, emitNames, tile, nameSize]

theorem emit_map_slot (next : Bool → ℕ) (off : ℕ) (l : List (Tagged ι)) :
    (emit ctx next off l).map SymWrite.slot = number Prod.snd next l := by
  induction l generalizing next off with
  | nil => rfl
  | cons x l ih =>
    rw [emit, List.map_cons, ih, number_cons]
    rfl

theorem mem_emit {next : Bool → ℕ} {off : ℕ} {l : List (Tagged ι)} {w : SymWrite ι}
    (hw : w ∈ emit ctx next off l) :
    ∃ x n stName, (x, n) ∈ l.zip (number Prod.snd next l) ∧ w = ctx.symbolWrite x.1 n stName n ∧
      (stName, (ctx.sym x.1.1).name) ∈ emitNames ctx off l := by
  induction l generalizing next off with
  | nil => exact absurd hw List.not_mem_nil
  | cons x l ih =>
    rw [number_cons, List.zip_cons_cons]
    rcases List.mem_cons.mp hw with rfl | hw
    · exact ⟨x, _, off, List.mem_cons_self, rfl, List.mem_cons_self⟩
    · obtain ⟨y, n, stName, hy, heq, hname⟩ := ih hw
      exact ⟨y, n, stName, List.mem_cons_of_mem _ hy, heq, List.mem_cons_of_mem _ hname⟩

namespace Context

variable (ctx : Context ι)

def writtenObject (flags : ι → Bool) (k : ℕ) (file : InputFile ι) : List (Tagged ι) :=
  (file.locals.filter fun p => flags p.1).map (fun p => (p, true)) ++
    (file.globals.filter fun p =>
      (ctx.sym p.1).file = some (.obj k) && flags p.1).map fun p => (p, ctx.isLocal p.1)

end Context

theorem populateObject_eq (flags : ι → Bool) (k : ℕ) (file : InputFile ι)
    (localIdx globalIdx strtabOff : ℕ) :
    (ctx.populateObject flags k file localIdx globalIdx strtabOff).syms =
      emit ctx (nextOf localIdx globalIdx) strtabOff (ctx.writtenObject flags k file) ∧
    (ctx.populateObject flags k file localIdx globalIdx strtabOff).strings =
      emitNames ctx strtabOff (ctx.writtenObject flags k file) := by
  have hlocals : file.locals.foldl (ctx.writeLocal flags)
      { localIdx := localIdx, globalIdx := globalIdx, strtabOff := strtabOff } =
      ((file.locals.filter fun p => flags p.1).map (fun p => (p, true))).foldl
        (fun st (x : Tagged ι) => ctx.writeSym x.2 st x.1)
        { localIdx := localIdx, globalIdx := globalIdx, strtabOff := strtabOff } :=
    foldl_if_map (fun st (x : Tagged ι) => ctx.writeSym x.2 st x.1)
      (fun p : ι × ℕ => flags p.1) (fun p => (p, true)) file.locals _
  have hglobals := foldl_if_map (fun st (x : Tagged ι) => ctx.writeSym x.2 st x.1)
    (fun p => (ctx.sym p.1).file = some (.obj k) && flags p.1)
    (fun p => (p, ctx.isLocal p.1)) file.globals
    (file.locals.foldl (ctx.writeLocal flags)
      { localIdx := localIdx, globalIdx := globalIdx, strtabOff := strtabOff })
  have hall : ctx.populateObject flags k file localIdx globalIdx strtabOff =
      (Populating.writeAll ctx
        { localIdx := localIdx, globalIdx := globalIdx, strtabOff := strtabOff }
        (ctx.writtenObject flags k file)).writes := by
    rw [Populating.writeAll, Context.writtenObject, List.foldl_append, ← hlocals]
    exact congrArg Populating.writes hglobals
  obtain ⟨hsyms, hstrings⟩ := @writeAll_writes _ ctx
    { localIdx := localIdx, globalIdx := globalIdx, strtabOff := strtabOff }
    (ctx.writtenObject flags k file)
  rw [hall, hsyms, hstrings]
  exact ⟨List.nil_append _, List.nil_append _⟩

/-- The symbols that a shared file writes, with the places that are counted for the table
of large indices. -/
def emitShared (ctx : Context ι) (base : ℕ) : ℕ → ℕ → List ((ι × ℕ) × ℕ) → List (SymWrite ι)
  | _, _, [] => []
  | slot, off, p :: l =>
    ctx.symbolWrite p.1 slot off (base + p.2) ::
      emitShared ctx base (slot + 1) (off + nameSize ctx (p.1, false)) l

def Context.writtenShared (ctx : Context ι) (flags : ι → Bool) (k : ℕ)
    (file : InputFile ι) : List ((ι × ℕ) × ℕ) :=
  file.globals.zipIdx.filter fun p => (ctx.sym p.1.1).file = some (.dso k) && flags p.1.1

theorem foldl_writeShared (flags : ι → Bool) (k base : ℕ) (l : List ((ι × ℕ) × ℕ))
    (st : Populating ι) :
    (l.foldl (ctx.writeShared flags k base) st).writes.syms = st.writes.syms ++
      emitShared ctx base st.globalIdx st.strtabOff
        (l.filter fun p => (ctx.sym p.1.1).file = some (.dso k) && flags p.1.1) ∧
    (l.foldl (ctx.writeShared flags k base) st).writes.strings = st.writes.strings ++
      emitNames ctx st.strtabOff ((l.filter fun p =>
        (ctx.sym p.1.1).file = some (.dso k) && flags p.1.1).map fun p => (p.1, false)) := by
  induction l generalizing st with
  | nil => exact ⟨(List.append_nil _).symm, (List.append_nil _).symm⟩
  | cons p l ih =>
    obtain ⟨hsyms, hstrings⟩ := ih (ctx.writeShared flags k base st p)
    rw [List.foldl_cons, List.filter_cons, hsyms, hstrings, Context.writeShared]
    split
    · rw [List.map_cons, emitShared, emitNames, emitNames, tile, List.map_cons]
      exact ⟨List.append_assoc _ _ _, List.append_assoc _ _ _⟩
    · exact ⟨rfl, rfl⟩

theorem populateShared_eq (flags : ι → Bool) (k : ℕ) (file : InputFile ι)
    (globalIdx strtabOff : ℕ) :
    (ctx.populateShared flags k file globalIdx strtabOff).syms =
      emitShared ctx globalIdx globalIdx strtabOff (ctx.writtenShared flags k file) ∧
    (ctx.populateShared flags k file globalIdx strtabOff).strings =
      emitNames ctx strtabOff ((ctx.writtenShared flags k file).map fun p => (p.1, false)) := by
  obtain ⟨hsyms, hstrings⟩ := @foldl_writeShared _ ctx flags k globalIdx file.globals.zipIdx
    { localIdx := 0, globalIdx := globalIdx, strtabOff := strtabOff }
  exact ⟨hsyms.trans (List.nil_append _), hstrings.trans (List.nil_append _)⟩

theorem emitShared_map_slot (base slot off : ℕ) (l : List ((ι × ℕ) × ℕ)) :
    (emitShared ctx base slot off l).map SymWrite.slot = List.range' slot l.length := by
  induction l generalizing slot off with
  | nil => rfl
  | cons p l ih =>
    rw [emitShared, List.map_cons, ih, List.length_cons, List.range'_succ]
    rfl

theorem mem_emitShared {base slot off : ℕ} {l : List ((ι × ℕ) × ℕ)} {w : SymWrite ι}
    (hw : w ∈ emitShared ctx base slot off l) :
    ∃ front p back stName, l = front ++ p :: back ∧
      w = ctx.symbolWrite p.1 (slot + front.length) stName (base + p.2) ∧
      (stName, (ctx.sym p.1.1).name) ∈ emitNames ctx off (l.map fun p => (p.1, false)) := by
  induction l generalizing slot off with
  | nil => exact absurd hw List.not_mem_nil
  | cons p l ih =>
    rcases List.mem_cons.mp hw with rfl | hw
    · exact ⟨[], p, l, off, rfl, rfl, List.mem_cons_self⟩
    · obtain ⟨front, q, back, stName, hl, heq, hname⟩ := ih hw
      refine ⟨p :: front, q, back, stName, by rw [hl]; rfl, ?_, List.mem_cons_of_mem _ hname⟩
      rw [heq, List.length_cons, Nat.add_right_comm, Nat.add_assoc]

end Mold.Elf.Symtab
