import Mold.MachO.ScanRelocations
import Mold.MachO.SymtabPartition

/-!
# The indirect symbol table

Every slot of `__got`, `__thread_ptrs`, `__stubs` and `__la_symbol_ptr` has an
entry in the indirect symbol table, at `reserved1` of its section plus the
number of the slot.  `scan_relocations` decides which symbols get slots, and
`compute_symtab_size` decides which symbols get an entry in the symbol table.

An exported symbol with a slot is written as its `output_symtab_idx`, whatever
that is.  A dylib only keeps symbols with a stub or a GOT slot, and an object
file keeps neither private labels nor symbols of dead subsections.  The main
theorem says that the indirect table is valid exactly if no exported symbol
with a slot is among those.
-/

namespace Mold.MachO.IndirectSymtab

open Mold.Lib Mold.MachO.Symtab

variable {τ : Type*}

/-- A link before `scan_relocations` gives the symbols their slots.  The fields
`hasStub` and `hasGot` of its symbols have no meaning yet. -/
structure Link (τ : Type*) where
  base : Context τ
  flags : τ → SymbolFlags
  bindAtLoad : Bool := false
  fixupChains : Bool := false

def indirectSymbolLocal : ℕ := 0x80000000

def indirectSymbolAbs : ℕ := 0x40000000

namespace Link

variable [DecidableEq τ] (L : Link τ)

/-! ## Slots -/

/-- The symbols that the second half of `scan_relocations` visits. -/
def scanned : List τ :=
  L.base.files.flatMap fun file =>
    file.syms.reduceOption.filter fun s =>
      (L.base.sym s).file == some file.ref

def tables : SlotTables τ :=
  SlotTables.scan (L.bindAtLoad || L.fixupChains) L.flags L.scanned

def ctx : Context τ :=
  { L.base with
    sym := fun s => { L.base.sym s with
      hasStub := L.tables.stubs.has s
      hasGot := L.tables.got.has s } }

/-- `reserved1` of `__thread_ptrs`.  That of `__got` is 0. -/
def threadPtrsReserved1 : ℕ := L.tables.got.syms.length

def stubsReserved1 : ℕ :=
  L.threadPtrsReserved1 + L.tables.threadPtrs.syms.length

/-- `reserved1` of `__la_symbol_ptr`. -/
def lazySymbolPtrReserved1 : ℕ :=
  L.stubsReserved1 + L.tables.stubs.syms.length

/-- The lambda `get_idx` of `IndirectSymtabSection::copy_buf`. -/
def getIdx (s : τ) : ℕ :=
  let sym := L.ctx.sym s
  if sym.isAbs ∧ sym.visibility ≠ .scopeGlobal then
    indirectSymbolAbs ||| indirectSymbolLocal
  else if sym.isAbs then
    indirectSymbolAbs
  else if sym.visibility ≠ .scopeGlobal then
    indirectSymbolLocal
  else
    (L.ctx.outputSymtabIdx s % 2 ^ 32).toNat

/-- The entries that `copy_buf` writes.  There are lazy pointers unless the
fixups are chained. -/
def entries : List ℕ :=
  L.tables.got.syms.map L.getIdx ++ L.tables.threadPtrs.syms.map L.getIdx ++
    L.tables.stubs.syms.map L.getIdx ++
    if L.fixupChains then [] else L.tables.stubs.syms.map L.getIdx

/-- An entry for a slot of `s` is a marker, if `s` is absolute or not exported,
or the index of an entry of the symbol table with the name of `s`. -/
def ValidEntry (s : τ) (e : ℕ) : Prop :=
  let sym := L.ctx.sym s
  (sym.isAbs = true ∧ sym.visibility ≠ .scopeGlobal ∧
      e = indirectSymbolAbs ||| indirectSymbolLocal) ∨
    (sym.isAbs = true ∧ sym.visibility = .scopeGlobal ∧ e = indirectSymbolAbs) ∨
    (sym.isAbs = false ∧ sym.visibility ≠ .scopeGlobal ∧ e = indirectSymbolLocal) ∨
    (e < L.ctx.numSymbols ∧ ∃ entry, L.ctx.symtab[e]? = some entry ∧
      sym.name ++ [0] <+: L.ctx.strtab.drop entry.stroff)

/-- The entries from `reserved1` on are valid for the slots of a table. -/
def ValidSection (reserved1 : ℕ) (table : SlotTable τ) : Prop :=
  ∀ slot s, table.syms[slot]? = some s →
    ∃ e, L.entries[reserved1 + slot]? = some e ∧ L.ValidEntry s e

structure Valid : Prop where
  got : L.ValidSection 0 L.tables.got
  threadPtrs : L.ValidSection L.threadPtrsReserved1 L.tables.threadPtrs
  stubs : L.ValidSection L.stubsReserved1 L.tables.stubs
  lazySymbolPtr : L.fixupChains = false → L.ValidSection L.lazySymbolPtrReserved1 L.tables.stubs

/-- Every exported symbol with a slot gets an entry in the symbol table: a
dylib symbol needs more than a thread pointer, and a symbol of an object file
is neither dead nor a private label. -/
def SlotsNamed : Prop :=
  ∀ file ∈ L.base.files, ∀ s, some s ∈ file.syms → (L.base.sym s).file = some file.ref →
    ((L.flags s).needsGot || (L.flags s).needsStub ||
      (L.flags s).needsThreadPtr) = true →
    (L.base.sym s).visibility = .scopeGlobal → (L.base.sym s).isAbs = false →
      if file.ref.isDylib then
        ((L.flags s).needsGot || (L.flags s).needsStub) = true
      else
        (L.base.sym s).subsec.all Subsec.isAlive = true ∧ L.base.isPrivateLabel s = false

variable {L} {s : τ}

omit [DecidableEq τ] in
theorem mem_scanned :
    s ∈ L.scanned ↔ ∃ file ∈ L.base.files, some s ∈ file.syms ∧
      (L.base.sym s).file = some file.ref := by
  simp only [scanned, List.mem_flatMap, List.mem_filter, List.reduceOption_mem_iff, beq_iff_eq]

theorem validSection_iff {reserved1 : ℕ} {table : SlotTable τ}
    {front back : List ℕ} (hlen : front.length = reserved1)
    (hentries : L.entries = front ++ table.syms.map L.getIdx ++ back) :
    L.ValidSection reserved1 table ↔ ∀ s ∈ table.syms, L.ValidEntry s (L.getIdx s) := by
  have hget : ∀ slot s, table.syms[slot]? = some s →
      L.entries[reserved1 + slot]? = some (L.getIdx s) := by
    intro slot s hs
    have hlt := (List.getElem?_eq_some_iff.mp hs).1
    rw [hentries, List.append_assoc, ← hlen, List.getElem?_append_right (Nat.le_add_right _ _),
      Nat.add_sub_cancel_left,
      List.getElem?_append_left (by rwa [List.length_map]), List.getElem?_map,
      hs]
    rfl
  constructor
  · intro h s hs
    obtain ⟨slot, hslot⟩ := List.getElem?_of_mem hs
    obtain ⟨e, he, hvalid⟩ := h slot s hslot
    rw [hget slot s hslot, Option.some_inj] at he
    rwa [he]
  · intro h slot s hs
    exact ⟨_, hget slot s hs, h s (List.mem_of_getElem? hs)⟩

theorem valid_iff : L.Valid ↔ ∀ s ∈ L.tables.got.syms ++
    L.tables.threadPtrs.syms ++ L.tables.stubs.syms, L.ValidEntry s (L.getIdx s) := by
  have hgot : L.ValidSection 0 L.tables.got ↔
      ∀ s ∈ L.tables.got.syms, L.ValidEntry s (L.getIdx s) := by
    apply validSection_iff List.length_nil
    rw [entries, List.nil_append, List.append_assoc, List.append_assoc]
  have hthreadPtrs : L.ValidSection L.threadPtrsReserved1 L.tables.threadPtrs ↔
      ∀ s ∈ L.tables.threadPtrs.syms, L.ValidEntry s (L.getIdx s) := by
    apply validSection_iff (List.length_map L.getIdx)
    rw [entries, List.append_assoc (_ ++ _)]
  have hstubs : L.ValidSection L.stubsReserved1 L.tables.stubs ↔
      ∀ s ∈ L.tables.stubs.syms, L.ValidEntry s (L.getIdx s) := by
    have hlen : (L.tables.got.syms.map L.getIdx ++
        L.tables.threadPtrs.syms.map L.getIdx).length = L.stubsReserved1 := by
      rw [List.length_append, List.length_map, List.length_map]
      rfl
    exact validSection_iff hlen rfl
  have hlazy (hchains : L.fixupChains = false) :
      L.ValidSection L.lazySymbolPtrReserved1 L.tables.stubs ↔
        ∀ s ∈ L.tables.stubs.syms, L.ValidEntry s (L.getIdx s) := by
    have hlen : (L.tables.got.syms.map L.getIdx ++ L.tables.threadPtrs.syms.map L.getIdx ++
        L.tables.stubs.syms.map L.getIdx).length = L.lazySymbolPtrReserved1 := by
      simp only [List.length_append, List.length_map]
      rfl
    have hentries : L.entries = L.tables.got.syms.map L.getIdx ++
        L.tables.threadPtrs.syms.map L.getIdx ++
        L.tables.stubs.syms.map L.getIdx ++
        L.tables.stubs.syms.map L.getIdx ++ [] := by
      simp [entries, hchains]
    exact validSection_iff hlen hentries
  simp only [List.forall_mem_append]
  constructor
  · intro h
    exact ⟨⟨hgot.mp h.got, hthreadPtrs.mp h.threadPtrs⟩, hstubs.mp h.stubs⟩
  · rintro ⟨⟨h₁, h₂⟩, h₃⟩
    exact ⟨hgot.mpr h₁, hthreadPtrs.mpr h₂, hstubs.mpr h₃,
      fun hchains => (hlazy hchains).mpr h₃⟩

theorem mem_slots :
    s ∈ L.tables.got.syms ++ L.tables.threadPtrs.syms ++ L.tables.stubs.syms ↔
      s ∈ L.scanned ∧ ((L.flags s).needsGot || (L.flags s).needsStub ||
        (L.flags s).needsThreadPtr) = true := by
  simp only [List.mem_append, tables, SlotTables.mem_got_scan,
    SlotTables.mem_threadPtrs_scan, SlotTables.mem_stubs_scan, Bool.or_eq_true]
  tauto

theorem validEntry_getIdx_iff (h : L.ctx.WellFormed) (hsize : L.ctx.numSymbols < 2 ^ 32) :
    L.ValidEntry s (L.getIdx s) ↔
      ((L.base.sym s).visibility = .scopeGlobal →
        (L.base.sym s).isAbs = false → s ∈ L.ctx.allKept) := by
  have hpart := Context.partitioned_of_wellFormed h
  have hvis : (L.ctx.sym s).visibility = (L.base.sym s).visibility := rfl
  have habs : (L.ctx.sym s).isAbs = (L.base.sym s).isAbs := rfl
  by_cases hglobal : (L.base.sym s).visibility = .scopeGlobal
  · cases hisAbs : (L.base.sym s).isAbs with
    | true =>
      simp [ValidEntry, getIdx, hvis, habs, hglobal, hisAbs]
    | false =>
      have hget : L.getIdx s = (L.ctx.outputSymtabIdx s % 2 ^ 32).toNat := by
        simp [getIdx, hvis, habs, hglobal, hisAbs]
      rw [hget]
      by_cases hkept : s ∈ L.ctx.allKept
      · obtain ⟨n, hn, hidx, hentry⟩ := hpart.exists_symtab_entry hkept
        have hmod : (L.ctx.outputSymtabIdx s % 2 ^ 32).toNat = n := by
          rw [hidx, Int.ofNat_eq_natCast]
          omega
        rw [hmod]
        exact ⟨fun _ _ _ => hkept,
          fun _ => Or.inr (Or.inr (Or.inr ⟨hn, hentry⟩))⟩
      · rw [h.outputSymtabIdx_eq.2 s hkept]
        constructor
        · rintro (⟨ha, -⟩ | ⟨ha, -⟩ | ⟨-, hg, -⟩ | ⟨hlt, -⟩)
          · rw [habs, hisAbs] at ha
            exact absurd ha (by decide)
          · rw [habs, hisAbs] at ha
            exact absurd ha (by decide)
          · exact absurd hglobal hg
          · have hend : ((-1 : ℤ) % 2 ^ 32).toNat = 2 ^ 32 - 1 := by decide
            rw [hend] at hlt
            omega
        · intro hall
          exact absurd (hall hglobal rfl) hkept
  · cases hisAbs : (L.base.sym s).isAbs <;>
      simp [ValidEntry, getIdx, hvis, habs, hglobal, hisAbs]

theorem mem_allKept_iff {file : InputFile τ} (hfile : file ∈ L.base.files)
    (hs : some s ∈ file.syms) (howner : (L.base.sym s).file = some file.ref)
    (hglobal : (L.base.sym s).visibility = .scopeGlobal) :
    s ∈ L.ctx.allKept ↔
      if file.ref.isDylib then
        ((L.flags s).needsGot || (L.flags s).needsStub) = true
      else
        (L.base.sym s).subsec.all Subsec.isAlive = true ∧ L.base.isPrivateLabel s = false := by
  have hscanned : s ∈ L.scanned := mem_scanned.mpr ⟨file, hfile, hs, howner⟩
  have hkeeps : s ∈ L.ctx.allKept ↔ L.ctx.keeps file s = true := by
    rw [Context.allKept, List.mem_flatMap]
    constructor
    · rintro ⟨other, hother, hkept⟩
      obtain ⟨-, hkeeps⟩ := Context.mem_kept.mp hkept
      have href := Context.file_eq_of_keeps hkeeps
      have howner' : (L.ctx.sym s).file = some file.ref := howner
      rw [howner', Option.some_inj] at href
      have heq : file = other := L.ctx.file_unique hfile hother href
      rwa [heq]
    · exact fun hkeeps => ⟨file, hfile, Context.mem_kept.mpr ⟨hs, hkeeps⟩⟩
  rw [hkeeps, Context.keeps]
  split
  · have hstub : (L.ctx.sym s).hasStub = (L.flags s).needsStub := by
      have hmem : s ∈ L.tables.stubs.syms ↔ (L.flags s).needsStub = true := by
        simp [tables, SlotTables.mem_stubs_scan, hscanned]
      exact Bool.eq_iff_iff.mpr (decide_eq_true_iff.trans hmem)
    have hgot : (L.ctx.sym s).hasGot = true ↔ ((L.flags s).needsGot = true ∨
        (L.flags s).needsStub = true ∧ (L.bindAtLoad || L.fixupChains) = true) := by
      have hmem : (L.ctx.sym s).hasGot = true ↔ s ∈ L.tables.got.syms :=
        decide_eq_true_iff
      rw [hmem, tables, SlotTables.mem_got_scan]
      exact and_iff_right hscanned
    have howner' : (L.ctx.sym s).file = some file.ref := howner
    rw [Context.dylibKeeps, howner', hstub, Bool.and_eq_true, Bool.or_eq_true,
      Bool.or_eq_true, hgot]
    simp only [beq_self_eq_true, true_and]
    tauto
  · have howner' : (L.ctx.sym s).file = some file.ref := howner
    have hvisible : ((L.ctx.sym s).visibility == .scopeLocal) = false := by
      have hvis : (L.ctx.sym s).visibility = .scopeGlobal := hglobal
      rw [hvis]
      rfl
    rw [Context.objectKeeps, howner', hvisible]
    simp only [beq_self_eq_true, Bool.true_and, Bool.and_false, Bool.not_false,
      Bool.and_true, Bool.and_eq_true, Bool.not_eq_true']
    rfl

/-- The indirect symbol table is valid if and only if every exported symbol
with a slot gets an entry in the symbol table. -/
theorem valid_iff_slotsNamed (L : Link τ) (h : L.ctx.WellFormed)
    (hsize : L.ctx.numSymbols < 2 ^ 32) : L.Valid ↔ L.SlotsNamed := by
  rw [valid_iff]
  constructor
  · intro hvalid file hfile s hs howner hflags hglobal habs
    have hslot := mem_slots.mpr
      ⟨mem_scanned.mpr ⟨file, hfile, hs, howner⟩, hflags⟩
    have hkept := (validEntry_getIdx_iff h hsize).mp (hvalid s hslot) hglobal habs
    exact (mem_allKept_iff hfile hs howner hglobal).mp hkept
  · intro hnamed s hslot
    obtain ⟨hscanned, hflags⟩ := mem_slots.mp hslot
    obtain ⟨file, hfile, hs, howner⟩ := mem_scanned.mp hscanned
    refine (validEntry_getIdx_iff h hsize).mpr fun hglobal habs => ?_
    exact (mem_allKept_iff hfile hs howner hglobal).mpr
      (hnamed file hfile s hs howner hflags hglobal habs)

end Link

/-- A link that calls one symbol of a dylib, and needs a thread pointer for
another one. -/
def threadLocalLink (needsGot : Bool) : Link (Fin 4) where
  base := sampleLink true [some 0, none, some 1]
  flags
    | 2 => { needsStub := true }
    | 3 => { needsThreadPtr := true, needsGot := needsGot }
    | _ => {}

theorem threadLocalLink_valid : (threadLocalLink true).Valid :=
  (Link.valid_iff_slotsNamed (threadLocalLink true) ⟨by decide, by decide⟩
    (by decide)).mpr (by unfold Link.SlotsNamed; decide)

/-- An imported symbol with nothing but a thread pointer has no entry in the
symbol table, and `-1` is written for its slot. -/
theorem threadLocalLink_not_valid : ¬ (threadLocalLink false).Valid := by
  intro h
  have hentry := Link.valid_iff.mp h 3 (by decide)
  have hidx : (threadLocalLink false).getIdx 3 = 0xffffffff := by decide
  rw [hidx] at hentry
  rcases hentry with ⟨habs, -⟩ | ⟨habs, -⟩ | ⟨-, hlocal, -⟩ | ⟨hlt, -⟩
  · exact absurd habs (by decide)
  · exact absurd habs (by decide)
  · exact hlocal rfl
  · exact absurd hlt (by decide)

end Mold.MachO.IndirectSymtab
