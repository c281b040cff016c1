import Mathlib.Data.Fintype.Card
import Mathlib.Data.List.Range
import Mold.Lib.BitField
import Mold.MachO.ScanRelocations

/-!
# Rebasing without chained fixups

`RebaseSection::compute_size` lists the pointers that the loader has to slide.
The pointers themselves are written by `apply_reloc` and by the `copy_buf`
functions of the GOT, of the thread pointers and of the lazy symbol pointers.
The two sides agree if no stub symbol has a GOT slot, no pointer is relocated
against an absolute symbol and all offsets fit into 32 bits.
-/

namespace Mold.MachO.Rebase

open Mold.Lib

structure Location where
  segIdx : ℕ
  offset : ℤ
  deriving DecidableEq, Repr

structure OutputSegment where
  segIdx : ℕ
  vmaddr : ℕ

def OutputSegment.location (seg : OutputSegment) (addr : ℕ) : Location :=
  ⟨seg.segIdx, (addr : ℤ) - seg.vmaddr⟩

/-- What rebasing reads of a symbol.  `sectionType` is the type of the section
that its subsection comes from. -/
structure RebaseSymbol where
  isImported : Bool := false
  isAbs : Bool := false
  sectionType : Option ℕ := none

/-- A relocation; `sym` is `none` if the target is a subsection. -/
structure Relocation (τ : Type*) where
  type : ℕ := 0
  sym : Option τ
  offset : ℕ
  isSubtracted : Bool := false

/-- `E::abs_rel`, which is `X86_64_RELOC_UNSIGNED` or `ARM64_RELOC_UNSIGNED`. -/
def absRel : ℕ := 0

def threadLocalRegular : ℕ := 0x11

def threadLocalZerofill : ℕ := 0x12

structure Subsection (τ : Type*) where
  isAlive : Bool := true
  seg : OutputSegment
  addr : ℕ
  rels : List (Relocation τ)

/-- What `RebaseSection::compute_size` and the writers of pointers read of the
context.  `syms` are the symbols in the order of `scan_relocations`. -/
structure Context (τ : Type*) where
  sym : τ → RebaseSymbol
  objs : List (List (Subsection τ))
  syms : List τ
  flags : τ → SymbolFlags
  bindAtLoad : Bool := false
  wordSize : ℕ := 8
  gotAddr : ℕ
  lazySymbolPtrAddr : ℕ
  threadPtrsAddr : ℕ
  stubHelperAddr : ℕ
  stubHelperHdrSize : ℕ := 16
  stubHelperSize : ℕ := 10
  dataSeg : OutputSegment
  dataConstSeg : OutputSegment

namespace Context

variable {τ : Type*} [DecidableEq τ] (ctx : Context τ)

def tables : SlotTables τ :=
  .scan ctx.bindAtLoad ctx.flags ctx.syms

def liveRels : List (Subsection τ × Relocation τ) :=
  (ctx.objs.flatten.filter Subsection.isAlive).flatMap fun subsec =>
    subsec.rels.map fun rel => (subsec, rel)

end Context

/-! ## The listed locations -/

/-- A pointer of the output: an `absRel` relocation or a slot of one of the
three tables. -/
inductive Pointer (τ : Type*) where
  | rel (subsec : Subsection τ) (rel : Relocation τ)
  | lazySymbolPtr (i : ℕ)
  | got (i : ℕ)
  | threadPtr (i : ℕ)

namespace Context

variable {τ : Type*} [DecidableEq τ] (ctx : Context τ)

def location : Pointer τ → Location
  | .rel subsec rel => subsec.seg.location (subsec.addr + rel.offset)
  | .lazySymbolPtr i =>
    ctx.dataSeg.location (ctx.lazySymbolPtrAddr + i * ctx.wordSize)
  | .got i => ctx.dataConstSeg.location (ctx.gotAddr + i * ctx.wordSize)
  | .threadPtr i => ctx.dataSeg.location (ctx.threadPtrsAddr + i * ctx.wordSize)

def isImported (rel : Relocation τ) : Bool :=
  rel.sym.any fun s => (ctx.sym s).isImported

def isAbs (rel : Relocation τ) : Bool :=
  rel.sym.any fun s => (ctx.sym s).isAbs

def refersToTls (rel : Relocation τ) : Bool :=
  rel.sym.any fun s => (ctx.sym s).sectionType.any fun type =>
    type == threadLocalRegular || type == threadLocalZerofill

def needsRebasing (rel : Relocation τ) : Bool :=
  if rel.type ≠ absRel then false
  else if rel.isSubtracted then false
  else if ctx.isImported rel then false
  else if ctx.refersToTls rel then false
  else true

/-- The constructor of `RebaseEntry`, which has an offset of 32 bits. -/
def rebaseEntry (loc : Location) : Location :=
  { loc with offset := BitField.toSigned 32 (loc.offset % 2 ^ 32).toNat }

/-- The loop of `compute_size` over the stubs, with its counter. -/
def lazyRebases : ℕ → List τ → List (Pointer τ)
  | _, [] => []
  | i, sym :: stubs =>
    if ctx.tables.got.has sym then lazyRebases i stubs
    else .lazySymbolPtr i :: lazyRebases (i + 1) stubs

def slotRebases (table : SlotTable τ) (slot : ℕ → Pointer τ) : List (Pointer τ) :=
  (table.syms.filter fun s => !(ctx.sym s).isImported).map fun s =>
    slot (table.idx s)

/-- The pointers for which `RebaseSection::compute_size` makes entries. -/
def rebasedPointers : List (Pointer τ) :=
  ((ctx.liveRels.filter fun p => ctx.needsRebasing p.2).map fun p => .rel p.1 p.2) ++
  ctx.lazyRebases 0 ctx.tables.stubs.syms ++
  ctx.slotRebases ctx.tables.got .got ++
  ctx.slotRebases ctx.tables.threadPtrs .threadPtr

/-- The entries of `RebaseSection::compute_size`. -/
def rebases : List Location :=
  ctx.rebasedPointers.map fun x => rebaseEntry (ctx.location x)

/-! ## The addresses in the image -/

/-- `LazySymbolPtrSection::copy_buf`: the slots that it fills, and the
addresses of the stub-helper entries that it stores there. -/
def lazySymbolPtrStores : List (ℕ × ℕ) :=
  (List.range ctx.tables.stubs.syms.length).map fun i =>
    (i, ctx.stubHelperAddr + ctx.stubHelperHdrSize + ctx.stubHelperSize * i)

/-- The slots that `GotSection::copy_buf` and `ThreadPtrsSection::copy_buf`
fill. -/
def slotStores (table : SlotTable τ) : List ℕ :=
  (List.range table.syms.length).filter fun i =>
    table.syms[i]?.any fun s => !(ctx.sym s).isImported

def storesAddress (rel : Relocation τ) : Prop :=
  rel.type = absRel ∧ rel.isSubtracted = false ∧ ctx.isImported rel = false ∧
    ctx.isAbs rel = false ∧ ctx.refersToTls rel = false

def HoldsAddress : Pointer τ → Prop
  | .rel subsec rel => (subsec, rel) ∈ ctx.liveRels ∧ ctx.storesAddress rel
  | .lazySymbolPtr i => ∃ entry, (i, entry) ∈ ctx.lazySymbolPtrStores
  | .got i => i ∈ ctx.slotStores ctx.tables.got
  | .threadPtr i => i ∈ ctx.slotStores ctx.tables.threadPtrs

def RebaseCovers : Prop :=
  ∀ loc, loc ∈ ctx.rebases ↔ ∃ x, ctx.HoldsAddress x ∧ ctx.location x = loc

def IsPointer : Pointer τ → Prop
  | .rel subsec rel => (subsec, rel) ∈ ctx.liveRels ∧ rel.type = absRel
  | .lazySymbolPtr i => i < ctx.tables.stubs.syms.length
  | .got i => i < ctx.tables.got.syms.length
  | .threadPtr i => i < ctx.tables.threadPtrs.syms.length

end Context

/-- A context behind the layout, which gives the sections disjoint places.  An
object file does not relocate a pointer twice. -/
structure Link (τ : Type*) [DecidableEq τ] extends Context τ where
  distinct : ∀ x y, toContext.IsPointer x → toContext.IsPointer y →
    toContext.location x = toContext.location y → x = y

/-! ## Entries and locations -/

def Location.Fits (loc : Location) : Prop :=
  -2 ^ 31 ≤ loc.offset ∧ loc.offset < 2 ^ 31

theorem fits_rebaseEntry (loc : Location) : (Context.rebaseEntry loc).Fits := by
  simp only [Location.Fits, Context.rebaseEntry, BitField.toSigned]
  split <;> omega

theorem rebaseEntry_eq {loc : Location} (h : loc.Fits) : Context.rebaseEntry loc = loc := by
  obtain ⟨segIdx, offset⟩ := loc
  simp only [Location.Fits] at h
  simp only [Context.rebaseEntry, BitField.toSigned, Location.mk.injEq, true_and]
  split <;> omega

namespace Context

variable {τ : Type*} {ctx : Context τ}

theorem storesAddress_iff {rel : Relocation τ} :
    ctx.storesAddress rel ↔ ctx.needsRebasing rel = true ∧ ctx.isAbs rel = false := by
  simp only [storesAddress, needsRebasing]
  split <;> simp_all
  tauto

variable [DecidableEq τ]

theorem lazyRebases_eq (i : ℕ) (stubs : List τ) :
    ctx.lazyRebases i stubs =
      (List.range (stubs.countP fun s => !ctx.tables.got.has s)).map fun j =>
        .lazySymbolPtr (i + j) := by
  induction stubs generalizing i with
  | nil => rfl
  | cons sym stubs ih =>
    rw [lazyRebases]
    by_cases h : ctx.tables.got.has sym = true
    · rw [if_pos h, ih, List.countP_cons_of_neg (by simp [h])]
    · rw [if_neg h, ih, List.countP_cons_of_pos (by simpa using h),
        List.range_succ_eq_map, List.map_cons, List.map_map]
      simp only [Nat.add_zero, List.cons.injEq, true_and]
      apply List.map_congr_left
      intro j _
      simp only [Function.comp_apply]
      congr 1
      omega

variable {x : Pointer τ}

theorem mem_slotRebases {table : SlotTable τ} {slot : ℕ → Pointer τ} :
    x ∈ ctx.slotRebases table slot ↔ ∃ i ∈ ctx.slotStores table, slot i = x := by
  simp only [slotRebases, slotStores, List.mem_map, List.mem_filter, List.mem_range]
  constructor
  · rintro ⟨s, ⟨hs, hp⟩, rfl⟩
    have hlt := SlotTable.idx_lt hs
    have hget : table.syms[table.idx s]? = some s := by
      rw [List.getElem?_eq_getElem hlt]
      simp [SlotTable.idx]
    refine ⟨table.idx s, ⟨hlt, ?_⟩, rfl⟩
    rw [hget]
    exact hp
  · rintro ⟨i, ⟨hi, hp⟩, rfl⟩
    have hget := List.getElem?_eq_getElem hi
    rw [hget] at hp
    exact ⟨table.syms[i], ⟨List.getElem_mem hi, hp⟩, by rw [SlotTable.idx_eq hget]⟩

theorem mem_rebasedPointers :
    x ∈ ctx.rebasedPointers ↔
      match x with
      | .rel subsec rel =>
        (subsec, rel) ∈ ctx.liveRels ∧ ctx.needsRebasing rel = true
      | .lazySymbolPtr i =>
        i < ctx.tables.stubs.syms.countP fun s => !ctx.tables.got.has s
      | .got i => i ∈ ctx.slotStores ctx.tables.got
      | .threadPtr i => i ∈ ctx.slotStores ctx.tables.threadPtrs := by
  rw [rebasedPointers, List.mem_append, List.mem_append, List.mem_append,
    mem_slotRebases, mem_slotRebases, lazyRebases_eq]
  cases x <;> simp

theorem mem_lazySymbolPtrStores {i : ℕ} :
    (∃ entry, (i, entry) ∈ ctx.lazySymbolPtrStores) ↔ i < ctx.tables.stubs.syms.length := by
  simp [lazySymbolPtrStores]

theorem HoldsAddress.isPointer (h : ctx.HoldsAddress x) : ctx.IsPointer x := by
  cases x with
  | rel subsec rel => exact ⟨h.1, h.2.1⟩
  | lazySymbolPtr i => exact mem_lazySymbolPtrStores.mp h
  | got i => exact List.mem_range.mp (List.mem_filter.mp h).1
  | threadPtr i => exact List.mem_range.mp (List.mem_filter.mp h).1

/-! ## When the lists agree -/

/-- No stub symbol has a GOT slot, no pointer is relocated against an absolute
symbol, and the offsets of all addresses fit into 32 bits. -/
structure RebaseSound (ctx : Context τ) : Prop where
  ownSlots : ∀ s ∈ ctx.syms, (ctx.flags s).needsStub = true →
    (ctx.flags s).needsGot = false ∧ ctx.bindAtLoad = false
  noAbs : ∀ p ∈ ctx.liveRels, ctx.needsRebasing p.2 = true → ctx.isAbs p.2 = false
  fits : ∀ x, ctx.HoldsAddress x → (ctx.location x).Fits

theorem ownSlots_iff :
    (∀ s ∈ ctx.syms, (ctx.flags s).needsStub = true →
      (ctx.flags s).needsGot = false ∧ ctx.bindAtLoad = false) ↔
    ∀ s ∈ ctx.tables.stubs.syms, ctx.tables.got.has s = false := by
  simp only [tables, SlotTables.mem_stubs_scan, SlotTable.has, SlotTables.mem_got_scan,
    decide_eq_false_iff_not]
  constructor
  · rintro h s ⟨hs, hstub⟩ ⟨-, hgot | ⟨-, hbind⟩⟩
    · simp [(h s hs hstub).1] at hgot
    · simp [(h s hs hstub).2] at hbind
  · intro h s hs hstub
    have hnot := h s ⟨hs, hstub⟩
    simpa [hs, hstub] using hnot

theorem countP_stubs_eq_length_iff :
    (ctx.tables.stubs.syms.countP fun s => !ctx.tables.got.has s) = ctx.tables.stubs.syms.length ↔
      ∀ s ∈ ctx.syms, (ctx.flags s).needsStub = true →
        (ctx.flags s).needsGot = false ∧ ctx.bindAtLoad = false := by
  rw [ownSlots_iff, List.countP_eq_length]
  simp

theorem rebaseCovers_of_sound (h : ctx.RebaseSound) : ctx.RebaseCovers := by
  have hlisted (x : Pointer τ) : x ∈ ctx.rebasedPointers ↔ ctx.HoldsAddress x := by
    rw [mem_rebasedPointers]
    cases x with
    | rel subsec rel =>
      constructor
      · rintro ⟨hmem, hneeds⟩
        exact ⟨hmem, storesAddress_iff.mpr ⟨hneeds, h.noAbs _ hmem hneeds⟩⟩
      · rintro ⟨hmem, hstores⟩
        exact ⟨hmem, (storesAddress_iff.mp hstores).1⟩
    | lazySymbolPtr i =>
      rw [HoldsAddress, mem_lazySymbolPtrStores, countP_stubs_eq_length_iff.mpr h.ownSlots]
    | got i => exact Iff.rfl
    | threadPtr i => exact Iff.rfl
  intro loc
  rw [rebases, List.mem_map]
  constructor
  · rintro ⟨x, hx, rfl⟩
    have haddr := (hlisted x).mp hx
    exact ⟨x, haddr, (rebaseEntry_eq (h.fits x haddr)).symm⟩
  · rintro ⟨x, haddr, rfl⟩
    exact ⟨x, (hlisted x).mpr haddr, rebaseEntry_eq (h.fits x haddr)⟩

end Context

namespace Link

variable {τ : Type*} [DecidableEq τ] {L : Link τ} {x : Pointer τ}

theorem isPointer_of_mem_rebasedPointers (hx : x ∈ L.rebasedPointers) : L.IsPointer x := by
  rw [Context.mem_rebasedPointers] at hx
  cases x with
  | rel subsec rel =>
    refine ⟨hx.1, ?_⟩
    by_contra htype
    simp [Context.needsRebasing, htype] at hx
  | lazySymbolPtr i => exact lt_of_lt_of_le hx List.countP_le_length
  | got i => exact Context.HoldsAddress.isPointer (x := .got i) hx
  | threadPtr i => exact Context.HoldsAddress.isPointer (x := .threadPtr i) hx

theorem fits_of_holdsAddress (hcovers : L.RebaseCovers)
    (hx : L.HoldsAddress x) : (L.location x).Fits := by
  obtain ⟨y, -, hy⟩ := List.mem_map.mp ((hcovers _).mpr ⟨x, hx, rfl⟩)
  rw [← hy]
  exact fits_rebaseEntry _

section Necessity

variable (habs : ∀ p ∈ L.liveRels, L.isAbs p.2 = true → (L.location (.rel p.1 p.2)).Fits)

include habs

theorem fits_of_mem_rebasedPointers (hcovers : L.RebaseCovers)
    (hx : x ∈ L.rebasedPointers) : (L.location x).Fits := by
  have hpointer := isPointer_of_mem_rebasedPointers hx
  rw [Context.mem_rebasedPointers] at hx
  cases x with
  | rel subsec rel =>
    cases hrel : L.isAbs rel with
    | true => exact habs _ hx.1 hrel
    | false =>
      exact fits_of_holdsAddress hcovers
        ⟨hx.1, Context.storesAddress_iff.mpr ⟨hx.2, hrel⟩⟩
  | lazySymbolPtr i =>
    exact fits_of_holdsAddress hcovers (Context.mem_lazySymbolPtrStores.mpr hpointer)
  | got i => exact fits_of_holdsAddress (x := .got i) hcovers hx
  | threadPtr i => exact fits_of_holdsAddress (x := .threadPtr i) hcovers hx

theorem mem_rebasedPointers_of_mem_rebases (hcovers : L.RebaseCovers)
    (hx : L.IsPointer x) (hmem : L.location x ∈ L.rebases) :
    x ∈ L.rebasedPointers := by
  obtain ⟨y, hy, hloc⟩ := List.mem_map.mp hmem
  rw [rebaseEntry_eq (fits_of_mem_rebasedPointers habs hcovers hy)] at hloc
  rwa [← L.distinct y x (isPointer_of_mem_rebasedPointers hy) hx hloc]

/-- `RebaseSection::compute_size` lists exactly the pointers that hold an
address if and only if no stub symbol has a GOT slot, no pointer is relocated
against an absolute symbol and the offsets of all addresses fit. -/
theorem rebaseCovers_iff : L.RebaseCovers ↔ L.RebaseSound := by
  constructor
  · intro hcovers
    refine ⟨?_, ?_, fun x hx => fits_of_holdsAddress hcovers hx⟩
    · rw [← Context.countP_stubs_eq_length_iff]
      by_contra hne
      have hlt := lt_of_le_of_ne List.countP_le_length hne
      -- the first lazy pointer behind the counter
      have haddr : L.HoldsAddress (.lazySymbolPtr
          (L.tables.stubs.syms.countP fun s => !L.tables.got.has s)) :=
        Context.mem_lazySymbolPtrStores.mpr hlt
      have hlisted := mem_rebasedPointers_of_mem_rebases habs hcovers haddr.isPointer
        ((hcovers _).mpr ⟨_, haddr, rfl⟩)
      exact lt_irrefl _ (Context.mem_rebasedPointers.mp hlisted)
    · rintro ⟨subsec, rel⟩ hmem hneeds
      have hlisted : .rel subsec rel ∈ L.rebasedPointers :=
        Context.mem_rebasedPointers.mpr ⟨hmem, hneeds⟩
      have hfits := fits_of_mem_rebasedPointers habs hcovers hlisted
      have hentry : L.location (.rel subsec rel) ∈ L.rebases :=
        List.mem_map.mpr ⟨_, hlisted, rebaseEntry_eq hfits⟩
      obtain ⟨y, hy, hloc⟩ := (hcovers _).mp hentry
      obtain rfl := L.distinct y _ hy.isPointer (isPointer_of_mem_rebasedPointers hlisted) hloc
      exact (Context.storesAddress_iff.mp hy.2).2
  · exact Context.rebaseCovers_of_sound

end Necessity

end Link

def dataRel : Relocation Unit := { sym := none, offset := 8 }

def dataSubsection : Subsection Unit where
  seg := ⟨2, 0x2000⟩
  addr := 0x2200
  rels := [dataRel]

/-- An imported function and a word of data that holds an address. -/
def importedContext (flags : SymbolFlags) : Context Unit where
  sym _ := { isImported := true }
  objs := [[dataSubsection]]
  syms := [()]
  flags _ := flags
  gotAddr := 0x1000
  lazySymbolPtrAddr := 0x2000
  threadPtrsAddr := 0x2100
  stubHelperAddr := 0x500
  dataSeg := ⟨2, 0x2000⟩
  dataConstSeg := ⟨1, 0x1000⟩

variable {flags : SymbolFlags}

/-- Each table has one slot at most. -/
theorem pointer_importedContext {x : Pointer Unit} (hx : (importedContext flags).IsPointer x) :
    x = .rel dataSubsection dataRel ∨ x = .lazySymbolPtr 0 ∨ x = .got 0 ∨ x = .threadPtr 0 := by
  have hzero (table : SlotTable Unit) {i : ℕ} (h : i < table.syms.length) : i = 0 :=
    Nat.lt_one_iff.mp (lt_of_lt_of_le h table.nodup.length_le_card)
  cases x with
  | rel subsec rel =>
    obtain ⟨rfl, rfl⟩ := Prod.mk.inj (List.mem_singleton.mp hx.1)
    exact .inl rfl
  | lazySymbolPtr i => exact .inr (.inl (congrArg _ (hzero _ hx)))
  | got i => exact .inr (.inr (.inl (congrArg _ (hzero _ hx))))
  | threadPtr i => exact .inr (.inr (.inr (congrArg _ (hzero _ hx))))

def importedFunction (flags : SymbolFlags) : Link Unit :=
  { importedContext flags with
    distinct := fun x y hx hy hloc => by
      change (importedContext {}).location x = (importedContext {}).location y at hloc
      rcases pointer_importedContext hx with rfl | rfl | rfl | rfl <;>
        rcases pointer_importedContext hy with rfl | rfl | rfl | rfl <;>
        first | rfl | exact absurd hloc (by decide) }

theorem liveRels_importedFunction {p : Subsection Unit × Relocation Unit}
    (hp : p ∈ (importedFunction flags).liveRels) : p = (dataSubsection, dataRel) :=
  List.mem_singleton.mp hp

theorem isAbs_importedFunction {p : Subsection Unit × Relocation Unit}
    (hp : p ∈ (importedFunction flags).liveRels) : (importedFunction flags).isAbs p.2 = false := by
  rw [liveRels_importedFunction hp]
  rfl

theorem sound_importedFunction :
    Context.RebaseSound (importedFunction { needsStub := true }).toContext := by
  refine ⟨by decide, fun p hp _ => isAbs_importedFunction hp, fun x hx => ?_⟩
  have hpointer := hx.isPointer
  cases x with
  | rel subsec rel =>
    obtain ⟨rfl, rfl⟩ := Prod.mk.inj (liveRels_importedFunction hpointer.1)
    constructor <;> decide
  | lazySymbolPtr i =>
    rw [Nat.lt_one_iff.mp hpointer]
    constructor <;> decide
  | got i => exact absurd hpointer (Nat.not_lt_zero i)
  | threadPtr i => exact absurd hpointer (Nat.not_lt_zero i)

/-- The word of data and the slot of a function that is only called are listed. -/
theorem rebaseCovers_calledFunction : (importedFunction { needsStub := true }).RebaseCovers :=
  (Link.rebaseCovers_iff fun _ hp h => absurd ((isAbs_importedFunction hp).symm.trans h)
    Bool.false_ne_true).mpr sound_importedFunction

/-- The slot of a function that is called and whose address is loaded from the
GOT is filled, but not listed. -/
theorem not_rebaseCovers_calledAndLoaded :
    ¬ (importedFunction { needsStub := true, needsGot := true }).RebaseCovers := by
  intro hcovers
  have hmem := (hcovers ⟨2, 0⟩).mpr
    ⟨.lazySymbolPtr 0, Context.mem_lazySymbolPtrStores.mpr (by decide), by decide⟩
  have hdata : (importedFunction { needsStub := true, needsGot := true }).rebases =
      [⟨2, 0x208⟩] := by
    decide
  rw [hdata] at hmem
  exact absurd hmem (by decide)

end Mold.MachO.Rebase
