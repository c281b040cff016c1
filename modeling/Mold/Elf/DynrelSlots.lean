import Mold.Elf.LinkSymbols
import Mold.Lib.Tiling

/-!
# The slots of `.rela.dyn`

The dynamic relocations are counted when the relocations are scanned and when the
headers are computed, and they are written when the chunks are copied.  Chunks
and files have regions that follow each other in `.rela.dyn`, and a section writes
into the region of its file where the scan has come to it.
-/

namespace Mold.Elf

open Lib

section Words

variable {σ : Type*} (word : WordSize) (args : Args) (isec : InputSection σ)
  (sym : Symbol) (rel : Rel σ)

def Action.makesDynrel : Action → Bool
  | .dynCopyrel => isec.isWritable || !args.zCopyreloc
  | .dynCplt => isec.isWritable
  | .dynrel | .ifunc => true
  | .baserel => !isec.isRelrReloc word args rel
  | .none | .error | .copyrel | .plt | .cplt => false

def needsDynrel : Bool :=
  sym.isIfunc || !sym.isAbsolute &&
    if args.pic then sym.isImported || !isec.isRelrReloc word args rel
    else sym.isImported && (isec.isToc || isec.isWritable ||
      sym.type ≠ .func && !args.zCopyreloc)

theorem numDynrel_scanRel (action : Action) :
    (scanRel word args isec sym rel action).numDynrel =
      (action.makesDynrel word args isec rel).toNat := by
  cases action with
  | dynCopyrel =>
    rw [scanRel, Action.makesDynrel]
    cases isec.isWritable || !args.zCopyreloc <;> rfl
  | dynCplt =>
    rw [scanRel, Action.makesDynrel]
    cases isec.isWritable <;> rfl
  | baserel =>
    simp only [scanRel, Action.makesDynrel]
    cases isec.isRelrReloc word args rel <;> rfl
  | _ => rfl

theorem length_dynrel_applyAbsrel (P : ℕ) (action : Action) :
    (applyAbsrel word args isec sym rel P action).dynrel.length =
      (action.makesDynrel word args isec rel).toNat := by
  cases action with
  | dynCopyrel =>
    rw [applyAbsrel, Action.makesDynrel]
    cases isec.isWritable || !args.zCopyreloc <;> rfl
  | dynCplt =>
    rw [applyAbsrel, Action.makesDynrel]
    cases isec.isWritable <;> rfl
  | baserel =>
    rw [applyAbsrel, Action.makesDynrel]
    cases isec.isRelrReloc word args rel <;> rfl
  | _ => rfl

theorem getWordAction_of_not_ifunc (h : sym.isIfunc = false) :
    getWordAction args isec sym =
      if args.pic then actionRow .none .baserel .dynrel .dynrel (getSymKind sym)
      else if isec.isToc then actionRow .none .none .dynrel .dynrel (getSymKind sym)
      else actionRow .none .none .dynCopyrel .dynCplt (getSymKind sym) := by
  rw [getWordAction, getPpc64TocAction, getDynAbsrelAction, h]
  simp only [Bool.false_eq_true, if_false, getRelAction, getOutputType, Args.pic]
  by_cases hshared : args.shared = true
  · simp [hshared]
  · by_cases hpie : args.pie = true <;> simp [hshared, hpie]

theorem makesDynrel_getWordAction :
    (getWordAction args isec sym).makesDynrel word args isec rel =
      needsDynrel word args isec sym rel := by
  cases hifunc : sym.isIfunc with
  | true =>
    rw [needsDynrel, getWordAction, getPpc64TocAction, getDynAbsrelAction, hifunc]
    cases isec.isToc <;> rfl
  | false =>
    rw [getWordAction_of_not_ifunc args isec sym hifunc, needsDynrel, hifunc, getSymKind]
    cases sym.isAbsolute <;> cases sym.isImported <;>
      by_cases hfunc : sym.type = .func <;> cases args.pic <;> cases isec.isToc <;>
      simp [hfunc, actionRow, Action.makesDynrel]

end Words

inductive WordUse where
  /-- The relocation is scanned and applied against its symbol. -/
  | ofSymbol
  /-- `R_ARM_MOVT_ABS` and `R_ARM_THM_MOVT_ABS` are scanned like a word, and they
  are applied to an instruction. -/
  | movt
  /-- `R_PPC64_TOC` is scanned against its symbol and applied against `.TOC.`. -/
  | toc
deriving DecidableEq, Repr

/-- What a relocation refers to.  A symbol that was made for a fragment has no
entry in the symbol table of the file. -/
structure Reference (σ : Type*) where
  sym : σ
  esym : Option Esym
  use : WordUse := .ofSymbol
deriving DecidableEq, Repr

def recordUndefError {σ : Type*} (ref : Reference σ) (sym : LinkSymbol) : Bool :=
  match ref.esym with
  | none => false
  | some esym =>
    !sym.isImported && (esym.isUndef && !esym.isWeak && sym.symIdx ≠ 0) && sym.esym.isUndef ||
      sym.isDso && sym.visibility ≠ .default

structure FileSection (σ : Type*) where
  isAlive : Bool
  osecAddr : ℕ
  isec : InputSection (Reference σ)
deriving DecidableEq, Repr

def FileSection.isScanned {σ : Type*} (sec : FileSection σ) : Bool :=
  sec.isAlive && sec.isec.isAlloc

structure Snapshot (σ : Type*) where
  syms : σ → LinkSymbol
  places : σ → Addresses
  tlsBegin : ℤ
  tpAddr : ℤ
  dtpAddr : ℤ

inductive ChunkRelType where
  | none
  | abs
  | globDat
  | relative
  | irelative
  | copy
  | dtpmod
  | dtpoff
  | tlsdesc
  | tpoff
deriving DecidableEq, Repr

structure ChunkRel where
  rOffset : ℕ
  rType : ChunkRelType
  rSym : ℤ
  rAddend : ℤ
deriving DecidableEq, Repr

structure GotEntry (σ : Type*) where
  idx : ℕ
  val : ℤ
  rType : ChunkRelType := .none
  sym : Option σ := none
deriving DecidableEq, Repr

/-- `.got`, with the symbols that have entries and the indices of these. -/
structure GotSection (σ : Type*) where
  shAddr : ℕ
  gotSyms : List (σ × ℕ)
  tlsgdSyms : List (σ × ℕ)
  tlsdescSyms : List (σ × ℕ)
  gottpSyms : List (σ × ℕ)
  tlsldIdx : Option ℕ
deriving DecidableEq, Repr

inductive Chunk (σ : Type*) where
  | got (got : GotSection σ)
  | copyrel (symbols : List σ)
  /-- The entries of Alpha's `.got`, symbols with addends. -/
  | alphaGot (shAddr : ℕ) (entries : List (σ × ℤ))
  /-- The symbols of `.opd` with the addresses of their entries. -/
  | opd (symbols : List (σ × ℕ))
  | other
deriving DecidableEq, Repr

/-! ## Links -/

/-- What a link is given, with what the passes before have made of it. -/
structure Link (σ : Type*) where
  args : Args
  word : WordSize
  isRela : Bool
  supportsIfunc : Bool
  unresolved : UnresolvedArgs
  /-- The symbols once they have been resolved with the synthetic ones. -/
  syms : σ → LinkSymbol
  /-- The symbols that the internal file owns. -/
  internal : List σ
  defsyms : List (Defsym σ)
  undefs : List (UndefRef σ)
  /-- The symbols with a copy relocation. -/
  copyrels : List σ
  aliases : σ → List σ
  /-- The symbols that stand for places of chunks. -/
  reserved : List σ
  sectionOrder : List σ
  /-- `.TOC.` -/
  toc : σ
  /-- `_TLS_MODULE_BASE_` -/
  tlsModuleBase : Option σ
  chunks : List (Chunk σ)
  /-- The sections of the object files. -/
  objs : List (List (FileSection σ))
  /-- What is known of the places when the headers are computed. -/
  headerPlaces : σ → Addresses
  copyPlaces : σ → Addresses
  tlsBegin : ℤ
  tpAddr : ℤ
  dtpAddr : ℤ

namespace Link

variable {σ : Type*} [DecidableEq σ] (l : Link σ)

def scanSyms : σ → LinkSymbol :=
  claimUnresolvedSymbols l.args l.unresolved l.undefs
    (addSyntheticSymbols l.internal l.defsyms l.syms)

def headerSyms : σ → LinkSymbol := addCopyrels l.aliases l.copyrels l.scanSyms

def copySyms : σ → LinkSymbol :=
  fixSyntheticSymbols l.reserved l.defsyms l.sectionOrder l.headerSyms

def atHeaders : Snapshot σ := ⟨l.headerSyms, l.headerPlaces, 0, 0, 0⟩

def atCopy : Snapshot σ :=
  ⟨l.copySyms, l.copyPlaces, l.tlsBegin, l.tpAddr, l.dtpAddr⟩

/-- The size of an entry of `.rela.dyn`. -/
def relSize : ℕ := l.word.bytes * if l.isRela then 3 else 2

/-! ### Counting -/

def scanRelocation (isec : InputSection (Reference σ)) (rel : Rel (Reference σ)) : ℕ :=
  if rel.rType = .none || recordUndefError rel.rSym (l.scanSyms rel.rSym.sym) then 0
  else
    match rel.rType with
    | .abs =>
      let sym := (l.scanSyms rel.rSym.sym).toSymbol {}
      (scanRel l.word l.args isec sym rel (getWordAction l.args isec sym)).numDynrel
    | .none | .other => 0

/-- What `scan_relocations` adds to `num_dynrel` for a section. -/
def scanRelocations (sec : FileSection σ) : ℕ :=
  (sec.isec.rels.map (l.scanRelocation sec.isec)).sum

/-- The scan of the sections of a file, with `num_dynrel` at their beginnings. -/
def scanFile (file : List (FileSection σ)) : List (FileSection σ × ℕ) :=
  tile l.scanRelocations 0 (file.filter FileSection.isScanned)

def numDynrel (file : List (FileSection σ)) : ℕ :=
  ((file.filter FileSection.isScanned).map l.scanRelocations).sum

/-- `reldyn_offset` of a section, which has 32 bits. -/
def reldynOffset (numDynrel : ℕ) : ℕ := l.relSize * numDynrel % 2 ^ 32

/-! ### Entries of chunks -/

section Entries

variable (snap : Snapshot σ)

def gotSymEntry (p : σ × ℕ) : GotEntry σ :=
  if (snap.syms p.1).isImported then ⟨p.2, 0, .globDat, some p.1⟩
  else if l.supportsIfunc && (snap.syms p.1).getType = .gnuIfunc then
    ⟨p.2, (snap.places p.1).addrNoPlt, .irelative, none⟩
  else if l.args.pic && !(snap.syms p.1).isAbsolute then
    ⟨p.2, (snap.places p.1).addrNoPlt, .relative, none⟩
  else ⟨p.2, (snap.places p.1).addrNoPlt, .none, none⟩

def tlsgdEntries (p : σ × ℕ) : List (GotEntry σ) :=
  if (snap.syms p.1).isImported then
    [⟨p.2, 0, .dtpmod, some p.1⟩, ⟨p.2 + 1, 0, .dtpoff, some p.1⟩]
  else if l.args.shared then
    [⟨p.2, 0, .dtpmod, none⟩,
      ⟨p.2 + 1, (snap.places p.1).addr - snap.dtpAddr, .none, none⟩]
  else
    [⟨p.2, 1, .none, none⟩,
      ⟨p.2 + 1, (snap.places p.1).addr - snap.dtpAddr, .none, none⟩]

def tlsdescEntry (p : σ × ℕ) : GotEntry σ :=
  ⟨p.2, 0, .tlsdesc, if l.tlsModuleBase = some p.1 then none else some p.1⟩

def gottpEntry (p : σ × ℕ) : GotEntry σ :=
  if (snap.syms p.1).isImported then ⟨p.2, 0, .tpoff, some p.1⟩
  else if l.args.shared then
    ⟨p.2, (snap.places p.1).addr - snap.tlsBegin, .tpoff, none⟩
  else ⟨p.2, (snap.places p.1).addr - snap.tpAddr, .none, none⟩

def tlsldEntry (idx : ℕ) : GotEntry σ :=
  if l.args.shared then ⟨idx, 0, .dtpmod, none⟩ else ⟨idx, 1, .none, none⟩

def getGotEntries (got : GotSection σ) : List (GotEntry σ) :=
  got.gotSyms.map (l.gotSymEntry snap) ++ got.tlsgdSyms.flatMap (l.tlsgdEntries snap) ++
    got.tlsdescSyms.map l.tlsdescEntry ++ got.gottpSyms.map (l.gottpEntry snap) ++
    got.tlsldIdx.toList.map l.tlsldEntry

/-- The entry goes to `.relr.dyn`. -/
def isRelr (entry : GotEntry σ) : Bool :=
  entry.rType = .relative && l.args.packDynRelocsRelr

def hasDynrel (entry : GotEntry σ) : Bool := !l.isRelr entry && entry.rType ≠ .none

/-- An entry of Alpha's `.got` has a dynamic relocation. -/
def alphaHasDynrel (entry : σ × ℤ) : Bool :=
  (snap.syms entry.1).isImported || l.args.pic && !(snap.syms entry.1).isAbsolute

def getReldynSize : Chunk σ → ℕ
  | .got got => (l.getGotEntries snap got).countP l.hasDynrel
  | .copyrel symbols => symbols.length
  | .alphaGot _ entries => entries.countP (l.alphaHasDynrel snap)
  | .opd symbols => if l.args.pic then symbols.length * 2 else 0
  | .other => 0

def gotRel (shAddr : ℕ) (entry : GotEntry σ) : ChunkRel where
  rOffset := shAddr + entry.idx * l.word.bytes
  rType := entry.rType
  rSym := (entry.sym.map fun s => (snap.places s).dynsymIdx).getD 0
  rAddend := entry.val

def copyRel (s : σ) : ChunkRel :=
  ⟨(snap.places s).addr, .copy, (snap.places s).dynsymIdx, 0⟩

/-- The dynamic relocation of an entry of Alpha's `.got` at the place `P`. -/
def alphaRel (P : ℕ) (entry : σ × ℤ) : List ChunkRel :=
  if (snap.syms entry.1).isImported then
    [⟨P, .abs, (snap.places entry.1).dynsymIdx, entry.2⟩]
  else if l.args.pic && !(snap.syms entry.1).isAbsolute then
    [⟨P, .relative, 0, (snap.places entry.1).addr + entry.2⟩]
  else []

def opdRels (p : σ × ℕ) : List ChunkRel :=
  if l.args.pic then
    [⟨p.2, .relative, 0, (snap.places p.1).addrNoPlt⟩,
      ⟨p.2 + 8, .relative, 0, (snap.places l.toc).addr⟩]
  else []

/-- The dynamic relocations that `copy_buf` writes. -/
def copyBuf : Chunk σ → List ChunkRel
  | .got got => ((l.getGotEntries snap got).filter l.hasDynrel).map (l.gotRel snap got.shAddr)
  | .copyrel symbols => symbols.map (copyRel snap)
  | .alphaGot shAddr entries => (entries.zipIdx.flatMap fun p =>
    l.alphaRel snap (shAddr + l.word.bytes * p.2) p.1)
  | .opd symbols => symbols.flatMap (l.opdRels snap)
  | .other => []

end Entries

/-! ### Regions -/

/-- What has a region of `.rela.dyn`. -/
inductive Owner (σ : Type*) where
  | chunk (chunk : Chunk σ)
  | file (file : List (FileSection σ))

def promised : Owner σ → ℕ
  | .chunk chunk => l.getReldynSize l.atHeaders chunk
  | .file file => l.numDynrel file

def owners : List (Owner σ) := l.chunks.map Owner.chunk ++ l.objs.map Owner.file

/-- `RelDynSection::update_shdr`, the owners with their `reldyn_offset`. -/
def updateShdr : List (Owner σ × ℕ) :=
  tile (fun owner => l.relSize * l.promised owner) 0 l.owners

/-- The size of `.rela.dyn`. -/
def relDynSize : ℕ := tileEnd (fun owner => l.relSize * l.promised owner) 0 l.owners

/-! ### Writing -/

def applyRelocation (sec : FileSection σ) (rel : Rel (Reference σ)) : List DynRel :=
  let write := fun s =>
    let sym := (l.copySyms s).toSymbol (l.copyPlaces s)
    (applyAbsrel l.word l.args sec.isec sym rel (sec.osecAddr + sec.isec.offset + rel.rOffset)
      (getWordAction l.args sec.isec sym)).dynrel
  match rel.rType, rel.rSym.use with
  | .abs, .ofSymbol => write rel.rSym.sym
  | .abs, .toc => write l.toc
  | .abs, .movt => []
  | .none, _ | .other, _ => []

/-- The dynamic relocations that `write_to` writes for a section. -/
def writeTo (sec : FileSection σ) : List DynRel :=
  if sec.isec.isWritten && sec.isScanned then
    sec.isec.rels.flatMap (l.applyRelocation sec)
  else []

/-- The slots that an owner writes when its region begins at `start`. -/
def writtenBy (start : ℕ) : Owner σ → List ℕ
  | .chunk chunk => slots l.relSize start (l.copyBuf l.atCopy chunk).length
  | .file file => (l.scanFile file).flatMap fun p =>
    slots l.relSize (start + l.reldynOffset p.2) (l.writeTo p.1).length

def writtenSlots : List ℕ := l.updateShdr.flatMap fun p => l.writtenBy p.2 p.1

/-- The slots of `.rela.dyn` are filled once: the regions tile the section, the
chunks and the sections write what they were promised where their regions begin,
and so every slot is written exactly once. -/
structure SlotsFilled : Prop where
  apart : l.updateShdr.Pairwise fun p q => p.2 + l.relSize * l.promised p.1 ≤ q.2
  covered : ∀ b < l.relDynSize, ∃ p ∈ l.updateShdr, p.2 ≤ b ∧ b < p.2 + l.relSize * l.promised p.1
  chunks : ∀ chunk ∈ l.chunks,
    (l.copyBuf l.atCopy chunk).length = l.getReldynSize l.atHeaders chunk
  sections : ∀ file ∈ l.objs, ∀ p ∈ l.scanFile file, (l.writeTo p.1).length = l.scanRelocations p.1
  starts : ∀ file ∈ l.objs, ∀ p ∈ l.scanFile file,
    l.writeTo p.1 ≠ [] → l.reldynOffset p.2 = l.relSize * p.2
  once : l.writtenSlots.Perm (slots l.relSize 0 (l.owners.map l.promised).sum)

end Link

end Mold.Elf
