import Mold.MachO.EhFrame
import Mold.MachO.ReadRelocations

/-!
# Records of `__compact_unwind`

`ObjectFile::parse_compact_unwind` makes an unwind record for each entry of the
section, and its relocations say which function, personality and LSDA the entry
belongs to.  A relocation has a symbol, to whose address the word in the section is
added, or the word is the address itself.  The records keep a subsection and an
offset of 32 bits in place of an address.
-/

namespace Mold.MachO.CompactUnwind

open Mold.MachO.Subsections

variable {σ τ : Type*}

/-! ## Data -/

structure MachSym where
  value : UInt64
  isExtern : Bool := true
  isUndef : Bool := false

structure UnwindRecord (σ τ : Type*) where
  subsec : Option σ := none
  personality : Option τ := none
  lsda : Option σ := none
  inputOffset : UInt32 := 0
  codeLen : UInt32
  encoding : UInt32
  lsdaOffset : UInt32 := 0

/-- The global symbols that are defined, with the low words of their addresses. -/
def externDefs (machSyms : List MachSym) (syms : ℕ → τ) : List (UInt32 × τ) :=
  (machSyms.zipIdx.filter fun msym => msym.1.isExtern && !msym.1.isUndef).map
    fun msym => (msym.1.value.toUInt32, syms msym.2)

/-- The section with what is read of its file.  `extern_syms` is sorted, and the order of
symbols at one address is any. -/
structure UnwindSection (σ τ : Type*) where
  target : EhFrame.Target
  is64 : Bool
  size : ℕ
  contents : ℕ → UInt8
  rels : List MachRel
  machSyms : List MachSym
  syms : ℕ → τ
  symToSubsec : ℕ → Option σ
  subsections : List σ
  subsectionLookup : List (Option ℕ)
  inputAddr : σ → UInt32
  externSyms : List (UInt32 × τ)
  perm : externSyms.Perm (externDefs machSyms syms)
  sorted : externSyms.Pairwise fun a b => a.1 ≤ b.1

namespace UnwindSection

variable (file : UnwindSection σ τ)

/-- `sizeof(Word<E>)` -/
def wordSize : ℕ := if file.is64 then 8 else 4

/-- `sizeof(CompactUnwindEntry<E>)` -/
def entrySize : ℕ := 3 * file.wordSize + 8

/-- `offsetof(CompactUnwindEntry<E>, personality)` -/
def personalityOffset : ℕ := file.wordSize + 8

/-- `offsetof(CompactUnwindEntry<E>, lsda)` -/
def lsdaOffset : ℕ := 2 * file.wordSize + 8

def numEntries : ℕ := file.size / file.entrySize

/-- The low word of `src[i].code_start`. -/
def codeStart (i : ℕ) : UInt32 := readWord file.contents (i * file.entrySize)

/-- `src[i].code_len` -/
def codeLen (i : ℕ) : UInt32 := readWord file.contents (i * file.entrySize + file.wordSize)

/-- `src[i].encoding` -/
def encoding (i : ℕ) : UInt32 :=
  readWord file.contents (i * file.entrySize + file.wordSize + 4)

def addr (r : MachRel) : UInt32 := readWord file.contents r.offset.toNat

/-- `find_subsection` -/
def find (addr : UInt32) : Option σ :=
  findSubsection file.inputAddr file.subsections file.subsectionLookup addr

def findSymbol (addr : UInt32) : Option τ :=
  match file.externSyms.find? fun ent => addr ≤ ent.1 with
  | none => none
  | some ent => if ent.1 = addr then some ent.2 else none

/-! ## The loop over the relocations -/

/-- `E::abs_rel` -/
def absRel : UInt8 := 0

def initial : List (UnwindRecord σ τ) :=
  (List.range file.numEntries).map fun i =>
    { codeLen := file.codeLen i, encoding := file.encoding i }

/-- `dst.subsec` and `dst.input_offset`.  There is no result if an error is reported, or
if no subsection is found, whose address is read anyway. -/
def functionOf (r : MachRel) (idx : ℕ) : Option (σ × UInt32) :=
  if r.isExtern then
    (file.symToSubsec r.idx).map fun subsec => (subsec, file.codeStart idx)
  else
    (file.find (file.codeStart idx)).map fun subsec =>
      (subsec, file.inputAddr subsec - file.codeStart idx)

/-- `dst.personality` -/
def personalityOf (r : MachRel) : Option τ :=
  if r.isExtern then some (file.syms r.idx) else file.findSymbol (file.addr r)

/-- `dst.lsda` and `dst.lsda_offset`. -/
def lsdaOf (r : MachRel) : Option (Option σ × UInt32) :=
  if r.isExtern then some (file.symToSubsec r.idx, file.addr r)
  else
    (file.find (file.addr r)).map fun lsda => (some lsda, file.addr r - file.inputAddr lsda)

/-- The loop body of `parse_compact_unwind`. -/
def relocate (recs : List (UnwindRecord σ τ)) (r : MachRel) : Option (List (UnwindRecord σ τ)) :=
  let idx := r.offset.toNat / file.entrySize
  let field := r.offset.toNat % file.entrySize
  if file.size ≤ r.offset.toNat then none
  else if 1 <<< r.p2size ≠ file.wordSize ∨ r.type ≠ absRel then none
  else if field = 0 then
    (file.functionOf r idx).map fun x => recs.modify idx fun dst =>
      { dst with subsec := some x.1, inputOffset := x.2 }
  else if field = file.personalityOffset then
    (file.personalityOf r).map fun sym => recs.modify idx fun dst =>
      { dst with personality := some sym }
  else if field = file.lsdaOffset then
    (file.lsdaOf r).map fun x => recs.modify idx fun dst =>
      { dst with lsda := x.1, lsdaOffset := x.2 }
  else none

def relocated : Option (List (UnwindRecord σ τ)) :=
  if file.size % file.entrySize ≠ 0 then none
  else file.rels.foldlM file.relocate file.initial

def isDwarf (encoding : UInt32) : Bool :=
  encoding &&& 0x0f000000 == UInt32.ofNat file.target.unwindModeDwarf

/-- `parse_compact_unwind`.  Every record that is kept needs a function. -/
def parseCompactUnwind : Option (List (UnwindRecord σ τ)) :=
  file.relocated.bind fun recs =>
    let kept := recs.filter fun rec => !file.isDwarf rec.encoding
    if kept.all fun rec => rec.subsec.isSome then some kept else none

def targetAddr (r : MachRel) : UInt32 :=
  if r.isExtern then
    (((file.machSyms[r.idx]?).map MachSym.value).getD 0).toUInt32 + file.addr r
  else file.addr r

/-- The relocation that stands for a field of an entry.  If there are several, it is the
last one. -/
def relAt (rels : List MachRel) (i field : ℕ) : Option MachRel :=
  rels.reverse.find? fun r => r.offset.toNat == i * file.entrySize + field

structure KeepsAddresses (i : ℕ) (rec : UnwindRecord σ τ) : Prop where
  function : ∃ r subsec, file.relAt file.rels i 0 = some r ∧ rec.subsec = some subsec ∧
    file.inputAddr subsec + rec.inputOffset = file.targetAddr r
  lsda : ∀ r, file.relAt file.rels i file.lsdaOffset = some r →
    ∃ lsda, rec.lsda = some lsda ∧ file.inputAddr lsda + rec.lsdaOffset = file.targetAddr r
  noLsda : file.relAt file.rels i file.lsdaOffset = none → rec.lsda = none

def KeepsFunctions : Prop :=
  ∀ recs kept, file.relocated = some recs → file.parseCompactUnwind = some kept →
    ∀ i rec, recs[i]? = some rec → rec ∈ kept → file.KeepsAddresses i rec

/-- The symbol of a relocation is the first byte of a subsection. -/
def SymbolAtStart (r : MachRel) : Prop :=
  ∃ subsec, file.symToSubsec r.idx = some subsec ∧
    file.inputAddr subsec = (((file.machSyms[r.idx]?).map MachSym.value).getD 0).toUInt32

/-- The word at a relocation is the address of the first byte of a subsection, or of the
byte exactly 2 GiB behind it. -/
def AddrAtStart (r : MachRel) : Prop :=
  ∃ subsec, file.find (file.addr r) = some subsec ∧
    (file.addr r - file.inputAddr subsec).toNat % 2 ^ 31 = 0

/-- In every entry that is kept, the function of a relocation by address is the first byte
of a subsection, and so is the symbol of any other relocation of a function or an LSDA. -/
structure Safe : Prop where
  function : ∀ i < file.numEntries, file.isDwarf (file.encoding i) = false →
    ∀ r, file.relAt file.rels i 0 = some r →
      if r.isExtern then file.SymbolAtStart r else file.AddrAtStart r
  lsda : ∀ i < file.numEntries, file.isDwarf (file.encoding i) = false →
    ∀ r, file.relAt file.rels i file.lsdaOffset = some r → r.isExtern = true → file.SymbolAtStart r

end UnwindSection

end Mold.MachO.CompactUnwind
