import Mold.Lib.RelativePointers
import Mold.Lib.Tiling
import Mold.MachO.EhFrame
import Mold.MachO.ReadRelocations

/-!
# Records of `__eh_frame`

`ObjectFile::parse_eh_frame` applies the relocations of the section to its contents and
splits them into CIEs and FDEs.  `EhFrameSection::compute_size` keeps the FDEs of live
functions with their CIEs and lays them out, and `copy_to` writes them with new pointers.

An FDE has three pointers relative to themselves: the distance back to its CIE, and those
to its function and to its LSDA.
-/

namespace Mold.MachO.EhFrameRecords

open Mold.Lib Mold.MachO.Subsections

variable {σ τ : Type*}

/-- `E::abs_rel` -/
def absRel : UInt8 := 0

/-- `E::subtractor_rel` -/
def subtractorRel : EhFrame.Target → UInt8
  | .x86_64 => 5
  | .arm64 => 1

/-- `E::gotpc_rel` -/
def gotpcRel : EhFrame.Target → UInt8
  | .x86_64 => 4
  | .arm64 => 7

structure InputSection (σ τ : Type*) where
  target : EhFrame.Target
  addr : ℕ
  contents : List Byte
  rels : List MachRel
  symValue : ℕ → ℕ
  syms : ℕ → τ
  subsections : List σ
  subsectionLookup : List (Option ℕ)
  inputAddr : σ → UInt32
  hasCompactUnwind : σ → Bool
  fits : addr + contents.length ≤ 2 ^ 32

/-- `CieRecord`, with its place in the section. -/
structure CieRecord (τ : Type*) where
  pos : ℕ
  lsdaSize : ℕ
  personality : Option (τ × ℕ)

/-- `FdeRecord`, with its place in the section. -/
structure FdeRecord (σ τ : Type*) where
  pos : ℕ
  subsec : σ
  cie : CieRecord τ
  lsda : Option σ

/-! ## Relocations -/

/-- The subtractors with the relocations behind them.  Other relocations than those of
pointers to the GOT are not known. -/
def relocPairs (target : EhFrame.Target) : List MachRel → Option (List (MachRel × MachRel))
  | [] => some []
  | [r] => if r.type = gotpcRel target then some [] else none
  | r1 :: r2 :: rels =>
    if r1.type = subtractorRel target then
      if r2.type ≠ absRel ∨ (r1.p2size ≠ 2 ∧ r1.p2size ≠ 3) then none
      else (relocPairs target rels).map ((r1, r2) :: ·)
    else if r1.type = gotpcRel target then relocPairs target (r2 :: rels)
    else none

def applyPair (diff : MachRel × MachRel → ℤ) (buf : List Byte) (pair : MachRel × MachRel) :
    List Byte :=
  let off := pair.1.offset.toNat
  let n := if pair.1.p2size = 2 then 4 else 8
  Segment.write buf ⟨off, le n ((readAt n buf off + diff pair) % 2 ^ (8 * n)).toNat⟩

namespace InputSection

variable (sec : InputSection σ τ)

/-- The targets of `apply_eh_frame_relocs`.  For a relocation without a symbol it is the
number of a section. -/
def target32 (r : MachRel) : ℤ :=
  if r.isExtern then (sec.symValue r.idx : ℤ) % 2 ^ 32 else r.idx

/-- The signed difference of 32 bits that is added. -/
def codeDiff (pair : MachRel × MachRel) : ℤ :=
  Int.bmod (sec.target32 pair.2 - sec.target32 pair.1) (2 ^ 32)

/-- The difference that the pair stands for.  The word has the addresses of relocations
without symbols already. -/
def meantDiff (pair : MachRel × MachRel) : ℤ :=
  (if pair.2.isExtern then (sec.symValue pair.2.idx : ℤ) else 0) -
    if pair.1.isExtern then (sec.symValue pair.1.idx : ℤ) else 0

/-- The contents behind `apply_eh_frame_relocs`. -/
def relocated (pairs : List (MachRel × MachRel)) : List Byte :=
  pairs.foldl (applyPair sec.codeDiff) sec.contents

def meant (pairs : List (MachRel × MachRel)) : List Byte :=
  pairs.foldl (applyPair sec.meantDiff) sec.contents

end InputSection

/-! ## Splitting into records -/

def sizeAt (data : List Byte) (pos : ℕ) : ℕ := readAt 4 data pos + 4

/-- The places of the records from `pos` on. -/
def recordPositions (data : List Byte) : ℕ → ℕ → Option (List ℕ)
  | 0, _ => none
  | fuel + 1, pos =>
    if data.length ≤ pos then some []
    else if readAt 4 data pos = 2 ^ 32 - 1 ∨ data.length < pos + sizeAt data pos then none
    else (recordPositions data fuel (pos + sizeAt data pos)).map (pos :: ·)

def isCie (data : List Byte) (pos : ℕ) : Bool := readAt 4 data (pos + 4) == 0

/-- The length of the number that `read_uleb` reads at a place. -/
def ulebLength (data : List Byte) (pos : ℕ) : ℕ :=
  ((data.drop pos).takeWhile fun b => 128 ≤ b.val).length + 1

/-- The letters behind the `z` of an augmentation string, with the place of their data, and
`lsda_size`. -/
def parseAugmentation (data : List Byte) : List Byte → ℕ → ℕ → Option ℕ
  | [], _, lsdaSize => some lsdaSize
  | c :: letters, p, lsdaSize =>
    let enc := readAt 1 data p
    if c = 0x4c then
      if enc % 16 = 0x0b then parseAugmentation data letters (p + 1) 4
      else if enc % 16 = 0 then parseAugmentation data letters (p + 1) 8
      else none
    else if c = 0x50 then
      if enc ≠ 0x9b then none else parseAugmentation data letters (p + 5) lsdaSize
    else if c = 0x52 then
      if enc % 16 ≠ 0 ∨ enc / 16 % 2 = 0 then none
      else parseAugmentation data letters (p + 1) lsdaSize
    else none

def parseCie (data : List Byte) (pos : ℕ) : Option ℕ :=
  let aug := (data.drop (pos + 9)).takeWhile fun b => b ≠ 0
  match aug with
  | [] => some 0
  | z :: letters =>
    if z ≠ 0x7a then some 0
    else
      let skip := fun p => p + ulebLength data p
      parseAugmentation data letters (skip (skip (skip (skip (pos + 9 + aug.length + 1))))) 0

namespace InputSection

variable (sec : InputSection σ τ)

/-- `input_addr` of a record. -/
def recordAddr (pos : ℕ) : ℕ := sec.addr + pos

/-- `find_subsection` -/
def find (addr : ℕ) : Option σ :=
  findSubsection sec.inputAddr sec.subsections sec.subsectionLookup (UInt32.ofNat addr)

/-- The function address that an FDE refers to.  It has 64 bits. -/
def functionAddr (data : List Byte) (pos : ℕ) : ℕ :=
  ((Int.bmod (readAt 8 data (pos + 8)) (2 ^ 64) + sec.addr + pos + 8) % 2 ^ 64).toNat

def lsdaField (data : List Byte) (pos : ℕ) : ℕ := 24 + ulebLength data (pos + 24)

/-- The LSDA address that is read.  The first sum has 32 bits. -/
def lsdaAddr (data : List Byte) (pos : ℕ) : ℕ :=
  (readAt 4 data (pos + lsdaField data pos) + sec.recordAddr pos) % 2 ^ 32 + lsdaField data pos

/-- `find_cie` of `FdeRecord::parse`. -/
def findCie (cies : List (CieRecord τ)) (data : List Byte) (pos : ℕ) : Option (CieRecord τ) :=
  cies.find? fun cie => (sec.recordAddr cie.pos : ℤ) ==
    ((sec.recordAddr pos : ℤ) + 4 - readAt 4 data (pos + 4)) % 2 ^ 32

def parseFde (cies : List (CieRecord τ)) (data : List Byte) (pos : ℕ) (subsec : σ) :
    Option (FdeRecord σ τ) :=
  (sec.findCie cies data pos).bind fun cie =>
    if cie.lsdaSize = 0 then some ⟨pos, subsec, cie, none⟩
    else (sec.find (sec.lsdaAddr data pos)).map fun lsda => ⟨pos, subsec, cie, some lsda⟩

def personalities (data : List Byte) (cies : List ℕ) : Option (List (ℕ × τ × ℕ)) :=
  (sec.rels.filter fun r => r.type = gotpcRel sec.target).mapM fun r =>
    let addr := (sec.addr + r.offset.toNat) % 2 ^ 32
    if r.p2size ≠ 2 ∨ r.isExtern = false then none
    else
      (cies.find? fun pos => sec.recordAddr pos ≤ addr ∧
        addr < sec.recordAddr pos + sizeAt data pos).map fun pos =>
          (pos, sec.syms r.idx, addr - sec.recordAddr pos)

/-- The functions of the FDEs, and the FDEs without those of functions that have a compact
unwind record. -/
def functions (data : List Byte) (fdes : List ℕ) : Option (List (ℕ × σ)) :=
  (fdes.mapM fun pos => (sec.find (sec.functionAddr data pos)).map fun subsec =>
    (pos, subsec)).map fun fdes => fdes.filter fun fde => !sec.hasCompactUnwind fde.2

/-- `parse_eh_frame`: the CIEs, and the FDEs in the order of the section. -/
def parseEhFrame (pairs : List (MachRel × MachRel)) :
    Option (List (CieRecord τ) × List (FdeRecord σ τ)) :=
  let data := sec.relocated pairs
  (recordPositions data (data.length + 1) 0).bind fun places =>
  (sec.personalities data (places.filter (isCie data))).bind fun persons =>
  ((places.filter (isCie data)).mapM fun pos => (parseCie data pos).map fun lsdaSize =>
    { pos, lsdaSize
      personality := (persons.reverse.find? fun p => p.1 = pos).map Prod.snd }).bind
    fun cies =>
  (sec.functions data (places.filter fun pos => !isCie data pos)).bind fun fdes =>
  (fdes.mapM fun fde => sec.parseFde cies data fde.1 fde.2).map fun fdes => (cies, fdes)

end InputSection

/-- A file whose section is accepted.  The FDEs are sorted by their functions in any order
that is possible, and their fields are inside of them. -/
structure ObjectFile (σ τ : Type*) where
  sec : InputSection σ τ
  pairs : List (MachRel × MachRel)
  cies : List (CieRecord τ)
  parsedFdes : List (FdeRecord σ τ)
  fdes : List (FdeRecord σ τ)
  pairs_eq : relocPairs sec.target sec.rels = some pairs
  parsed : sec.parseEhFrame pairs = some (cies, parsedFdes)
  perm : fdes.Perm parsedFdes
  sorted : fdes.Pairwise fun f g => sec.inputAddr f.subsec ≤ sec.inputAddr g.subsec
  inside : ∀ fde ∈ fdes, 16 ≤ sizeAt (sec.relocated pairs) fde.pos ∧
    (fde.cie.lsdaSize ≠ 0 → InputSection.lsdaField (sec.relocated pairs) fde.pos +
      fde.cie.lsdaSize ≤ sizeAt (sec.relocated pairs) fde.pos)

def ObjectFile.data (file : ObjectFile σ τ) : List Byte := file.sec.relocated file.pairs

/-! ## Layout -/

inductive Record (σ τ : Type*) where
  | cie (i : ℕ) (file : ObjectFile σ τ) (cie : CieRecord τ)
  | fde (i : ℕ) (file : ObjectFile σ τ) (fde : FdeRecord σ τ)

namespace Record

def key : Record σ τ → ℕ × ℕ
  | cie i _ c => (i, c.pos)
  | fde i _ f => (i, f.pos)

def file : Record σ τ → ObjectFile σ τ
  | cie _ file _ => file
  | fde _ file _ => file

def size (r : Record σ τ) : ℕ := sizeAt r.file.data r.key.2

/-- `get_contents` -/
def contents (r : Record σ τ) : List Byte := (r.file.data.drop r.key.2).take r.size

end Record

structure Link (σ τ : Type*) where
  objs : List (ObjectFile σ τ)
  isAlive : σ → Bool

/-- What is placed in the output: the section, the subsections, and the GOT slots of
symbols that are defined. -/
structure Placement (σ τ : Type*) where
  hdrAddr : ℕ
  addr : σ → ℕ
  gotAddr : τ → Option ℕ

namespace Link

variable (link : Link σ τ)

def liveFdes (file : ObjectFile σ τ) : List (FdeRecord σ τ) :=
  file.fdes.filter fun fde => link.isAlive fde.subsec

def liveCies (file : ObjectFile σ τ) : List (CieRecord τ) :=
  file.cies.filter fun cie => (link.liveFdes file).any fun fde => fde.cie.pos = cie.pos

def records : List (Record σ τ) :=
  link.objs.zipIdx.flatMap fun file =>
    (link.liveCies file.1).map (Record.cie file.2 file.1) ++
      (link.liveFdes file.1).map (Record.fde file.2 file.1)

/-- `compute_size` -/
def layout : List (Record σ τ × ℕ) := tile Record.size 0 link.records

def hdrSize : ℕ := tileEnd Record.size 0 link.records

def outputOffset (key : ℕ × ℕ) : ℕ :=
  match link.layout.find? fun x => x.1.key = key with
  | none => 2 ^ 32 - 1
  | some x => x.2 % 2 ^ 32

variable (place : Placement σ τ)

def copyCie (i : ℕ) (cie : CieRecord τ) (contents : List Byte) : List Byte :=
  match cie.personality with
  | none => contents
  | some (sym, offset) =>
    match place.gotAddr sym with
    | none => contents
    | some got =>
      Segment.write contents ⟨offset, le 4 ((((got : ℤ) -
        (place.hdrAddr + link.outputOffset (i, cie.pos) + offset)) % 2 ^ 32).toNat)⟩

def copyFde (file : ObjectFile σ τ) (i : ℕ) (fde : FdeRecord σ τ) (contents : List Byte) :
    List Byte :=
  let offset : ℤ := link.outputOffset (i, fde.pos)
  let outputAddr : ℤ := place.hdrAddr + offset
  let buf := Segment.write contents
    ⟨4, le 4 ((offset + 4 - link.outputOffset (i, fde.cie.pos)) % 2 ^ 32).toNat⟩
  let buf := Segment.write buf
    ⟨8, le 8 ((Int.bmod (place.addr fde.subsec - outputAddr - 8) (2 ^ 32) % 2 ^ 64).toNat)⟩
  match fde.lsda with
  | none => buf
  | some lsda =>
    let field := InputSection.lsdaField buf 0
    let addr : ℕ := (readAt 4 buf field + file.sec.recordAddr fde.pos) % 2 ^ 32 + field
    let val : ℤ := place.addr lsda - outputAddr - field + addr - (file.sec.inputAddr lsda).toNat
    if fde.cie.lsdaSize = 4 then Segment.write buf ⟨field, le 4 (val % 2 ^ 32).toNat⟩
    else Segment.write buf ⟨field, le 8 (val % 2 ^ 64).toNat⟩

def copyTo (r : Record σ τ) : Segment Byte where
  start := link.outputOffset r.key
  bytes :=
    match r with
    | .cie i file cie => link.copyCie place i cie (Record.cie i file cie).contents
    | .fde i file fde => link.copyFde place file i fde (Record.fde i file fde).contents

def copyBuf : List Byte :=
  (link.records.map (link.copyTo place)).foldl Segment.write (List.replicate link.hdrSize 0)

/-! ## What the pointers should say -/

end Link

namespace ObjectFile

variable (file : ObjectFile σ τ)

def meant : List Byte := file.sec.meant file.pairs

def cieTarget (pos : ℕ) : ℤ :=
  ((file.sec.recordAddr pos : ℤ) + 4 - readAt 4 file.meant (pos + 4)) % 2 ^ 32

def functionTarget (pos : ℕ) : ℕ := file.sec.functionAddr file.meant pos

/-- The address of its LSDA, for a pointer of `n` bytes. -/
def lsdaTarget (n pos : ℕ) : ℕ :=
  let field := InputSection.lsdaField file.data pos
  ((Int.bmod (readAt n file.meant (pos + field)) (2 ^ (8 * n)) +
    file.sec.recordAddr pos + field) % 2 ^ 64).toNat

/-- What an address of the file becomes in the output, if it is at or behind a
subsection. -/
def outputOf (place : Placement σ τ) (subsec : σ) (addr : ℕ) : ℤ :=
  place.addr subsec + ((addr : ℤ) - (file.sec.inputAddr subsec).toNat)

end ObjectFile

namespace Link

variable (link : Link σ τ)

/-- The pointer of `n` bytes at an offset of the output leads to the address, if the
distance fits into `N` values. -/
def PointsTo (place : Placement σ τ) (n N off : ℕ) (addr : ℤ) : Prop :=
  Fits N (addr - ((place.hdrAddr : ℤ) + off)) →
    (place.hdrAddr : ℤ) + off + Int.bmod (readAt n (link.copyBuf place) off) (2 ^ (8 * n)) ≡
      addr [ZMOD 2 ^ 64]

/-- The pointers of an FDE at an offset of the output: the distance to the copy of its own
CIE, and the pointers to its function and to its LSDA. -/
structure FdeResolves (i : ℕ) (file : ObjectFile σ τ) (fde : FdeRecord σ τ) (off : ℕ) : Prop where
  cie : ∀ place, ∃ cie cieOff, (Record.cie i file cie, cieOff) ∈ link.layout ∧
    (file.sec.recordAddr cie.pos : ℤ) = file.cieTarget fde.pos ∧
    ((off + 4 : ℕ) : ℤ) - readAt 4 (link.copyBuf place) (off + 4) = cieOff
  function : ∃ subsec, file.sec.find (file.functionTarget fde.pos) = some subsec ∧
    ∀ place, link.PointsTo place 8 (2 ^ 32) (off + 8)
      (file.outputOf place subsec (file.functionTarget fde.pos))
  lsda : ∀ n, fde.cie.lsdaSize = n → n ≠ 0 →
    ∃ lsda, file.sec.find (file.lsdaTarget n fde.pos) = some lsda ∧
      ∀ place, link.PointsTo place n (2 ^ (8 * n)) (off + InputSection.lsdaField file.data fde.pos)
        (file.outputOf place lsda (file.lsdaTarget n fde.pos))

/-- The records are apart and inside of the section, and the pointers of every FDE are
right wherever the section and the subsections are placed. -/
structure Rewritten : Prop where
  apart : ∀ place, (link.records.map (link.copyTo place)).Pairwise Segment.Disjoint
  inside : ∀ place, ∀ r ∈ link.records, (link.copyTo place r).stop ≤ link.hdrSize
  resolves : ∀ i file fde off, (Record.fde i file fde, off) ∈ link.layout →
    link.FdeResolves i file fde off

/-- The function of an FDE is the first byte of a subsection, and what is read of its
pointers is what they stand for. -/
structure FdeSafe (file : ObjectFile σ τ) (fde : FdeRecord σ τ) : Prop where
  cie : readAt 4 file.data (fde.pos + 4) = readAt 4 file.meant (fde.pos + 4)
  function : ∃ subsec,
    file.sec.find (file.sec.functionAddr file.data fde.pos) = some subsec ∧
      file.sec.find (file.functionTarget fde.pos) = some subsec ∧
      file.functionTarget fde.pos % 2 ^ 32 = (file.sec.inputAddr subsec).toNat
  lsda : ∀ n, fde.cie.lsdaSize = n → n ≠ 0 → ∃ lsda,
    file.sec.find (file.sec.lsdaAddr file.data fde.pos) = some lsda ∧
      file.sec.find (file.lsdaTarget n fde.pos) = some lsda ∧
      (file.sec.lsdaAddr file.data fde.pos : ℤ) ≡ file.lsdaTarget n fde.pos [ZMOD 2 ^ (8 * n)]

def Safe : Prop := ∀ file ∈ link.objs, ∀ fde ∈ link.liveFdes file, FdeSafe file fde

end Link

end Mold.MachO.EhFrameRecords
