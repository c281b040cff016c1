import Mold.Lib.Layout

/-!
# Assigning addresses and file offsets

`assign_offsets` goes over the segments with two counters, one for the file and
one for the memory.  `set_offset_regular` rounds both up to the alignment of a
chunk before it places the chunk, but a chunk without contents in the file
advances only the counter for the memory.  `set_offset_linkedit` does the same
for the chunks of `__LINKEDIT`, which are all in the file.

The size of a chunk is the one that its `compute_size` leaves in the header.
-/

namespace Mold.MachO.Layout

open Mold.Lib

inductive SectionType where
  | regular
  | zerofill
  | threadLocalRegular
  | threadLocalZerofill
  | threadLocalVariables
  deriving DecidableEq

/-- A chunk with its type, its `p2align` and its size. -/
structure Chunk where
  type : SectionType
  p2align : ℕ
  size : ℕ

namespace Chunk

def isBss (chunk : Chunk) : Bool :=
  match chunk.type with
  | .zerofill | .threadLocalZerofill => true
  | _ => false

/-- Whether a chunk is part of the initialization image of thread-local
variables. -/
def isTls (chunk : Chunk) : Bool :=
  match chunk.type with
  | .threadLocalRegular | .threadLocalZerofill => true
  | _ => false

end Chunk

/-- A segment with its chunks in their order.  `compare_chunks` puts the chunks
without contents in the file behind the others. -/
structure Segment where
  isLinkedit : Bool
  chunks : List Chunk
  bss_last : chunks.Pairwise fun a b => a.isBss = true → b.isBss = true

/-- A link whose page size is `2 ^ pageBits`.  `compare_segments` puts
`__LINKEDIT` behind the other segments. -/
structure Link where
  pageBits : ℕ
  pagezeroSize : ℕ
  segments : List Segment
  linkedit_last : segments.Pairwise fun a _ => a.isLinkedit = false

/-! ## Alignments -/

/-- `1 << p` as an `int`.  As on the machine, only the low five bits of the
count matter. -/
def oneShl (p : ℕ) : ℤ :=
  if p % 32 = 31 then -2 ^ 31 else 2 ^ (p % 32)

/-- `get_tls_alignment` -/
def tlsAlignment (chunks : List Chunk) : ℤ :=
  chunks.foldl (fun val chunk => if chunk.isTls then max val (oneShl chunk.p2align) else val) 1

/-- `get_alignment`, which returns a `u32`. -/
def getAlignment (chunks : List Chunk) (chunk : Chunk) : ℕ :=
  match chunk.type with
  | .threadLocalRegular | .threadLocalZerofill =>
    (tlsAlignment chunks % 2 ^ 32).toNat
  | .threadLocalVariables => 8
  | _ => (oneShl chunk.p2align % 2 ^ 32).toNat

/-- The alignment of a chunk of `__LINKEDIT`, converted to a `u64`. -/
def linkeditAlignment (chunk : Chunk) : ℕ :=
  (oneShl chunk.p2align % 2 ^ 64).toNat

/-- `align_to`; the alignment is zero or a power of two. -/
def alignTo (val align : ℕ) : ℕ :=
  if align = 0 then val else (val + align - 1) / align * align

/-! ## Headers -/

/-- A chunk with the `offset` and the `addr` of its header.  The offset is a
`u32`. -/
structure Placed where
  chunk : Chunk
  offset : ℕ := 0
  addr : ℕ

/-- The loop over the chunks that have contents in the file, with the counters
at its end. -/
def setOffsets (align : Chunk → ℕ) : ℕ → ℕ → List Chunk → List Placed × ℕ × ℕ
  | fileoff, vmaddr, [] => ([], fileoff, vmaddr)
  | fileoff, vmaddr, sec :: rest =>
    let fileoff := alignTo fileoff (align sec)
    let vmaddr := alignTo vmaddr (align sec)
    let x := setOffsets align (fileoff + sec.size) (vmaddr + sec.size) rest
    (⟨sec, fileoff % 2 ^ 32, vmaddr⟩ :: x.1, x.2)

def setBssOffsets (align : Chunk → ℕ) : ℕ → List Chunk → List Placed × ℕ
  | vmaddr, [] => ([], vmaddr)
  | vmaddr, sec :: rest =>
    let vmaddr := alignTo vmaddr (align sec)
    let x := setBssOffsets align (vmaddr + sec.size) rest
    (⟨sec, 0, vmaddr⟩ :: x.1, x.2)

structure SegmentLayout where
  segment : Segment
  fileoff : ℕ
  vmaddr : ℕ
  filesize : ℕ
  vmsize : ℕ
  chunks : List Placed

/-- `OutputSegment::set_offset_regular` -/
def setOffsetRegular (pageSize fileoff vmaddr : ℕ) (seg : Segment) :
    SegmentLayout :=
  let align := getAlignment seg.chunks
  let files := setOffsets align fileoff vmaddr (seg.chunks.takeWhile fun chunk => !chunk.isBss)
  let bss := setBssOffsets align files.2.2 (seg.chunks.dropWhile fun chunk => !chunk.isBss)
  { segment := seg
    fileoff := fileoff
    vmaddr := vmaddr
    filesize := alignTo (files.2.1 - fileoff) pageSize
    vmsize := alignTo (bss.2 - vmaddr) pageSize
    chunks := files.1 ++ bss.1 }

/-- `OutputSegment::set_offset_linkedit` -/
def setOffsetLinkedit (pageSize fileoff vmaddr : ℕ) (seg : Segment) :
    SegmentLayout :=
  let files := setOffsets linkeditAlignment fileoff vmaddr seg.chunks
  { segment := seg
    fileoff := fileoff
    vmaddr := vmaddr
    filesize := files.2.1 - fileoff
    vmsize := alignTo (files.2.2 - vmaddr) pageSize
    chunks := files.1 }

/-- `OutputSegment::set_offset` -/
def setOffset (pageSize fileoff vmaddr : ℕ) (seg : Segment) : SegmentLayout :=
  if seg.isLinkedit then setOffsetLinkedit pageSize fileoff vmaddr seg
  else setOffsetRegular pageSize fileoff vmaddr seg

/-- The loop of `assign_offsets`. -/
def assignSegments (pageSize : ℕ) : ℕ → ℕ → List Segment → List SegmentLayout
  | _, _, [] => []
  | fileoff, vmaddr, seg :: segs =>
    let cmd := setOffset pageSize fileoff vmaddr seg
    cmd :: assignSegments pageSize (fileoff + cmd.filesize) (vmaddr + cmd.vmsize) segs

def Link.assignOffsets (link : Link) : List SegmentLayout :=
  assignSegments (2 ^ link.pageBits) 0 link.pagezeroSize link.segments

/-- The alignment of the initialization image of thread-local variables. -/
def tlsImageAlign (chunks : List Chunk) : ℕ :=
  2 ^ ((chunks.filter Chunk.isTls).map Chunk.p2align).foldr max 0

namespace Segment

/-- The chunks that have contents in the file.  In `__LINKEDIT` all have. -/
def fileBacked (seg : Segment) (chunk : Chunk) : Bool :=
  seg.isLinkedit || !chunk.isBss

/-- The alignment that a chunk needs.  The image of thread-local variables is
copied as a block, and the descriptors of thread-local variables are words. -/
def requiredAlignment (seg : Segment) (chunk : Chunk) : ℕ :=
  if seg.isLinkedit then 2 ^ chunk.p2align
  else
    match chunk.type with
    | .threadLocalRegular | .threadLocalZerofill => tlsImageAlign seg.chunks
    | .threadLocalVariables => 8
    | _ => 2 ^ chunk.p2align

end Segment

/-- Two ranges of the given lengths do not overlap. -/
def Apart (a n b m : ℕ) : Prop := a + n ≤ b ∨ b + m ≤ a

structure SegmentLayout.WellPlaced (cmd : SegmentLayout) : Prop where
  complete : cmd.chunks.map Placed.chunk = cmd.segment.chunks
  addr_aligned : ∀ sec ∈ cmd.chunks, cmd.segment.requiredAlignment sec.chunk ∣ sec.addr
  offset_aligned : ∀ sec ∈ cmd.chunks, cmd.segment.fileBacked sec.chunk = true →
    cmd.segment.requiredAlignment sec.chunk ∣ sec.offset
  memory_apart : cmd.chunks.Pairwise fun a b =>
    Apart a.addr a.chunk.size b.addr b.chunk.size
  file_apart : cmd.chunks.Pairwise fun a b =>
    cmd.segment.fileBacked a.chunk = true → cmd.segment.fileBacked b.chunk = true →
      Apart a.offset a.chunk.size b.offset b.chunk.size
  agree : ∀ sec ∈ cmd.chunks, cmd.segment.fileBacked sec.chunk = true →
    (sec.offset : ℤ) - cmd.fileoff = sec.addr - cmd.vmaddr
  memory_covers : ∀ sec ∈ cmd.chunks,
    cmd.vmaddr ≤ sec.addr ∧ sec.addr + sec.chunk.size ≤ cmd.vmaddr + cmd.vmsize
  file_covers : ∀ sec ∈ cmd.chunks, cmd.segment.fileBacked sec.chunk = true →
    cmd.fileoff ≤ sec.offset ∧ sec.offset + sec.chunk.size ≤ cmd.fileoff + cmd.filesize

structure Link.WellPlaced (link : Link) : Prop where
  complete : link.assignOffsets.map SegmentLayout.segment = link.segments
  segments : ∀ cmd ∈ link.assignOffsets, cmd.WellPlaced
  memory_apart : link.assignOffsets.Pairwise fun a b =>
    Apart a.vmaddr a.vmsize b.vmaddr b.vmsize
  file_apart : link.assignOffsets.Pairwise fun a b =>
    Apart a.fileoff a.filesize b.fileoff b.filesize

/-! ## When the counters agree -/

namespace Segment

variable (seg : Segment)

def fileChunks : List Chunk := seg.chunks.filter seg.fileBacked

/-- The length in the file of a segment that begins at `fileoff`. -/
def fileSpan (pageSize fileoff : ℕ) : ℕ :=
  let span := placeEnd seg.requiredAlignment Chunk.size fileoff seg.fileChunks - fileoff
  if seg.isLinkedit then span else alignUp pageSize span

/-- The length in memory of a segment that begins at `vmaddr`. -/
def memorySpan (pageSize vmaddr : ℕ) : ℕ :=
  alignUp pageSize (placeEnd seg.requiredAlignment Chunk.size vmaddr seg.chunks - vmaddr)

/-- The places at which a segment begins differ by a multiple of the alignment of
each chunk that is in the file, and such a chunk begins below 4 GiB. -/
def FilesAgree (fileoff vmaddr : ℕ) : Prop :=
  (∀ chunk ∈ seg.fileChunks, fileoff ≡ vmaddr [MOD seg.requiredAlignment chunk]) ∧
  ∀ x ∈ place seg.requiredAlignment Chunk.size fileoff seg.fileChunks, x.2 < 2 ^ 32

end Segment

def CountersAgree (pageSize : ℕ) : ℕ → ℕ → List Segment → Prop
  | _, _, [] => True
  | fileoff, vmaddr, seg :: segs =>
    seg.FilesAgree fileoff vmaddr ∧
    CountersAgree pageSize (fileoff + seg.fileSpan pageSize fileoff)
      (vmaddr + seg.memorySpan pageSize vmaddr) segs

/-- `1 << p2align` is a positive `int` for every chunk. -/
def Link.ShiftsInRange (link : Link) : Prop :=
  ∀ seg ∈ link.segments, ∀ chunk ∈ seg.chunks, chunk.p2align < 31

def Link.CountersAgree (link : Link) : Prop :=
  Layout.CountersAgree (2 ^ link.pageBits) 0 link.pagezeroSize link.segments

end Mold.MachO.Layout
