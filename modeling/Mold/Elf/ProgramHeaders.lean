import Mathlib.Algebra.Order.Ring.Nat
import Mold.Lib.StableSort

/-!
# Chunks of an output

The parts of an output file in their order.  A chunk has the flags, the size and the
alignment of a section header, and the layout gives it an address and an offset in the
file.

The entries of the program header are made from the chunks.  An entry is begun for a
chunk and is extended by the next chunks as long as they go with the first one.
-/

namespace Mold.Elf.Layout

/-! ## Input -/

/-- Memory protection, which is what the flags of a segment are for. -/
structure Prot where
  read : Bool := true
  write : Bool := false
  exec : Bool := false
deriving DecidableEq, Repr

inductive ChunkKind where
  | ehdr
  | phdr
  | shdr
  | interp
  | got
  | gotplt
  | dynamic
  | ehFrameHdr
  | relroPadding
  | other
deriving DecidableEq, Repr

inductive SectionType where
  | progbits
  | nobits
  | note
  | initArray
  | finiArray
  | preinitArray
  | armExidx
  | other
deriving DecidableEq, Repr

structure Chunk where
  kind : ChunkKind := .other
  name : String
  type : SectionType := .progbits
  isAlloc : Bool := true
  isWrite : Bool := false
  isExec : Bool := false
  isTls : Bool := false
  /-- The alignment is a power of two. -/
  p2align : ℕ := 0
  size : ℕ
  /-- The place in the arguments of `--section-order` that the chunk is sorted by. -/
  sectOrder : ℕ := 0
  addr : ℕ := 0
  offset : ℕ := 0
deriving DecidableEq, Repr

/-- The modes of `-z separate-code`. -/
inductive SeparateCode where
  | loadableSegments
  | code
  | noSeparate
deriving DecidableEq, Repr

/-- The arguments of `--section-order` without their names. -/
inductive SectionOrder where
  | section
  | group
  | addr (value : ℕ)
  | align (value : ℕ)
  | symbol
deriving DecidableEq, Repr

structure Args where
  imageBase : ℕ := 0
  /-- The page size is a power of two. -/
  pageBits : ℕ := 12
  separateCode : SeparateCode := .noSeparate
  sectionStart : String → Option ℕ := fun _ => none
  sectionOrder : List SectionOrder := []
  omagic : Bool := false
  executeOnly : Bool := false
  rosegment : Bool := true
  zNow : Bool := false
  zRelro : Bool := true
  zExecstack : Bool := false
  isArm32 : Bool := false
  wordSize : ℕ := 8
  /-- The size of an entry of the program header. -/
  phdrSize : ℕ := 56

namespace Args

def page (args : Args) : ℕ := 2 ^ args.pageBits

def wordBits (args : Args) : ℕ := 8 * args.wordSize

/-- The value of the type `Word<E>` that is computed from words. -/
def wordOf (args : Args) (n : ℤ) : ℕ := (n % 2 ^ args.wordBits).toNat

end Args

namespace Chunk

def align (c : Chunk) : ℕ := 2 ^ c.p2align

def endAddr (c : Chunk) : ℕ := c.addr + c.size

def isNobits (c : Chunk) : Bool := c.type = .nobits

def isTbss (c : Chunk) : Bool := c.isNobits && c.isTls

def isBss (c : Chunk) : Bool := c.isNobits && !c.isTls

def isNote (c : Chunk) : Bool := c.type = .note && c.isAlloc

def isLoaded (c : Chunk) : Bool := c.isAlloc && !c.isNobits

def isMapped (c : Chunk) : Bool := c.isAlloc && !c.isTbss

def toPhdrFlags (args : Args) (c : Chunk) : Prot :=
  if args.omagic then { write := true, exec := true }
  else if c.isExec && args.executeOnly then { read := false, exec := true }
  else { write := c.isWrite, exec := c.isExec || !c.isWrite && !args.rosegment }

def isRelro (args : Args) (c : Chunk) : Bool :=
  c.isWrite &&
    (c.isTls || c.type = .initArray || c.type = .finiArray || c.type = .preinitArray ||
      c.kind = .got || c.kind = .dynamic || c.kind = .relroPadding ||
      args.zNow && c.kind = .gotplt || c.name = ".alpha_got" || c.name = ".toc" ||
      c.name.endsWith ".rel.ro")

/-- The lambda `get_flags` of `set_virtual_addresses_regular`. -/
def getFlags (args : Args) (c : Chunk) : Prot × Bool := (c.toPhdrFlags args, c.isRelro args)

end Chunk

/-! ## Program headers -/

open Lib

inductive PhdrType where
  | phdr
  | interp
  | note
  | load
  | tls
  | dynamic
  | gnuEhFrame
  | gnuStack
  | gnuRelro
  | armExidx
deriving DecidableEq, Repr

structure Phdr where
  type : PhdrType
  flags : Prot
  align : ℕ
  offset : ℕ := 0
  filesz : ℕ := 0
  vaddr : ℕ := 0
  memsz : ℕ := 0
deriving DecidableEq, Repr

namespace Phdr

/-- The lambda `define` of `create_phdr`. -/
def define (type : PhdrType) (flags : Prot) (minAlign : ℕ) (c : Chunk) : Phdr where
  type := type
  flags := flags
  align := max minAlign c.align
  offset := c.offset
  filesz := if c.isNobits then 0 else c.size
  vaddr := c.addr
  memsz := c.size

/-- The lambda `append`. -/
def append (args : Args) (p : Phdr) (c : Chunk) : Phdr :=
  { p with
    align := max p.align c.align
    filesz := if c.isNobits then p.filesz else args.wordOf (c.addr + c.size - p.vaddr)
    memsz := args.wordOf (c.addr + c.size - p.vaddr) }

def ofRun (args : Args) (type : PhdrType) (flags : Chunk → Prot) (minAlign : Chunk → ℕ) :
    List Chunk → Option Phdr
  | [] => none
  | c :: l => some (l.foldl (append args) (define type (flags c) (minAlign c) c))

end Phdr

variable (args : Args)

/-! ## Runs of chunks -/

def noteRuns (chunks : List Chunk) : List (List Chunk) :=
  runs Chunk.isNote
    (fun first l =>
      (l.takeWhile fun c => c.isNote && c.toPhdrFlags args = first.toPhdrFlags args).length)
    chunks

/-- The chunk is at the same place behind `first` in the file as in memory, with the same
protection. -/
def followsInFile (first c : Chunk) : Bool :=
  !c.isBss && c.toPhdrFlags args = first.toPhdrFlags args &&
    args.wordOf (c.offset - first.offset) = args.wordOf (c.addr - first.addr)

/-- The chunk has no contents in the file and the protection of `first`. -/
def followsAsBss (first c : Chunk) : Bool :=
  c.isBss && c.toPhdrFlags args = first.toPhdrFlags args

def numInFile (first : Chunk) (l : List Chunk) : ℕ :=
  if first.isBss then 0 else (l.takeWhile (followsInFile args first)).length

/-- The number of chunks that are added to an entry of the type `PT_LOAD`. -/
def numLoaded (first : Chunk) (l : List Chunk) : ℕ :=
  numInFile args first l +
    ((l.drop (numInFile args first l)).takeWhile (followsAsBss args first)).length

/-- The chunks of the entries of the type `PT_LOAD`. -/
def loadRuns (chunks : List Chunk) : List (List Chunk) :=
  runs Chunk.isAlloc (numLoaded args) (chunks.filter fun c => !c.isTbss)

/-- The chunks of the entries of the type `PT_TLS`. -/
def tlsRuns (chunks : List Chunk) : List (List Chunk) :=
  runs Chunk.isTls (fun _ l => (l.takeWhile Chunk.isTls).length) chunks

/-- The chunks of the entries of the type `PT_GNU_RELRO`. -/
def relroRuns (chunks : List Chunk) : List (List Chunk) :=
  runs (Chunk.isRelro args) (fun _ l => (l.takeWhile (Chunk.isRelro args)).length) chunks

/-! ## Entries -/

def readOnly : Prot := {}

def ofKind (chunks : List Chunk) (kind : ChunkKind) : Option Chunk :=
  chunks.find? fun c => c.kind = kind

def noteEntries (chunks : List Chunk) : List Phdr :=
  (noteRuns args chunks).filterMap (Phdr.ofRun args .note (Chunk.toPhdrFlags args) Chunk.align)

/-- The entries of the type `PT_LOAD` in ascending order. -/
def loadEntries (chunks : List Chunk) : List Phdr :=
  ((loadRuns args chunks).filterMap
    (Phdr.ofRun args .load (Chunk.toPhdrFlags args) fun _ => args.page)).mergeSort
      fun p q => p.vaddr ≤ q.vaddr

def tlsEntries (chunks : List Chunk) : List Phdr :=
  (tlsRuns chunks).filterMap (Phdr.ofRun args .tls (fun _ => readOnly) fun _ => 1)

def relroEntries (chunks : List Chunk) : List Phdr :=
  if args.zRelro then
    ((relroRuns args chunks).filterMap
      (Phdr.ofRun args .gnuRelro (fun _ => readOnly) fun _ => 1)).map fun p => { p with align := 1 }
  else []

def entryOf (type : PhdrType) (flags : Prot) (minAlign : ℕ) (c : Option Chunk) : List Phdr :=
  c.toList.map (Phdr.define type flags minAlign)

def stackEntry : Phdr where
  type := .gnuStack
  flags := { write := true, exec := args.zExecstack }
  align := 1

def createPhdr (chunks : List Chunk) : List Phdr :=
  entryOf .phdr readOnly args.wordSize ((ofKind chunks .phdr).filter Chunk.isAlloc) ++
    entryOf .interp readOnly 1 (ofKind chunks .interp) ++
    noteEntries args chunks ++ loadEntries args chunks ++ tlsEntries args chunks ++
    entryOf .dynamic { write := true } 1 ((ofKind chunks .dynamic).filter fun c => c.size ≠ 0) ++
    entryOf .gnuEhFrame readOnly 1 (ofKind chunks .ehFrameHdr) ++
    [stackEntry args] ++ relroEntries args chunks ++
    if args.isArm32 then
      entryOf .armExidx readOnly 4 (chunks.find? fun c => c.type = .armExidx)
    else []

end Mold.Elf.Layout
