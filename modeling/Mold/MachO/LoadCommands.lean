import Mathlib.Data.Prod.Lex
import Mold.Lib.Layout
import Mold.Lib.LittleEndian

/-!
# Load commands

A Mach-O file begins with a header and a list of load commands.  `compute_size`
reserves the space for them when the chunks of the first segment are placed, and
`copy_buf` makes the list again when all sizes and addresses are known.

Both make the list with `create_load_commands`, from the arguments of the link, which
do not change, and from the headers of the segments and chunks, which do.
-/

namespace Mold.MachO.LoadCommands

open Mold.Lib

/-- A number stored in a `ul32`. -/
def u32 (x : ℤ) : List Byte := le 4 (x % 2 ^ 32).toNat

/-- A number stored in a `ul64`. -/
def u64 (x : ℤ) : List Byte := le 8 (x % 2 ^ 64).toNat

def ascii (s : String) : List Byte := s.toList.map fun c => Fin.ofNat 256 c.toNat

/-- A buffer of `align_to(size, 8)` bytes that begins with the given ones. -/
def padded (size : ℕ) (bytes : List Byte) : List Byte :=
  bytes ++ List.replicate (alignUp 8 size - bytes.length) 0

/-- A `char[16]` with the given name. -/
def char16 (name : List Byte) : List Byte :=
  (name ++ List.replicate 16 0).take 16

/-! ## The link -/

inductive UuidKind where
  | none
  | hash
  | random
  deriving DecidableEq

inductive OutputType where
  | execute
  | dylib
  | bundle
  deriving DecidableEq

inductive Chunk where
  | machHdr
  | rebase
  | bind
  | lazyBind
  | export_
  | functionStarts
  | dataInCode
  | symtab
  | strtab
  | indirSymtab
  | chainedFixups
  | codeSig
  | other (segname : List Byte) (n : ℕ)
  deriving DecidableEq

def Chunk.segname : Chunk → List Byte
  | machHdr => ascii "__TEXT"
  | other segname _ => segname
  | _ => ascii "__LINKEDIT"

def Chunk.isHidden : Chunk → Bool
  | other _ _ => false
  | _ => true

/-- A dylib with the place that its load command has, or none for the main
executable. -/
structure DylibFile where
  installName : List Byte
  dylibIdx : Option ℕ
  isReexported : Bool
  isWeak : Bool

/-- The arguments that the load commands depend on.  `-headerpad` is read as a
signed hexadecimal number. -/
structure Args where
  pagezeroSize : ℕ
  headerpad : ℤ
  headerpad_ge : -2 ^ 63 ≤ headerpad
  headerpad_lt : headerpad < 2 ^ 63
  uuid : UuidKind
  platform : ℕ
  platformMinVersion : ℕ
  platformSdkVersion : ℕ
  currentVersion : ℕ
  compatibilityVersion : ℕ
  stackSize : ℕ
  functionStarts : Bool
  dataInCodeInfo : Bool
  fixupChains : Bool
  adhocCodesign : Bool
  markDeadStrippableDylib : Bool
  applicationExtension : Bool
  umbrella : List Byte
  finalOutput : List Byte
  rpaths : List (List Byte)

/-- A link behind `create_synthetic_chunks`.  The chunks are in the order of
`compare_chunks`, and the segments in the order in which they were created. -/
structure Link where
  args : Args
  cputype : ℕ
  cpusubtype : ℕ
  toolVersion : ℕ
  outputType : OutputType
  dylibs : List DylibFile
  segnames : List (List Byte)
  chunks : List Chunk
  machHdr_mem : Chunk.machHdr ∈ chunks
  segname_mem : ∀ chunk ∈ chunks, chunk.segname ∈ segnames

def getRank (name : List Byte) : ℕ :=
  if name = ascii "__TEXT" then 0
  else if name = ascii "__DATA_CONST" then 1
  else if name = ascii "__DATA" then 2
  else if name = ascii "__LINKEDIT" then 4
  else 3

/-- The segments in the order of `compare_segments`. -/
def Link.segments (link : Link) : List (List Byte) :=
  link.segnames.mergeSort fun x y =>
    decide (toLex (getRank x, x) ≤ toLex (getRank y, y))

def Link.members (link : Link) (segname : List Byte) : List Chunk :=
  link.chunks.filter fun chunk => chunk.segname = segname

/-- `initprot`, which is also `maxprot`. -/
def initprot (name : List Byte) : ℕ :=
  if name = ascii "__PAGEZERO" then 0
  else if name = ascii "__TEXT" then 5
  else if name = ascii "__LINKEDIT" then 1
  else 3

/-! ## Headers -/

structure SectionHdr where
  sectname : List Byte
  addr : ℕ
  size : ℕ
  offset : ℕ
  p2align : ℕ
  reloff : ℕ
  nreloc : ℕ
  type : ℕ
  attr : ℕ
  reserved1 : ℕ
  reserved2 : ℕ
  reserved3 : ℕ

structure SegmentPlace where
  vmaddr : ℕ
  vmsize : ℕ
  fileoff : ℕ
  filesize : ℕ

/-- The part of the context that changes while addresses are assigned. -/
structure State where
  seg : List Byte → SegmentPlace
  hdr : Chunk → SectionHdr
  entryAddr : ℕ
  globalsOffset : ℕ
  undefsOffset : ℕ
  uuid : Fin 16 → Byte

section Commands

variable (link : Link) (state : State)

/-- The bytes of a `MachSection`. -/
def sectionBytes (chunk : Chunk) : List Byte :=
  let hdr := state.hdr chunk
  char16 hdr.sectname ++ char16 chunk.segname ++ u64 hdr.addr ++ u64 hdr.size ++
    u32 hdr.offset ++ u32 hdr.p2align ++ u32 hdr.reloff ++ u32 hdr.nreloc ++
    le 1 hdr.type ++ le 3 hdr.attr ++ u32 hdr.reserved1 ++ u32 hdr.reserved2 ++
    u32 hdr.reserved3

/-- A `SegmentCommand` with its sections. -/
def segmentCommand (segname : List Byte) (place : SegmentPlace) (prot flags : ℕ)
    (sections : List Chunk) : List Byte :=
  u32 0x19 ++ u32 (72 + 80 * sections.length) ++ char16 segname ++
    u64 place.vmaddr ++ u64 place.vmsize ++ u64 place.fileoff ++ u64 place.filesize ++
    u32 prot ++ u32 prot ++ u32 sections.length ++ u32 flags ++
    sections.flatMap (sectionBytes state)

def createPagezeroCmd : List Byte :=
  segmentCommand state (ascii "__PAGEZERO") ⟨0, link.args.pagezeroSize, 0, 0⟩ 0 0 []

def createSegmentCmd (segname : List Byte) : List Byte :=
  segmentCommand state segname (state.seg segname) (initprot segname)
    (if segname = ascii "__DATA_CONST" then 0x10 else 0)
    ((link.members segname).filter fun sec => !sec.isHidden)

/-- The offset and the size of a chunk that exists, and zeros for one that does not
or is empty. -/
def infoRange (exists_ : Bool) (chunk : Chunk) : List Byte :=
  if exists_ && (state.hdr chunk).size != 0 then
    u32 (state.hdr chunk).offset ++ u32 (state.hdr chunk).size
  else
    u32 0 ++ u32 0

def createDyldInfoOnlyCmd : List Byte :=
  u32 0x80000022 ++ u32 48 ++ infoRange state (!link.args.fixupChains) .rebase ++
    infoRange state (!link.args.fixupChains) .bind ++ u32 0 ++ u32 0 ++
    infoRange state (!link.args.fixupChains) .lazyBind ++ infoRange state true .export_

def createSymtabCmd : List Byte :=
  u32 0x2 ++ u32 24 ++ u32 (state.hdr .symtab).offset ++
    u32 ((state.hdr .symtab).size / 16 : ℕ) ++ u32 (state.hdr .strtab).offset ++
    u32 (state.hdr .strtab).size

def createDysymtabCmd : List Byte :=
  u32 0xb ++ u32 80 ++ u32 0 ++ u32 state.globalsOffset ++ u32 state.globalsOffset ++
    u32 ((state.undefsOffset : ℤ) - state.globalsOffset) ++ u32 state.undefsOffset ++
    u32 ((((state.hdr .symtab).size / 16 : ℕ) : ℤ) - state.undefsOffset) ++
    (List.replicate 6 0).flatMap u32 ++ u32 (state.hdr .indirSymtab).offset ++
    u32 ((state.hdr .indirSymtab).size / 4 : ℕ) ++ (List.replicate 4 0).flatMap u32

def createDylinkerCmd : List Byte :=
  padded 26 (u32 0xe ++ u32 (alignUp 8 26) ++ u32 12 ++ ascii "/usr/lib/dyld" ++ [0])

def createUuidCmd : List Byte := u32 0x1b ++ u32 24 ++ List.ofFn state.uuid

def createBuildVersionCmd : List Byte :=
  padded 32 (u32 0x32 ++ u32 (alignUp 8 32) ++ u32 link.args.platform ++
    u32 link.args.platformMinVersion ++ u32 link.args.platformSdkVersion ++ u32 1 ++
    u32 54321 ++ u32 link.toolVersion)

def createSourceVersionCmd : List Byte := u32 0x2a ++ u32 16 ++ u64 0

def createMainCmd : List Byte :=
  u32 0x80000028 ++ u32 24 ++
    u64 ((state.entryAddr : ℤ) - (state.hdr .machHdr).addr) ++ u64 link.args.stackSize

def dylibCommand (type timestamp current compatibility : ℕ) (name : List Byte) : List Byte :=
  padded (24 + name.length + 1) (u32 type ++ u32 (alignUp 8 (24 + name.length + 1)) ++
    u32 24 ++ u32 timestamp ++ u32 current ++ u32 compatibility ++ name ++ [0])

def createLoadDylibCmd (dylib : DylibFile) : List Byte :=
  dylibCommand
    (if dylib.isReexported then 0x8000001f
      else if dylib.isWeak then 0x80000018
      else 0xc)
    2 link.args.currentVersion link.args.compatibilityVersion dylib.installName

def stringCommand (type : ℕ) (name : List Byte) : List Byte :=
  padded (12 + name.length + 1) (u32 type ++ u32 (alignUp 8 (12 + name.length + 1)) ++
    u32 12 ++ name ++ [0])

def createRpathCmd (name : List Byte) : List Byte := stringCommand 0x8000001c name

def createSubFrameworkCmd : List Byte := stringCommand 0x12 link.args.umbrella

def createIdDylibCmd : List Byte := dylibCommand 0xd 0 0 0 link.args.finalOutput

def linkEditDataCommand (type : ℕ) (chunk : Chunk) : List Byte :=
  u32 type ++ u32 16 ++ u32 (state.hdr chunk).offset ++ u32 (state.hdr chunk).size

def createFunctionStartsCmd : List Byte := linkEditDataCommand state 0x26 .functionStarts

def createDataInCodeCmd : List Byte := linkEditDataCommand state 0x29 .dataInCode

def createDyldChainedFixups : List Byte :=
  linkEditDataCommand state 0x80000034 .chainedFixups

def createDyldExportsTrie : List Byte := linkEditDataCommand state 0x80000033 .export_

def createCodeSignatureCmd : List Byte := linkEditDataCommand state 0x1d .codeSig

def dylibCmds : List (List Byte) → List DylibFile → List (List Byte)
  | _, [] => []
  | seen, file :: files =>
    if file.dylibIdx.isSome && !decide (file.installName ∈ seen) then
      createLoadDylibCmd link file :: dylibCmds (file.installName :: seen) files
    else
      dylibCmds seen files

def fixupCmds : List (List Byte) :=
  if link.args.fixupChains && (state.hdr .chainedFixups).size != 0 then
    createDyldChainedFixups state ::
      if (state.hdr .export_).size != 0 then [createDyldExportsTrie state] else []
  else
    [createDyldInfoOnlyCmd link state]

def typeCmds : List (List Byte) :=
  match link.outputType with
  | .execute => [createDylinkerCmd, createMainCmd link state]
  | .dylib => [createIdDylibCmd link]
  | .bundle => []

def createLoadCommands : List (List Byte) :=
  (if link.args.pagezeroSize ≠ 0 then [createPagezeroCmd link state] else []) ++
    link.segments.map (createSegmentCmd link state) ++
    fixupCmds link state ++
    [createSymtabCmd state, createDysymtabCmd state] ++
    (if link.args.uuid ≠ .none then [createUuidCmd state] else []) ++
    [createBuildVersionCmd link, createSourceVersionCmd] ++
    (if link.args.functionStarts then [createFunctionStartsCmd state] else []) ++
    dylibCmds link [] link.dylibs ++
    link.args.rpaths.map createRpathCmd ++
    (if link.args.dataInCodeInfo then [createDataInCodeCmd state] else []) ++
    (if link.args.umbrella ≠ [] then [createSubFrameworkCmd link] else []) ++
    typeCmds link state ++
    (if link.args.adhocCodesign then [createCodeSignatureCmd state] else [])

/-- `OutputMachHeader::compute_size`; `hdr.size` is a `u64`. -/
def computeSize : ℕ :=
  ((32 + ((createLoadCommands link state).flatten.length : ℤ) + link.args.headerpad) %
    2 ^ 64).toNat

/-! ## Writing -/

def hasTlv : Bool :=
  link.segments.any fun segname =>
    (link.members segname).any fun chunk => (state.hdr chunk).type == 0x13

def hasReexportedLib : Bool := link.dylibs.any fun file => file.isReexported

def machFlags : ℕ :=
  0x200085 + (if hasTlv link state then 0x800000 else 0) +
    (if link.outputType = .dylib ∧ ¬ hasReexportedLib link then 0x100000 else 0) +
    (if link.args.markDeadStrippableDylib then 0x400000 else 0) +
    (if link.args.applicationExtension then 0x2000000 else 0)

def filetype : OutputType → ℕ
  | .execute => 0x2
  | .dylib => 0x6
  | .bundle => 0x8

/-- What `OutputMachHeader::copy_buf` writes from the beginning of the file. -/
def copyBuf : List Byte :=
  let cmds := createLoadCommands link state
  u32 0xfeedfacf ++ u32 link.cputype ++ u32 link.cpusubtype ++
    u32 (filetype link.outputType) ++ u32 cmds.length ++ u32 cmds.flatten.length ++
    u32 (machFlags link state) ++ u32 0 ++ cmds.flatten

end Commands

/-- Whether the size of a chunk of `__LINKEDIT` is computed when it is placed, and
not before. -/
def skip : Chunk → Bool
  | .strtab | .codeSig => true
  | _ => false

/-- The calls of `compute_size` for the chunks of a segment.  Those for most chunks
of `__LINKEDIT` are made in parallel. -/
def CallsOf (link : Link) (segname : List Byte) (calls : List Chunk) : Prop :=
  if segname = ascii "__LINKEDIT" then
    ∃ parallel, parallel.Perm ((link.members segname).filter fun c => !skip c) ∧
      calls = parallel ++ (link.members segname).filter skip
  else
    calls = link.members segname

/-- A run of `assign_offsets` with the states of the context in which the size of the
Mach-O header is computed and in which the header is written.  The header of
`__chainfixups` has the size zero until `compute_size` is called for it. -/
structure Run (link : Link) where
  callsOf : List (List Chunk)
  callsOf_spec : List.Forall₂ (CallsOf link) link.segments callsOf
  before : State
  after : State
  not_computed :
    Chunk.chainedFixups ∉ callsOf.flatten.takeWhile (fun c => decide (c ≠ .machHdr)) →
      (before.hdr .chainedFixups).size = 0

def readCommands : ℕ → List Byte → Option (List (List Byte) × List Byte)
  | 0, buf => some ([], buf)
  | n + 1, buf =>
    if 8 ≤ readAt 4 buf 4 ∧ readAt 4 buf 4 ≤ buf.length then
      (readCommands n (buf.drop (readAt 4 buf 4))).map fun x =>
        (buf.take (readAt 4 buf 4) :: x.1, x.2)
    else
      none

/-- The load commands fit in the reserved space, and the header says how many
there are and how long they are. -/
structure Run.CommandsFit {link : Link} (run : Run link) : Prop where
  fits : ((createLoadCommands link run.after).flatten.length : ℤ) ≤
    (computeSize link run.before : ℤ) - 32
  ncmds : readAt 4 (copyBuf link run.after) 16 = (createLoadCommands link run.after).length
  sizeofcmds : readAt 4 (copyBuf link run.after) 20 =
    (createLoadCommands link run.after).flatten.length
  read : readCommands (readAt 4 (copyBuf link run.after) 16) ((copyBuf link run.after).drop 32) =
    some (createLoadCommands link run.after, [])

def dylibNames : List (List Byte) → List DylibFile → List (List Byte)
  | _, [] => []
  | seen, file :: files =>
    if file.dylibIdx.isSome && !decide (file.installName ∈ seen) then
      file.installName :: dylibNames (file.installName :: seen) files
    else
      dylibNames seen files

def stringSize (header : ℕ) (name : List Byte) : ℕ := alignUp 8 (header + name.length + 1)

def typeSize (link : Link) : ℕ :=
  match link.outputType with
  | .execute => 56
  | .dylib => stringSize 24 link.args.finalOutput
  | .bundle => 0

def commandsSize (link : Link) : ℕ :=
  (if link.args.pagezeroSize ≠ 0 then 72 else 0) +
    (link.segments.map fun segname =>
      72 + 80 * ((link.members segname).filter fun sec => !sec.isHidden).length).sum +
    48 + 104 + (if link.args.uuid ≠ .none then 24 else 0) + 48 +
    (if link.args.functionStarts then 16 else 0) +
    ((dylibNames [] link.dylibs).map (stringSize 24)).sum +
    (link.args.rpaths.map (stringSize 12)).sum +
    (if link.args.dataInCodeInfo then 16 else 0) +
    (if link.args.umbrella ≠ [] then stringSize 12 link.args.umbrella else 0) +
    typeSize link +
    (if link.args.adhocCodesign then 16 else 0)

/-- The number of bytes by which the list becomes shorter when the sizes of the
chunks are known. -/
def slack (link : Link) (after : State) : ℕ :=
  if link.args.fixupChains && (after.hdr .chainedFixups).size != 0 then
    if (after.hdr .export_).size != 0 then 16 else 32
  else
    0

end Mold.MachO.LoadCommands
