import Mathlib.Algebra.GroupWithZero.Nat
import Mathlib.Data.List.Dedup
import Mathlib.Data.Nat.Basic

/-!
# Input sections and COMDAT groups of a relocatable link

`initialize_sections` of `input-files.cc` decides which sections of an object file become input
sections and reads its COMDAT groups.  Then the groups that another file owns are eliminated,
`.eh_frame` sections are killed and mergeable sections are split, each as far as it decides
which input sections are alive when output sections are created.  The names of sections and
signatures are those of the file, and a group comes with its words.

Input sections with the same output name, type and flags go to one output section
(`create_output_sections` of `passes.cc`).  `create_comdat_group_sections` of `relocatable.cc`
makes a section for each COMDAT group that is kept, with the output sections of its members,
and `compute_section_headers` removes empty chunks and gives the other ones their indices.
-/

namespace Mold.Elf.Relocatable

structure Target where
  isRela : Bool
  relSize : ℕ
  isArm32 : Bool
  isAlpha : Bool
  isX8664 : Bool

/-- The options that are read.  A link without `--unique` matches no name. -/
structure Args where
  relocatableMergeSections : Bool
  unique : String → Bool
  zKeepTextSectionPrefix : Bool
  stripAll : Bool
  stripDebug : Bool
  oformatBinary : Bool
  gdbIndex : Bool

/-- What is read of a section header.  `signature` is the name that the symbol of `sh_info`
gives to a group and `entries` are the words of the group. -/
structure ElfShdr where
  name : String
  type : ℕ
  flags : BitVec 64
  info : ℕ
  size : ℕ
  entsize : ℕ
  signature : String
  entries : List ℕ

def shtNull : ℕ := 0
def shtProgbits : ℕ := 1
def shtSymtab : ℕ := 2
def shtStrtab : ℕ := 3
def shtRela : ℕ := 4
def shtRel : ℕ := 9
def shtInitArray : ℕ := 14
def shtFiniArray : ℕ := 15
def shtGroup : ℕ := 17
def shtSymtabShndx : ℕ := 18
def shtX8664Unwind : ℕ := 0x70000001
def shtArmAttributes : ℕ := 0x70000003

def shfWrite : BitVec 64 := 0x1
def shfAlloc : BitVec 64 := 0x2
def shfMerge : BitVec 64 := 0x10
def shfStrings : BitVec 64 := 0x20
def shfCompressed : BitVec 64 := 0x800

def grpComdat : ℕ := 1

def ElfShdr.has (shdr : ElfShdr) (flag : BitVec 64) : Bool :=
  shdr.flags &&& flag ≠ 0

/-- `std::string_view::starts_with` -/
def startsWith (name head : String) : Bool :=
  head.toList.isPrefixOf name.toList

def Target.relType (t : Target) : ℕ :=
  if t.isRela then shtRela else shtRel

/-! ## Reading a file -/

def isDebugSection (shdr : ElfShdr) : Bool :=
  !shdr.has shfAlloc && startsWith shdr.name ".debug"

def specialTypes : List ℕ :=
  [shtGroup, shtSymtabShndx, shtSymtab, shtStrtab, shtRel, shtRela, shtNull, shtArmAttributes]

def ignoredNames : List String :=
  [".note.gnu.property", ".note.gnu.build-id", ".gnu.linkonce.t.__x86.get_pc_thunk.bx",
    ".gnu.linkonce.t.__i686.get_pc_thunk.bx", ".gnu.linkonce.d.DW.ref.__gxx_personality_v0"]

/-- `initialize_sections` makes an input section. -/
def isInputSection (args : Args) (shdr : ElfShdr) : Bool :=
  !specialTypes.contains shdr.type && !ignoredNames.contains shdr.name &&
    !((args.stripAll || args.stripDebug) && isDebugSection shdr) &&
    !(args.oformatBinary && !shdr.has shfAlloc)

/-- The contents of some debug sections are copied to `.gdb_index`. -/
def startsAlive (args : Args) (shdr : ElfShdr) : Bool :=
  !(args.gdbIndex &&
    (shdr.name = ".debug_gnu_pubnames" || shdr.name = ".debug_gnu_pubtypes"))

structure ComdatGroupRef where
  signature : String
  sectIdx : ℕ
  members : List ℕ
  deriving DecidableEq

def readGroup (i : ℕ) (shdr : ElfShdr) : Option (Option ComdatGroupRef) :=
  if shdr.type ≠ shtGroup ∨ startsWith shdr.signature "wm4." then
    some none
  else
    match shdr.entries with
    | [] => none
    | flag :: members =>
      if flag = 0 then
        some none
      else if flag = grpComdat then
        some (some ⟨shdr.signature, i, members⟩)
      else
        none

/-- The COMDAT groups of the sections from `i` on. -/
def readGroups : ℕ → List ElfShdr → Option (List ComdatGroupRef)
  | _, [] => some []
  | i, shdr :: shdrs =>
    (readGroup i shdr).bind fun ref =>
      (readGroups (i + 1) shdrs).map fun refs => ref.toList ++ refs

structure ObjectFile where
  priority : ℕ
  elfSections : List ElfShdr
  comdatGroups : List ComdatGroupRef
  read : readGroups 0 elfSections = some comdatGroups

namespace ObjectFile

/-- `relsec_idx`: the last relocation section for a section. -/
def relsecIdx (t : Target) (file : ObjectFile) (i : ℕ) : Option ℕ :=
  file.elfSections.zipIdx.reverse.findSome? fun (shdr, j) =>
    if shdr.type = t.relType ∧ shdr.info = i then some j else none

def numRels (t : Target) (file : ObjectFile) (i : ℕ) : ℕ :=
  match (file.relsecIdx t i).bind fun j => file.elfSections[j]? with
  | none => 0
  | some shdr => shdr.size / t.relSize

/-- `split_section` makes a mergeable section. -/
def splits (t : Target) (file : ObjectFile) (i : ℕ) (shdr : ElfShdr) : Bool :=
  (file.relsecIdx t i).isNone && shdr.has shfMerge &&
    (shdr.size = 0 || shdr.has shfStrings || shdr.entsize ≠ 0)

end ObjectFile

/-! ## What is alive -/

section

variable (t : Target) (args : Args) (objs : List ObjectFile)

def owner (signature : String) : ℕ :=
  ((objs.filter fun file => file.comdatGroups.any fun ref => ref.signature = signature).map
    ObjectFile.priority).foldl min 0xffffffff

def isOwned (file : ObjectFile) (ref : ComdatGroupRef) : Bool :=
  owner objs ref.signature = file.priority

def isEliminated (file : ObjectFile) (i : ℕ) : Bool :=
  file.comdatGroups.any fun ref => !isOwned objs file ref && ref.members.contains i

/-- `is_alive` when output sections are created. -/
def isAlive (file : ObjectFile) (i : ℕ) : Bool :=
  match file.elfSections[i]? with
  | none => false
  | some shdr =>
    isInputSection args shdr && startsAlive args shdr && !isEliminated objs file i &&
      shdr.name ≠ ".eh_frame" && !file.splits t i shdr

end

/-! ## Output sections and groups of a relocatable link -/

structure OutputSectionKey where
  name : String
  type : ℕ
  flags : BitVec 64
  deriving DecidableEq

def canonicalizeType (t : Target) (name : String) (type : ℕ) : ℕ :=
  if type = shtProgbits ∧ (name = ".init_array" ∨ startsWith name ".init_array.") then
    shtInitArray
  else if type = shtProgbits ∧ (name = ".fini_array" ∨ startsWith name ".fini_array.") then
    shtFiniArray
  else if t.isX8664 ∧ type = shtX8664Unwind then
    shtProgbits
  else
    type

/-- The first of some prefixes that a name has, without the dot at its end. -/
def stemOf (prefixes : List String) (name : String) : Option String :=
  prefixes.findSome? fun head =>
    let stem := String.ofList head.toList.dropLast
    if name = stem ∨ startsWith name head then some stem else none

def textPrefixes : List String :=
  [".text.hot.", ".text.unknown.", ".text.unlikely.", ".text.startup.", ".text.exit."]

def outputPrefixes : List String :=
  [".text.", ".data.rel.ro.", ".data.", ".rodata.", ".bss.rel.ro.", ".bss.", ".init_array.",
    ".fini_array.", ".tbss.", ".tdata.", ".gcc_except_table.", ".ctors.", ".dtors.",
    ".gnu.warning."]

def getOutputName (t : Target) (args : Args) (shdr : ElfShdr) : String :=
  let name := shdr.name
  if !args.relocatableMergeSections || args.unique name || shdr.has shfMerge then
    name
  else if t.isArm32 && startsWith name ".ARM.exidx" then
    ".ARM.exidx"
  else if t.isArm32 && startsWith name ".ARM.extab" then
    ".ARM.extab"
  else if t.isAlpha && startsWith name ".sdata." then
    ".sdata"
  else if t.isAlpha && startsWith name ".sbss." then
    ".sbss"
  else
    match if args.zKeepTextSectionPrefix then stemOf textPrefixes name else none with
    | some stem => stem
    | none => (stemOf outputPrefixes name).getD name

/-- `get_output_section_key` with `--relocatable`: the flag of groups stays. -/
def getOutputSectionKey (t : Target) (args : Args) (shdr : ElfShdr) : OutputSectionKey :=
  let name := getOutputName t args shdr
  let type := canonicalizeType t name shdr.type
  let flags := shdr.flags &&& ~~~shfCompressed
  { name := name
    type := type
    flags := if type = shtInitArray ∨ type = shtFiniArray then flags ||| shfWrite else flags }

inductive Chunk where
  /-- A header or a synthetic section of some size -/
  | other (isHeader : Bool) (size : ℕ)
  | osec (key : OutputSectionKey)
  | reloc (key : OutputSectionKey)
  | group (file : ℕ) (sectIdx : ℕ) (numMembers : ℕ)
  deriving DecidableEq

section

variable (t : Target) (args : Args) (objs : List ObjectFile)

def outputSection (file : ObjectFile) (i : ℕ) : Option OutputSectionKey :=
  if isAlive t args objs file i then
    file.elfSections[i]?.map (getOutputSectionKey t args)
  else
    none

def sectionIds : List (ℕ × ℕ) :=
  objs.zipIdx.flatMap fun (file, f) => (List.range file.elfSections.length).map fun i => (f, i)

def outputSectionOf (id : ℕ × ℕ) : Option OutputSectionKey :=
  objs[id.1]?.bind fun file => outputSection t args objs file id.2

def membersOf (key : OutputSectionKey) : List (ℕ × ℕ) :=
  (sectionIds objs).filter fun id => outputSectionOf t args objs id = some key

/-- The output sections that `create_output_sections` makes. -/
def outputSections : List OutputSectionKey :=
  ((sectionIds objs).filterMap (outputSectionOf t args objs)).dedup

def numRelocs (key : OutputSectionKey) : ℕ :=
  ((membersOf t args objs key).map fun id =>
    (objs[id.1]?.map fun file => file.numRels t id.2).getD 0).sum

/-- The chunk that a member of a group becomes.  A member without output section is followed
as a null pointer. -/
def memberChunk (file : ObjectFile) (j : ℕ) : Option Chunk :=
  match file.elfSections[j]? with
  | none => none
  | some shdr =>
    if shdr.type = t.relType then
      (outputSection t args objs file shdr.info).map .reloc
    else
      (outputSection t args objs file j).map .osec

/-- `create_comdat_group_sections` for one group. -/
def groupChunks (file : ObjectFile) (ref : ComdatGroupRef) : Option (List Chunk) :=
  ref.members.mapM (memberChunk t args objs file)

def groupSections : List Chunk :=
  objs.zipIdx.flatMap fun (file, f) =>
    (file.comdatGroups.filter (isOwned objs file)).map fun ref =>
      .group f ref.sectIdx ref.members.length

def createdChunks (others : List (Bool × ℕ)) : List Chunk :=
  others.map (fun other => .other other.1 other.2) ++ (outputSections t args objs).map .osec ++
    (outputSections t args objs).map .reloc ++ groupSections objs

/-- `sh_size` of a chunk other than an output section. -/
def chunkSize : Chunk → ℕ
  | .other _ size => size
  | .osec _ => 0
  | .reloc key => numRelocs t args objs key * t.relSize
  | .group _ _ numMembers => numMembers * 4 + 4

/-- `compute_section_headers` keeps a chunk and gives it an index. -/
def hasShndx : Chunk → Bool
  | .other true _ => false
  | .osec _ => true
  | c => chunkSize t args objs c ≠ 0

def sectionTable (chunks : List Chunk) : List Chunk :=
  chunks.filter (hasShndx t args objs)

/-- `shndx`, which stays 0 for removed chunks. -/
def shndx (chunks : List Chunk) (c : Chunk) : ℕ :=
  let table := sectionTable t args objs chunks
  if c ∈ table then table.idxOf c + 1 else 0

/-- `ComdatGroupSection::copy_buf`: the words of a group. -/
def groupWords (chunks : List Chunk) (file : ObjectFile) (ref : ComdatGroupRef) :
    Option (List ℕ) :=
  (groupChunks t args objs file ref).map fun members =>
    grpComdat :: members.map (shndx t args objs chunks)

end

end Mold.Elf.Relocatable
