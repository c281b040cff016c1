import Mold.Lib.Loop
import Mold.Lib.LittleEndian
import Mathlib.Data.List.DropRight

/-!
# Archive files

An archive begins with eight bytes of magic, and then come its members, each behind a header
of 60 bytes that is at an even offset.  Members may be string tables, symbol tables and
symbol tables of Darwin.  `archive-file.h` has three readers.  `read_fat_archive_members` and
`read_thin_archive_members` return the files of the other members, and `read_archive_file`
returns an index of the members and of the symbols in the last symbol table of Darwin.

Each reader is a loop over a cursor into the bytes of the file.  `Fatal` ends the program, so
a loop that comes to it ends with an error.
-/

namespace Mold.ArchiveFile

open Lib

def str (s : String) : List Byte :=
  s.toList.map fun c => Fin.ofNat 256 c.toNat

/-- `view.substr(pos, n)` -/
def slice (bytes : List Byte) (pos n : ℕ) : List Byte :=
  (bytes.drop pos).take n

/-- The part of a string in front of the first place where another string is found. -/
def before (pat : List Byte) : List Byte → Option (List Byte)
  | [] => none
  | c :: l => if pat.isPrefixOf (c :: l) then some [] else (before pat l).map (c :: ·)

/-! ## Headers -/

/-- The loop of `parse_ar_num` over the digits. -/
def parseDigits : List Byte → ℕ → Option ℕ
  | [], val => some val
  | c :: rest, val =>
    if c.val < 48 ∨ 57 < c.val then none
    else if (0xffffffffffffffff - (c.val - 48)) / 10 < val then none
    else parseDigits rest (val * 10 + (c.val - 48))

def parseArNum (field : List Byte) : Option ℕ :=
  let digits := field.rdropWhile (· = 32)
  if digits.isEmpty then none else parseDigits digits 0

/-- The fields of an `ArHdr` that the readers use. -/
structure ArHdr where
  arName : List Byte
  arSize : List Byte
  arFmag : List Byte
  deriving DecidableEq

def ArHdr.ofBytes (bytes : List Byte) : ArHdr where
  arName := slice bytes 0 16
  arSize := slice bytes 48 10
  arFmag := slice bytes 58 2

namespace ArHdr

variable (hdr : ArHdr)

/-- `ArHdr::starts_with` -/
def startsWith (s : List Byte) : Bool :=
  s.isPrefixOf hdr.arName

/-- `ArHdr::is_strtab` -/
def isStrtab : Bool :=
  hdr.startsWith (str "// ")

/-- `ArHdr::is_symtab` -/
def isSymtab : Bool :=
  hdr.startsWith (str "/ ") || hdr.startsWith (str "/SYM64/ ")

/-- `ArHdr::has_valid_fmag` -/
def hasValidFmag : Bool :=
  hdr.arFmag = str "`\n"

/-- `ArHdr::get_size` -/
def getSize : Option ℕ :=
  parseArNum hdr.arSize

/-- `ArHdr::get_bsd_name_len` -/
def getBsdNameLen : Option ℕ :=
  if hdr.startsWith (str "#1/") then parseArNum (hdr.arName.drop 3) else none

/-- `ArHdr::get_sysv_name_offset` -/
def getSysvNameOffset : Option ℕ :=
  if hdr.startsWith (str "/") then parseArNum (hdr.arName.drop 1) else none

/-- `ArHdr::read_name`, with the number of bytes that the name takes of the body. -/
def readName (strtab body : List Byte) : Option (List Byte × ℕ) :=
  if hdr.startsWith (str "#1/") then
    match hdr.getBsdNameLen with
    | none => none
    | some namelen =>
      if body.length < namelen then none
      else some ((body.take namelen).takeWhile (· ≠ 0), namelen)
  else if hdr.startsWith (str "/") then
    match hdr.getSysvNameOffset with
    | none => none
    | some offset =>
      if strtab.length ≤ offset then none
      else (before (str "/\n") (strtab.drop offset)).map fun name => (name, 0)
  else
    some (hdr.arName.takeWhile (· ≠ 47), 0)

end ArHdr

def isDarwinSymtabName (name : List Byte) : Bool :=
  name = str "__.SYMDEF" || name = str "__.SYMDEF SORTED" || name = str "__.SYMDEF_64" ||
    name = str "__.SYMDEF_64 SORTED"

/-- `is_darwin_symtab_64` -/
def isDarwinSymtab64 (name : List Byte) : Bool :=
  name = str "__.SYMDEF_64" || name = str "__.SYMDEF_64 SORTED"

/-! ## The next header -/

/-- The reasons for which a reader calls `Fatal`. -/
inductive Error where
  | corrupted
  | notLongFilename
  | cannotOpen (path : List Byte)
  deriving DecidableEq

def Error.text (fileName : List Byte) : Error → List Byte
  | .corrupted => fileName ++ str ": corrupted archive"
  | .notLongFilename => fileName ++ str ": filename is not stored as a long filename"
  | .cannotOpen path => str "cannot open " ++ path

structure Header where
  headerOffset : ℕ
  hdr : ArHdr
  body : ℕ
  size : ℕ
  deriving DecidableEq

def align (data : ℕ) : ℕ :=
  if data % 2 = 1 then data + 1 else data

/-- The header at an offset, if it is whole, and its body is. -/
def headerAt (bytes : List Byte) (data : ℕ) : Option Header :=
  if bytes.length - data < 60 then
    none
  else
    let hdr := ArHdr.ofBytes (slice bytes data 60)
    if hdr.hasValidFmag then
      hdr.getSize.bind fun size =>
        if bytes.length - (data + 60) < size then none else some ⟨data, hdr, data + 60, size⟩
    else
      none

/-- How a turn of each reader begins: the next header, if the end is not reached. -/
def nextHeader (bytes : List Byte) (data : ℕ) : Except Error (Option Header) :=
  if bytes.length ≤ data ∨ align data = bytes.length then
    .ok none
  else
    match headerAt bytes (align data) with
    | none => .error .corrupted
    | some h => .ok (some h)

def Header.data (h : Header) (bytes : List Byte) : List Byte :=
  slice bytes h.body h.size

/-! ## `read_fat_archive_members` -/

/-- A cursor of the readers, with the string table and what has been read. -/
structure Cursor (α : Type*) where
  data : ℕ
  strtab : List Byte
  vec : List α

def Cursor.start (α : Type*) : Cursor α :=
  ⟨8, [], []⟩

/-- What `MappedFile::slice` takes. -/
structure Slice where
  name : List Byte
  start : ℕ
  size : ℕ
  deriving DecidableEq

/-- A turn of the loop of `read_fat_archive_members`. -/
def fatTurn (bytes : List Byte) (s : Cursor Slice) :
    Turn (Cursor Slice) (Except Error (List Slice)) :=
  match nextHeader bytes s.data with
  | .error e => .done (.error e)
  | .ok none => .done (.ok s.vec)
  | .ok (some h) =>
    let s := { s with data := h.body + h.size }
    if h.hdr.isStrtab then .next { s with strtab := h.data bytes }
    else if h.hdr.isSymtab then .next s
    else
      match h.hdr.readName s.strtab (h.data bytes) with
      | none => .done (.error .corrupted)
      | some (name, nameSize) =>
        if h.size < nameSize then .done (.error .corrupted)
        else if isDarwinSymtabName name then .next s
        else .next { s with vec := s.vec ++ [⟨name, h.body + nameSize, h.size - nameSize⟩] }

/-- `read_fat_archive_members` ends with a result. -/
def ReadsFat (bytes : List Byte) (res : Except Error (List Slice)) : Prop :=
  Ends (fatTurn bytes) (.start Slice) res

/-- What is around a thin archive: the directory of the archive, and `must_open`. -/
structure Files (φ : Type*) where
  parentPath : List Byte
  mustOpen : List Byte → Option φ

def memberPath (parentPath name : List Byte) : List Byte :=
  if (str "/").isPrefixOf name || parentPath.isEmpty then name
  else if parentPath.getLast? = some 47 then parentPath ++ name
  else parentPath ++ str "/" ++ name

variable {φ : Type*}

/-- A turn of the loop of `read_thin_archive_members`. -/
def thinTurn (files : Files φ) (bytes : List Byte) (s : Cursor φ) :
    Turn (Cursor φ) (Except Error (List φ)) :=
  match nextHeader bytes s.data with
  | .error e => .done (.error e)
  | .ok none => .done (.ok s.vec)
  | .ok (some h) =>
    if h.hdr.isStrtab then
      .next { s with strtab := h.data bytes, data := h.body + h.size }
    else if h.hdr.isSymtab then
      .next { s with data := h.body + h.size }
    else if !h.hdr.startsWith (str "#1/") && !h.hdr.startsWith (str "/") then
      .done (.error .notLongFilename)
    else
      match h.hdr.readName s.strtab (h.data bytes) with
      | none => .done (.error .corrupted)
      | some (name, _) =>
        if isDarwinSymtabName name then
          .next { s with data := h.body + h.size }
        else
          match files.mustOpen (memberPath files.parentPath name) with
          | none => .done (.error (.cannotOpen (memberPath files.parentPath name)))
          -- The cursor has only been aligned.
          | some file => .next { s with data := h.headerOffset, vec := s.vec ++ [file] }

/-- `read_thin_archive_members` ends with a result. -/
def ReadsThin (files : Files φ) (bytes : List Byte) (res : Except Error (List φ)) : Prop :=
  Ends (thinTurn files bytes) (.start φ) res

/-! ## `read_archive_file` -/

inductive ArchiveIndexStatus where
  | ok
  | noDarwinSymtab
  | emptyDarwinSymtab
  deriving DecidableEq

structure ArchiveSymbolInfo where
  name : List Byte
  memberIdx : ℕ
  deriving DecidableEq

structure ArchiveMemberInfo where
  name : List Byte
  path : List Byte
  headerOffset : ℕ
  dataOffset : ℕ
  dataSize : ℕ
  isThin : Bool
  deriving DecidableEq

structure ArchiveFileInfo where
  members : List ArchiveMemberInfo
  symbols : List ArchiveSymbolInfo
  deriving DecidableEq

structure ArchiveReadResult where
  status : ArchiveIndexStatus
  info : Option ArchiveFileInfo
  deriving DecidableEq

/-- `read_u32` and `read_u64` -/
def readWord (width : ℕ) (buf : List Byte) : Except Error ℕ :=
  if buf.length < width then .error .corrupted else .ok (readLe (buf.take width))

def wordSize (name : List Byte) : ℕ :=
  if isDarwinSymtab64 name then 8 else 4

/-- The loop of `parse_darwin_archive_symtab`. -/
def readRanlibs (members : List ArchiveMemberInfo) (width : ℕ) (strtab : List Byte) :
    ℕ → List Byte → Except Error (List ArchiveSymbolInfo)
  | 0, _ => .ok []
  | n + 1, ranlibData =>
    (readWord width ranlibData).bind fun strx =>
    (readWord width (ranlibData.drop width)).bind fun off =>
    if strtab.length ≤ strx then .error .corrupted
    else
      match before [0] (strtab.drop strx), members.findIdx? (·.headerOffset = off) with
      | some symname, some idx =>
        (readRanlibs members width strtab n (ranlibData.drop (2 * width))).map
          (⟨symname, idx⟩ :: ·)
      | _, _ => .error .corrupted

def parseDarwinArchiveSymtab (members : List ArchiveMemberInfo) (name data : List Byte) :
    Except Error (List ArchiveSymbolInfo) :=
  let width := wordSize name
  (readWord width data).bind fun ranlibBytes =>
  let rest := data.drop width
  if ranlibBytes % (2 * width) ≠ 0 ∨ rest.length < ranlibBytes then .error .corrupted
  else
    (readWord width (rest.drop ranlibBytes)).bind fun strtabBytes =>
    let rest' := (rest.drop ranlibBytes).drop width
    if rest'.length < strtabBytes then .error .corrupted
    else
      readRanlibs members width (rest'.take strtabBytes) (ranlibBytes / (2 * width))
        (rest.take ranlibBytes)

/-- The state of the loop of `read_archive_file`. -/
structure IndexCursor where
  data : ℕ
  strtab : List Byte
  symtabName : List Byte
  symtabData : List Byte
  members : List ArchiveMemberInfo
  deriving DecidableEq

/-- Where `read_archive_file` begins. -/
def IndexCursor.start : IndexCursor :=
  ⟨8, [], [], [], []⟩

/-- `get_file_type(ctx, mf) == FileType::THIN_AR` -/
def isThinArchive (bytes : List Byte) : Bool :=
  (str "!<thin>\n").isPrefixOf bytes

/-- What `read_archive_file` pushes for a member. -/
def memberInfo (isThin : Bool) (parentPath : List Byte) (h : Header) (name : List Byte)
    (nameSize : ℕ) : ArchiveMemberInfo where
  name := name
  path := if isThin then memberPath parentPath name else []
  headerOffset := h.headerOffset
  dataOffset := if isThin then 0 else h.body + nameSize
  dataSize := if isThin then 0 else h.size - nameSize
  isThin := isThin

/-- A turn of the loop of `read_archive_file`. -/
def indexTurn (parentPath bytes : List Byte) (s : IndexCursor) :
    Turn IndexCursor (Except Error IndexCursor) :=
  match nextHeader bytes s.data with
  | .error e => .done (.error e)
  | .ok none => .done (.ok s)
  | .ok (some h) =>
    let s := { s with data := h.body + h.size }
    if h.hdr.isStrtab then .next { s with strtab := h.data bytes }
    else if h.hdr.isSymtab then .next s
    else
      match h.hdr.readName s.strtab (h.data bytes) with
      | none => .done (.error .corrupted)
      | some (name, nameSize) =>
        if h.size < nameSize then .done (.error .corrupted)
        else if isDarwinSymtabName name then
          .next { s with
            symtabName := name
            symtabData := slice bytes (h.body + nameSize) (h.size - nameSize) }
        else
          .next { s with
            members := s.members ++ [memberInfo (isThinArchive bytes) parentPath h name nameSize] }

/-- What `read_archive_file` does after its loop. -/
def finishIndex (s : IndexCursor) : Except Error ArchiveReadResult :=
  if s.symtabName.isEmpty then
    .ok ⟨.noDarwinSymtab, none⟩
  else
    (parseDarwinArchiveSymtab s.members s.symtabName s.symtabData).map fun symbols =>
      ⟨if symbols.isEmpty then .emptyDarwinSymtab else .ok, some ⟨s.members, symbols⟩⟩

/-- `read_archive_file` ends with a result. -/
def ReadsIndex (parentPath bytes : List Byte) (res : Except Error ArchiveReadResult) : Prop :=
  ∃ loop, Ends (indexTurn parentPath bytes) .start loop ∧ res = loop.bind finishIndex

end Mold.ArchiveFile
