import Mold.Lib.BinarySearch
import Mold.Lib.LittleEndian
import Mold.MachO.UnwindAddresses

/-!
# The bytes of `__unwind_info`

`encode_unwind_info` writes a header, the personalities, a first-level table
with an entry for each group of records and a terminator, the table of LSDAs,
and a second-level page for each group.  A page has an entry for each record,
which consists of the offset of the function from the first function of the page
and of an index into the encodings at the end of the page.

The unwinder looks up an address relative to the Mach-O header: it searches the
first-level table and then the page that it finds.
-/

namespace Mold.MachO.UnwindInfo

open Mold.Lib Mold.MachO.EhFrame

/-- Unwind records with what is known when `__unwind_info` is written: the
addresses and lengths of the subsections, the addresses of the GOT slots, and the
address of the Mach-O header, which is in front of all subsections. -/
structure Image (σ τ : Type*) where
  target : Target
  records : List (EhFrame.UnwindRecord σ τ)
  fdeOutputOffset : FdePtr → ℕ := fun _ => 0
  addr : σ → ℕ
  inputSize : σ → ℕ
  gotAddr : τ → ℕ := fun _ => 0
  machHdrAddr : ℕ
  machHdrAddr_le : ∀ s, machHdrAddr ≤ addr s
  codeLen_lt : ∀ rec ∈ records, rec.codeLen < 2 ^ 32
  encoding_lt : ∀ rec ∈ records, rec.encoding < 2 ^ 32
  fdeOutputOffset_lt : ∀ ptr, fdeOutputOffset ptr < 2 ^ 32

structure UnwindFirstLevelPage where
  funcAddr : ℕ
  pageOffset : ℕ
  lsdaOffset : ℕ

def UnwindFirstLevelPage.bytes (page : UnwindFirstLevelPage) : List Byte :=
  le 4 page.funcAddr ++ le 4 page.pageOffset ++ le 4 page.lsdaOffset

variable {σ τ : Type*}

namespace Image

variable (image : Image σ τ)

def funcAddr (rec : EhFrame.UnwindRecord σ τ) : ℕ := getFuncAddr image.addr rec

/-- The map from encodings to indices, as the list of its keys: insert an encoding
with the next index unless it is there. -/
def insertEncoding (map : List ℕ) (encoding : ℕ) : List ℕ :=
  if encoding ∈ map then map else map ++ [encoding]

def palette (page : List (EhFrame.UnwindRecord σ τ)) : List ℕ :=
  page.foldl (fun map rec => insertEncoding map rec.encoding) []

/-- The entry of a record in a page that begins with `first`. -/
def entryBytes (map : List ℕ) (first rec : EhFrame.UnwindRecord σ τ) : List Byte :=
  le 3 (Link.entryFuncAddr (image.funcAddr first) (image.funcAddr rec)) ++
    le 1 (map.idxOf rec.encoding)

def pageBytes : List (EhFrame.UnwindRecord σ τ) → List Byte
  | [] => []
  | first :: rest =>
    le 4 3 ++ le 2 12 ++ le 2 (first :: rest).length ++ le 2 (12 + 4 * (first :: rest).length) ++
      le 2 (palette (first :: rest)).length ++
      (first :: rest).flatMap (image.entryBytes (palette (first :: rest)) first) ++
      (palette (first :: rest)).flatMap (le 4)

/-! ## The tables in front -/

def lsdaEntries (page : List (EhFrame.UnwindRecord σ τ)) : List (ℕ × ℕ) :=
  page.filterMap fun rec => rec.lsda.map fun s =>
    (image.funcAddr rec - image.machHdrAddr, image.addr s + rec.lsdaOffset - image.machHdrAddr)

def lsdaBytes (entry : ℕ × ℕ) : List Byte := le 4 entry.1 ++ le 4 entry.2

/-- The first-level table, with the place of the next page and of the next LSDA
and the last record of all. -/
def firstLevel (last : EhFrame.UnwindRecord σ τ) :
    ℕ → ℕ → List (List (EhFrame.UnwindRecord σ τ)) → List UnwindFirstLevelPage
  | _, lsda, [] =>
    [{ funcAddr := image.addr last.subsec + image.inputSize last.subsec + 1
       pageOffset := 0
       lsdaOffset := lsda }]
  | page2, lsda, page :: pages =>
    { funcAddr := (page.head?.map image.funcAddr).getD 0
      pageOffset := page2
      lsdaOffset := lsda } ::
    firstLevel last (page2 + (image.pageBytes page).length)
      (lsda + 8 * (image.lsdaEntries page).length) pages

def headerWords (numPersonalities numPages : ℕ) : List ℕ :=
  [1, 28, 0, 28, numPersonalities, 28 + 4 * numPersonalities, numPages + 1]

def encodeUnwindInfo (personalities : List τ)
    (pages : List (List (EhFrame.UnwindRecord σ τ))) (numLsda : ℕ) : List Byte :=
  match pages.flatten.getLast? with
  | none => []
  | some last =>
    let lsda := 28 + 4 * personalities.length + 12 * (pages.length + 1)
    let page2 := lsda + 8 * numLsda
    let entries := pages.flatMap image.lsdaEntries
    (headerWords personalities.length pages.length).flatMap (le 4) ++
      personalities.flatMap (fun sym => le 4 (image.gotAddr sym)) ++
      (image.firstLevel last page2 lsda pages).flatMap UnwindFirstLevelPage.bytes ++
      entries.flatMap lsdaBytes ++
      List.replicate (8 * (numLsda - entries.length)) 0 ++
      pages.flatMap image.pageBytes

section Contents

variable [DecidableEq τ]

def encoded : Option (List τ × List (EhFrame.UnwindRecord σ τ)) :=
  EhFrame.Link.encodeRecords image.target image.fdeOutputOffset [] image.records

/-- The contents of the section that `compute_size` and `copy_buf` make from
records with complete encodings. -/
def contents (personalities : List τ) (records : List (EhFrame.UnwindRecord σ τ)) : List Byte :=
  image.encodeUnwindInfo personalities (pages image.target image.addr records)
    (records.countP fun rec => rec.lsda.isSome)

end Contents

end Image

/-! ## Lookup -/

/-- The place of the entry of the first-level table for an address relative to the
Mach-O header. -/
def findPage (buf : List Byte) (offset : ℕ) : Option ℕ :=
  (lastAtMost (fun i => readAt 4 buf (readAt 4 buf 20 + 12 * i)) offset
    (readAt 4 buf 24)).map fun i => readAt 4 buf 20 + 12 * i

/-- The place of the entry in a second-level page for an offset from the first
function of the page. -/
def findEntry (buf : List Byte) (page offset : ℕ) : Option ℕ :=
  (lastAtMost (fun i => readAt 3 buf (page + readAt 2 buf (page + 4) + 4 * i)) offset
    (readAt 2 buf (page + 6))).map fun i => page + readAt 2 buf (page + 4) + 4 * i

def readEncoding (buf : List Byte) (page index : ℕ) : ℕ :=
  if index < readAt 4 buf 8 then
    readAt 4 buf (readAt 4 buf 4 + 4 * index)
  else
    readAt 4 buf (page + readAt 2 buf (page + 8) + 4 * (index - readAt 4 buf 8))

def lookup (buf : List Byte) (offset : ℕ) : Option ℕ :=
  (findPage buf offset).bind fun place =>
    if readAt 4 buf (readAt 4 buf (place + 4)) = 3 then
      (findEntry buf (readAt 4 buf (place + 4)) (offset - readAt 4 buf place)).map
        fun entry => readEncoding buf (readAt 4 buf (place + 4)) (readAt 1 buf (entry + 3))
    else
      none

/-- The address of the LSDA of the function at the given address, from the table
between the LSDA offsets of the first entry and the terminator. -/
def lookupLsda (buf : List Byte) (function : ℕ) : Option ℕ :=
  let first := readAt 4 buf (readAt 4 buf 20 + 8)
  let stop := readAt 4 buf (readAt 4 buf 20 + 12 * (readAt 4 buf 24 - 1) + 8)
  (lastAtMost (fun i => readAt 4 buf (first + 8 * i)) function
    ((stop - first) / 8)).bind fun i =>
      if readAt 4 buf (first + 8 * i) = function then
        some (readAt 4 buf (first + 8 * i + 4))
      else
        none

def Image.InRange (image : Image σ τ) (rec : EhFrame.UnwindRecord σ τ) (x : ℕ) : Prop :=
  image.funcAddr rec ≤ x ∧ x < image.funcAddr rec + rec.codeLen

/-- The encoding of a record.  The bits 28 and 29 are the index of the
personality. -/
def Image.RightEncoding (image : Image σ τ) (personalities : List τ)
    (rec : EhFrame.UnwindRecord σ τ) (encoding : ℕ) : Prop :=
  match rec.fde, rec.personality with
  | some ptr, _ => encoding = image.target.unwindModeDwarf ||| image.fdeOutputOffset ptr
  | none, some sym =>
    encoding % 2 ^ 28 = rec.encoding % 2 ^ 28 ∧ encoding / 2 ^ 30 = rec.encoding / 2 ^ 30 ∧
      ∃ i, encoding / 2 ^ 28 % 4 = i + 1 ∧ personalities[i]? = some sym
  | none, none => encoding = rec.encoding

section Correct

variable [DecidableEq τ]

/-- The tables that are made from the personalities and the records with complete
encodings yield the encoding of each record for all addresses of its function, and
its LSDA. -/
def Image.LookupCorrect (image : Image σ τ) (personalities : List τ)
    (records : List (EhFrame.UnwindRecord σ τ)) : Prop :=
  ∀ rec ∈ image.records,
    (∀ x, image.InRange rec x →
      ∃ encoding, lookup (image.contents personalities records)
          (x - image.machHdrAddr) = some encoding ∧
        image.RightEncoding personalities rec encoding) ∧
    ∀ s, rec.lsda = some s →
      lookupLsda (image.contents personalities records) (image.funcAddr rec - image.machHdrAddr) =
        some (image.addr s + rec.lsdaOffset - image.machHdrAddr)

/-- The first record of the last run of records of which each can be merged with
the next one.  The run that is open has the first record `first` and goes to
`prev`. -/
def lastRunFrom (target : Target) (addr : σ → ℕ) (first prev : EhFrame.UnwindRecord σ τ) :
    List (EhFrame.UnwindRecord σ τ) → EhFrame.UnwindRecord σ τ
  | [] => first
  | next :: rest =>
    if canMerge target addr prev next then
      lastRunFrom target addr first next rest
    else
      lastRunFrom target addr next next rest

def lastRun (target : Target) (addr : σ → ℕ) :
    List (EhFrame.UnwindRecord σ τ) → Option (EhFrame.UnwindRecord σ τ)
  | [] => none
  | rec :: rest => some (lastRunFrom target addr rec rec rest)

/-- All functions end at most one byte behind the subsection of the first record of
the last run. -/
def Image.LastRunCovered (image : Image σ τ) (records : List (EhFrame.UnwindRecord σ τ)) : Prop :=
  ∀ first ∈ lastRun image.target image.addr (sortRecords image.addr records),
    ∀ rec ∈ image.records, image.funcAddr rec + rec.codeLen ≤
      image.addr first.subsec + image.inputSize first.subsec + 1

end Correct

/-- Every function has a length, the ranges are apart, the image lies between two
multiples of `2 ^ 32`, there are fewer than `2 ^ 26 - 1` records, and the
personality bits of the input are clear. -/
structure Image.Fits (image : Image σ τ) : Prop where
  codeLen_pos : ∀ rec ∈ image.records, 0 < rec.codeLen
  disjoint : image.records.Pairwise fun a b =>
    ∀ x, ¬ (image.InRange a x ∧ image.InRange b x)
  funcEnd : ∀ rec ∈ image.records,
    (image.funcAddr rec + rec.codeLen) / 2 ^ 32 = image.machHdrAddr / 2 ^ 32
  subsecEnd : ∀ rec ∈ image.records,
    (image.addr rec.subsec + image.inputSize rec.subsec + 1) / 2 ^ 32 = image.machHdrAddr / 2 ^ 32
  lsda : ∀ rec ∈ image.records, ∀ s ∈ rec.lsda,
    (image.addr s + rec.lsdaOffset) / 2 ^ 32 = image.machHdrAddr / 2 ^ 32
  length : image.records.length + 2 < 2 ^ 26
  bits : ∀ rec ∈ image.records, rec.personality.isSome = true → rec.encoding / 2 ^ 28 % 4 = 0

end Mold.MachO.UnwindInfo
