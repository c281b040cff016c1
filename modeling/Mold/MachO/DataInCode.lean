import Mathlib.Data.List.Basic
import Mathlib.Algebra.GroupWithZero.Nat
import Mathlib.Algebra.Ring.Int.Defs

/-!
# Data in code

`LC_DATA_IN_CODE` of an object file lists the places where functions contain
data.  `DataInCodeSection::compute_size` goes over the list and over the live
subsections of the file at the same time, and translates the entries to output
offsets.

The subsections are those that are left when the section is built.  The ones of
common symbols stand behind the others and have no address in the file.
-/

namespace Mold.MachO.DataInCode

variable {σ : Type*}

/-! ## The merge of two lists -/

structure Entry where
  offset : ℕ
  length : ℕ
  kind : ℕ
  deriving DecidableEq

structure Subsection (σ : Type*) where
  id : σ
  inputAddr : ℕ := 0
  inputSize : ℕ
  isAlive : Bool := true

namespace Subsection

def inputEnd (subsec : Subsection σ) : ℕ := subsec.inputAddr + subsec.inputSize

def Contains (subsec : Subsection σ) (offset : ℕ) : Prop :=
  subsec.inputAddr ≤ offset ∧ offset < subsec.inputEnd

instance instDecidableContains (subsec : Subsection σ) (offset : ℕ) :
    Decidable (subsec.Contains offset) :=
  inferInstanceAs (Decidable (_ ∧ _))

end Subsection

/-- The subsections of an object file in the order of their addresses, those of its
common symbols, and the entries of `LC_DATA_IN_CODE`, if there is such a command. -/
structure ObjectFile (σ : Type*) where
  parsed : List (Subsection σ)
  commons : List (Subsection σ)
  dataInCode : Option (List Entry)
  apart : parsed.Pairwise fun s t => s.inputEnd ≤ t.inputAddr
  sorted : (dataInCode.getD []).Pairwise fun d e => d.offset ≤ e.offset
  fits : ∀ subsec ∈ parsed ++ commons, subsec.inputEnd < 2 ^ 32
  nodup : ((parsed ++ commons).map Subsection.id).Nodup

/-- The addresses of the subsections in the output, and that of `__TEXT`. -/
structure Placement (σ : Type*) where
  addr : σ → ℕ
  textVmaddr : ℕ

namespace ObjectFile

variable (file : ObjectFile σ)

def live : List (Subsection σ) := file.parsed.filter Subsection.isAlive

def liveCommons : List (Subsection σ) := file.commons.filter Subsection.isAlive

/-- `subsections`, from which the dead ones have been erased. -/
def subsections : List (Subsection σ) := file.live ++ file.liveCommons

def entries : List Entry := file.dataInCode.getD []

end ObjectFile

/-- The entry that is made for `ent` at `subsec`.  The difference has 64 bits and is
stored in 32. -/
def makeEntry (place : Placement σ) (subsec : Subsection σ) (ent : Entry) : Entry :=
  { ent with
    offset := (((place.addr subsec.id : ℤ) + subsec.inputAddr - ent.offset -
      place.textVmaddr) % 2 ^ 32).toNat }

/-- The loop over the subsections of a file.  What is added to `contents` is given
together with the entry that it was made for. -/
def translate (place : Placement σ) : List (Subsection σ) → List Entry → List (Entry × Entry)
  | [], _ => []
  | _, [] => []
  | subsec :: subsecs, ent :: entries =>
    if subsec.inputEnd < ent.offset then
      translate place subsecs (ent :: entries)
    else if ent.offset < subsec.inputEnd then
      (ent, makeEntry place subsec ent) :: translate place subsecs entries
    else
      translate place subsecs entries

def ObjectFile.translated (file : ObjectFile σ) (place : Placement σ) : List (Entry × Entry) :=
  match file.dataInCode with
  | none => []
  | some entries => translate place file.subsections entries

/-- `DataInCodeSection::compute_size` -/
def contents (objs : List (ObjectFile σ)) (place : Placement σ) : List Entry :=
  objs.flatMap fun file => (file.translated place).map Prod.snd

def moveEntry (place : Placement σ) (subsec : Subsection σ) (ent : Entry) : Entry :=
  { ent with
    offset := (((place.addr subsec.id : ℤ) + (ent.offset - subsec.inputAddr) -
      place.textVmaddr) % 2 ^ 32).toNat }

def expectedIn (place : Placement σ) (subsecs : List (Subsection σ)) (entries : List Entry) :
    List (Entry × Entry) :=
  entries.filterMap fun ent =>
    (subsecs.find? fun subsec => subsec.Contains ent.offset).map fun subsec =>
      (ent, moveEntry place subsec ent)

/-- Wherever the subsections are placed, every entry inside a live subsection becomes
one entry of the output, and nothing else does. -/
def Translates (objs : List (ObjectFile σ)) : Prop :=
  ∀ place, ∀ file ∈ objs, file.translated place = expectedIn place file.live file.entries

/-! ## When the translation is right -/

def IsFree (entries : List Entry) (subsec : Subsection σ) : Bool :=
  !entries.any fun ent => subsec.Contains ent.offset

def countAt (entries : List Entry) (offset : ℕ) : ℕ :=
  entries.countP fun ent => ent.offset = offset

def countFree (subsecs : List (Subsection σ)) (entries : List Entry) (offset : ℕ) : ℕ :=
  subsecs.countP fun subsec => subsec.inputEnd = offset ∧ IsFree entries subsec

/-- A live subsection has at most one entry, which is at its first byte (or exactly
2 GiB behind it), and the subsections that end there have one too.  An entry in no
live subsection stands behind all of them, or at the end of one without entries. -/
structure SafeIn (subsecs : List (Subsection σ)) (entries : List Entry) : Prop where
  atStart : ∀ ent ∈ entries, ∀ subsec ∈ subsecs, subsec.Contains ent.offset →
    (ent.offset - subsec.inputAddr) % 2 ^ 31 = 0
  alone : ∀ subsec ∈ subsecs, (entries.countP fun ent => subsec.Contains ent.offset) ≤ 1
  reached : ∀ ent ∈ entries, (∃ subsec ∈ subsecs, subsec.Contains ent.offset) →
    ∀ subsec ∈ subsecs, subsec.inputEnd = ent.offset → IsFree entries subsec = false
  removed : ∀ ent ∈ entries, (∀ subsec ∈ subsecs, ¬ subsec.Contains ent.offset) →
    (∀ subsec ∈ subsecs, subsec.inputEnd ≤ ent.offset) ∨
      countAt entries ent.offset ≤ countFree subsecs entries ent.offset

def behind (subsecs : List (Subsection σ)) (entries : List Entry) : List Entry :=
  entries.filter fun ent => ∀ subsec ∈ subsecs, subsec.inputEnd ≤ ent.offset

/-- The entries for which no subsection with an address is left.  Those without
entries that end at the first one have taken one each. -/
def leftOver (subsecs : List (Subsection σ)) (entries : List Entry) : List Entry :=
  match behind subsecs entries with
  | [] => []
  | ent :: rest =>
    (ent :: rest).drop (min (countAt entries ent.offset) (countFree subsecs entries ent.offset))

/-- No common symbol is longer than the offset of the first entry that is left.  One
whose size is the offset takes the entry away. -/
def PassBy : List (Subsection σ) → List Entry → Prop
  | [], _ => True
  | _, [] => True
  | subsec :: subsecs, ent :: entries =>
    subsec.inputEnd ≤ ent.offset ∧
      if subsec.inputEnd < ent.offset then PassBy subsecs (ent :: entries)
      else PassBy subsecs entries

structure ObjectFile.Safe (file : ObjectFile σ) : Prop where
  safeIn : SafeIn file.live file.entries
  passBy : PassBy file.liveCommons (leftOver file.live file.entries)

end Mold.MachO.DataInCode
