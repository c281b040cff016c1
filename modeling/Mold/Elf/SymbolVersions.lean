import Mold.Elf.Dynsym
import Mold.Lib.StableSort
import Mold.Lib.RelativePointers
import Mathlib.Data.List.Induction
import Mathlib.Data.Prod.Lex

/-!
# Symbol versions

`.gnu.version_d` lists the versions that the output defines, `.gnu.version_r` the
versions that it requires of shared libraries, and `.gnu.version` has the index of
a version for every dynamic symbol.  Both kinds of records are linked by
distances.  Strings stand for their offsets in `.dynstr`.
-/

namespace Mold.Elf

open Lib

/-! ## Input -/

structure SharedLib where
  soname : List UInt8
  versionStrings : List (List UInt8)
deriving DecidableEq, Repr

/-- A dynamic symbol, owned by a shared library or by an object file. -/
structure VersionedSymbol where
  lib : Option SharedLib
  verIdx : ℕ
deriving DecidableEq, Repr

def VersionedSymbol.getVersion (sym : VersionedSymbol) : List UInt8 :=
  match sym.lib with
  | some lib => lib.versionStrings.getD sym.verIdx []
  | none => []

def verNdxLastReserved : ℕ := 1

local instance lawfulBEq_soname : LawfulBEq (List UInt8) := inferInstance

/-- The loop of `main` that keeps the first library of each soname. -/
def uniquifyDsos (dsos : List SharedLib) : List SharedLib :=
  dsos.foldl (fun kept lib =>
    if lib.soname ∈ kept.map SharedLib.soname then kept else kept ++ [lib]) []

theorem nodup_uniquifyDsos (dsos : List SharedLib) :
    ((uniquifyDsos dsos).map SharedLib.soname).Nodup := by
  rw [uniquifyDsos]
  induction dsos using List.reverseRecOn with
  | nil => exact List.nodup_nil
  | append_singleton dsos lib ih =>
    rw [List.foldl_append, List.foldl_cons, List.foldl_nil]
    split
    case isTrue => exact ih
    case isFalse hnew =>
      rw [List.map_append, List.nodup_append_comm]
      exact List.nodup_cons.mpr ⟨hnew, ih⟩

structure VersionContext where
  /-- The soname of the output, or its name if it has none. -/
  basename : List UInt8
  versionDefinitions : List (List UInt8)
  dsos : List SharedLib
  dsos_unique : (dsos.map SharedLib.soname).Nodup
  /-- `.dynsym` has its null symbol though it has no other symbol. -/
  keepDynsym : Bool
  /-- The symbols of `.dynsym` behind the null symbol. -/
  symbols : List VersionedSymbol
  owned : ∀ sym ∈ symbols, ∀ lib ∈ sym.lib, lib ∈ dsos

namespace VersionContext

/-- The number of symbols of `.dynsym`. -/
def dynsymSize (ctx : VersionContext) : ℕ :=
  if ctx.symbols = [] && !ctx.keepDynsym then 0 else ctx.symbols.length + 1

/-- The symbols with their indices in `.dynsym`. -/
def indexed (ctx : VersionContext) : List (VersionedSymbol × ℕ) := ctx.symbols.zipIdx 1

end VersionContext

/-- `.gnu.version` is given its size, with index one for the new symbols and index
zero for the null symbol. -/
def resizeVersym (size : ℕ) (versym : List ℕ) : List ℕ :=
  (versym.take size ++ List.replicate (size - versym.length) 1).set 0 0

/-! ## Definitions -/

/-- A record of `.gnu.version_d` with its only auxiliary record. -/
structure Verdef where
  vdVersion : ℕ := 1
  vdFlags : ℕ
  vdNdx : ℕ
  vdCnt : ℕ := 1
  vdHash : UInt32
  vdAux : ℕ
  vdNext : ℕ := 0
  vdaName : List UInt8
deriving DecidableEq, Repr

def verdefSize : ℕ := 20

def verdefStride : ℕ := 28

/-- `.gnu.version_d` while it is filled. -/
structure VerdefSection where
  buf : List Verdef := []
  /-- The place of the last definition. -/
  verdef : Option ℕ := none
  shInfo : ℕ := 0
deriving DecidableEq, Repr

namespace VerdefSection

/-- The distance to the record that is added next is put in the last record. -/
def linkLast (sec : VerdefSection) : List Verdef :=
  match sec.verdef with
  | none => sec.buf
  | some k => sec.buf.modify k fun r =>
    { r with vdNext := verdefStride * sec.buf.length - verdefStride * k }

/-- The lambda `write` of `VerdefSection::construct`. -/
def write (sec : VerdefSection) (verstr : List UInt8) (idx flags : ℕ) : VerdefSection where
  buf := sec.linkLast ++
    [{ vdFlags := flags, vdNdx := idx % 2 ^ 16, vdHash := elfHash verstr,
       vdAux := verdefSize, vdaName := verstr }]
  verdef := some sec.buf.length
  shInfo := sec.shInfo + 1

def writeAll : ℕ → VerdefSection → List (List UInt8) → VerdefSection
  | _, sec, [] => sec
  | idx, sec, verstr :: l => writeAll (idx + 1) (sec.write verstr idx 0) l

end VerdefSection

def verFlgBase : ℕ := 1

/-- `VerdefSection::construct`, which needs the null symbol of `.dynsym`.  Without
definitions there is no section. -/
def constructVerdef (ctx : VersionContext) : Option (VerdefSection × List ℕ) :=
  if ctx.versionDefinitions = [] then some ({}, [])
  else if ctx.dynsymSize = 0 then none
  else
    some (VerdefSection.writeAll 2
        (VerdefSection.write {} ctx.basename 1 verFlgBase) ctx.versionDefinitions,
      ctx.indexed.foldl (fun versym p => versym.set p.2 p.1.verIdx)
        (resizeVersym ctx.dynsymSize []))

/-! ## Requirements -/

structure Verneed where
  vnVersion : ℕ := 1
  vnCnt : ℕ
  vnFile : List UInt8
  vnAux : ℕ
  vnNext : ℕ := 0
deriving DecidableEq, Repr

structure Vernaux where
  vnaHash : UInt32
  vnaOther : ℕ
  vnaName : List UInt8
  vnaNext : ℕ := 0
deriving DecidableEq, Repr

/-- Both kinds of records of `.gnu.version_r`. -/
inductive VerneedRecord where
  | need (r : Verneed)
  | aux (r : Vernaux)
deriving DecidableEq, Repr

def verneedSize : ℕ := 16

namespace VerneedRecord

def setNext (next : ℕ) : VerneedRecord → VerneedRecord
  | need r => need { r with vnNext := next }
  | aux r => aux { r with vnaNext := next }

def countAux : VerneedRecord → VerneedRecord
  | need r => need { r with vnCnt := r.vnCnt + 1 }
  | aux r => aux r

end VerneedRecord

/-- `.gnu.version_r` and `.gnu.version` while they are filled. -/
structure VerneedState where
  buf : List VerneedRecord := []
  /-- The places of the last record of each kind. -/
  verneed : Option ℕ := none
  aux : Option ℕ := none
  shInfo : ℕ := 0
  veridx : ℕ
  versym : List ℕ
deriving DecidableEq, Repr

namespace VerneedState

def link (buf : List VerneedRecord) (k : ℕ) : List VerneedRecord :=
  buf.modify k (VerneedRecord.setNext (verneedSize * buf.length - verneedSize * k))

/-- The last record of a kind is linked to the record that is added next. -/
def linkLast (buf : List VerneedRecord) : Option ℕ → List VerneedRecord
  | none => buf
  | some k => link buf k

/-- The lambda `start_group` of `VerneedSection::construct`. -/
def startGroup (st : VerneedState) (lib : SharedLib) : VerneedState :=
  { st with
    buf := linkLast st.buf st.verneed ++
      [.need { vnCnt := 0, vnFile := lib.soname, vnAux := verneedSize }]
    verneed := some st.buf.length
    aux := none
    shInfo := st.shInfo + 1 }

def countAux (buf : List VerneedRecord) : Option ℕ → List VerneedRecord
  | none => buf
  | some k => buf.modify k VerneedRecord.countAux

/-- The lambda `add_entry` of `VerneedSection::construct`. -/
def addEntry (st : VerneedState) (sym : VersionedSymbol) : VerneedState :=
  { st with
    buf := linkLast (countAux st.buf st.verneed) st.aux ++
      [.aux
        { vnaHash := elfHash sym.getVersion, vnaOther := (st.veridx + 1) % 2 ^ 16,
          vnaName := sym.getVersion }]
    aux := some st.buf.length
    veridx := (st.veridx + 1) % 2 ^ 16 }

/-- The entry of `.gnu.version` for a symbol is written. -/
def assign (st : VerneedState) (idx : ℕ) : VerneedState :=
  { st with versym := st.versym.set idx st.veridx }

def addSymbol (st : VerneedState) (prev : Option VersionedSymbol)
    (sym : VersionedSymbol) : VerneedState :=
  match prev with
  | none => (st.startGroup (sym.lib.getD ⟨[], []⟩)).addEntry sym
  | some prev =>
    if prev.lib ≠ sym.lib then
      (st.startGroup (sym.lib.getD ⟨[], []⟩)).addEntry sym
    else if prev.verIdx ≠ sym.verIdx then st.addEntry sym
    else st

def addSymbols : Option VersionedSymbol → VerneedState → List (VersionedSymbol × ℕ) → VerneedState
  | _, st, [] => st
  | prev, st, p :: l => addSymbols (some p.1) ((st.addSymbol prev p.1).assign p.2) l

end VerneedState

def versionedSymbols (ctx : VersionContext) : List (VersionedSymbol × ℕ) :=
  ctx.indexed.filter fun p => p.1.lib.isSome && verNdxLastReserved < p.1.verIdx

def SharedLib.sonameKey (lib : SharedLib) : List ℕ := lib.soname.map UInt8.toNat

def verneedKey (p : VersionedSymbol × ℕ) : List ℕ ×ₗ ℕ :=
  toLex ((p.1.lib.map SharedLib.sonameKey).getD [], p.1.verIdx)

/-- The symbols in the order of `.gnu.version_r`. -/
def sortedSymbols (ctx : VersionContext) : List (VersionedSymbol × ℕ) :=
  (versionedSymbols ctx).mergeSort fun p q => decide (verneedKey p ≤ verneedKey q)

/-- `VerneedSection::construct`, with the `.gnu.version` that is there before. -/
def constructVerneed (ctx : VersionContext) (versym : List ℕ) : VerneedState :=
  let start := (verNdxLastReserved + ctx.versionDefinitions.length) % 2 ^ 16
  if versionedSymbols ctx = [] then { veridx := start, versym := versym }
  else
    VerneedState.addSymbols none
      { veridx := start, versym := resizeVersym ctx.dynsymSize versym }
      (sortedSymbols ctx)

/-! ## Tables -/

structure VersionTables where
  verdef : VerdefSection
  verneed : VerneedState

def constructVersions (ctx : VersionContext) : Option VersionTables := do
  let (verdef, versym) ← constructVerdef ctx
  return ⟨verdef, constructVerneed ctx versym⟩

namespace VersionTables

/-- `.gnu.version` -/
def versym (t : VersionTables) : List ℕ := t.verneed.versym

/-- The definition at a place of `.gnu.version_d`. -/
def readVerdef (t : VersionTables) (off : ℕ) : Option Verdef :=
  if verdefStride ∣ off then t.verdef.buf[off / verdefStride]? else none

/-- The record of a library at a place of `.gnu.version_r`. -/
def readNeed (t : VersionTables) (off : ℕ) : Option Verneed :=
  if verneedSize ∣ off then
    match t.verneed.buf[off / verneedSize]? with
    | some (.need r) => some r
    | _ => none
  else none

/-- The required version at a place of `.gnu.version_r`. -/
def readAux (t : VersionTables) (off : ℕ) : Option Vernaux :=
  if verneedSize ∣ off then
    match t.verneed.buf[off / verneedSize]? with
    | some (.aux r) => some r
    | _ => none
  else none

def definitions (t : VersionTables) : Option (List (ℕ × Verdef)) :=
  followChain Verdef.vdNext t.readVerdef (t.verdef.buf.length + 1) 0

def auxOf (t : VersionTables) (p : ℕ × Verneed) : Option (List (ℕ × Vernaux)) :=
  followChain Vernaux.vnaNext t.readAux (t.verneed.buf.length + 1) (p.1 + p.2.vnAux)

def requirements (t : VersionTables) : Option (List (Verneed × List Vernaux)) := do
  let needs ← followChain Verneed.vnNext t.readNeed (t.verneed.buf.length + 1) 0
  needs.mapM fun p => do
    let auxs ← t.auxOf p
    return (p.2, auxs.map Prod.snd)

end VersionTables

end Mold.Elf
