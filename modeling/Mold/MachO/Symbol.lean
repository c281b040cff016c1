import Mathlib.Algebra.GroupWithZero.Nat
import Mathlib.Data.List.MinMax
import Mathlib.Data.List.Nodup

/-!
# Mach-O symbols, input files and definition ranks

Symbols are interned: the symbol table is a total function from names to
`Symbol` records, and an uninterned name has the default record.  Input files
live in an arena and are referred to by `FileRef`.  Names are an arbitrary
type `ν` with decidable equality, as the passes only compare them.

`getRank` is the number by which two definitions of a symbol are compared.
The source has it twice, as `get_rank` in `input-files.cc` and as
`get_symbol_rank` in `main.cc`; the two bodies are the same.

Relocations and unwind records point to subsections and symbols.  The types `τ` of symbol
pointers and `σ` of subsection pointers are parameters; a null pointer is `none`.
-/

namespace Mold.MachO

instance instNeZeroThree : NeZero 3 := ⟨by decide⟩

instance instNeZeroFour : NeZero 4 := ⟨by decide⟩

/-! ## Files -/

inductive FileRef where
  | obj (i : ℕ)
  | dylib (i : ℕ)
  deriving DecidableEq, Repr

namespace FileRef

/-- `InputFile::is_dylib`. -/
def isDylib : FileRef → Bool
  | obj _ => false
  | dylib _ => true

@[simp] theorem isDylib_obj (i : ℕ) : (obj i).isDylib = false := rfl

@[simp] theorem isDylib_dylib (i : ℕ) : (dylib i).isDylib = true := rfl

end FileRef

/-- The visibilities `SCOPE_LOCAL`, `SCOPE_MODULE` and `SCOPE_GLOBAL`. -/
inductive Scope where
  | scopeLocal
  | scopeModule
  | scopeGlobal
  deriving DecidableEq, Repr

/-- What symbol resolution reads of the subsection a section symbol points
into: its identity, its input address and whether its section has type
`S_THREAD_LOCAL_VARIABLES`. -/
structure SubsecRef where
  id : ℕ
  inputAddr : UInt32
  isTlv : Bool
  deriving DecidableEq, Repr

/-- The interned `Symbol` record, as far as symbol resolution writes it.
Subsections are referred to by a type `σ`. -/
structure Symbol (σ : Type*) where
  file : Option FileRef := none
  subsec : Option σ := none
  value : UInt64 := 0
  visibility : Scope := .scopeLocal
  isCommon : Bool := false
  isWeak : Bool := false
  isAbs : Bool := false
  isTlv : Bool := false
  noDeadStrip : Bool := false
  isImported : Bool := false
  isExported : Bool := false
  deriving DecidableEq, Repr

/-- The symbol types `N_UNDF`, `N_ABS` and `N_SECT`.  Any other type ends the
link with a fatal error. -/
inductive SymType where
  | undf
  | abs
  | sect
  deriving DecidableEq, Repr

/-- One entry of the symbol table of an object file.  The three flags are
bits of `desc`; `subsec` is the result of `sym_to_subsec`, or of
`find_subsection` where that has no entry. -/
structure MachSym (ν : Type*) where
  name : ν
  isExtern : Bool := true
  isPrivateExtern : Bool := false
  type : SymType
  value : UInt64 := 0
  weakDef : Bool := false
  weakRef : Bool := false
  noDeadStrip : Bool := false
  subsec : Option SubsecRef := none

namespace MachSym

variable {ν : Type*}

/-- `MachSym::is_common`: an undefined external symbol with a size. -/
def isCommon (m : MachSym ν) : Bool :=
  m.type == .undf && m.isExtern && m.value != 0

def isUndef (m : MachSym ν) : Bool :=
  m.type == .undf && !m.isCommon

end MachSym

/-- An object file.  `isAlive` is the value `ObjectFile::create` gives to
`is_alive`; `personalities` are the personality symbols of the unwind records
that are parsed before symbol resolution; `hasLtoModule` says that the file is
bitcode. -/
structure ObjectFile (ν : Type*) where
  priority : ℕ
  isAlive : Bool := true
  isHidden : Bool := false
  hasLtoModule : Bool := false
  syms : List (MachSym ν)
  personalities : List ν := []

/-- A dylib.  `exports` is the ordered map from the exported names to their
flags, so every name occurs once.  `isMainExecutable` is the test of
`dylib_idx` against `BIND_SPECIAL_DYLIB_MAIN_EXECUTABLE`, which the parser
stores for an `MH_EXECUTE` file; `hoistedLibs` are the reexported system
libraries that are linked against directly. -/
structure DylibFile (ν : Type*) where
  priority : ℕ
  isAlive : Bool := true
  isWeak : Bool := false
  isReexported : Bool := false
  installName : String := ""
  isMainExecutable : Bool := false
  hoistedLibs : List ℕ := []
  exports : List (ν × ℕ)
  exports_nodup : (exports.map Prod.fst).Nodup

/-- `EXPORT_SYMBOL_FLAGS_WEAK_DEFINITION` is set. -/
def isWeakExport (flags : ℕ) : Bool :=
  flags.testBit 2

/-- The kind bits of the flags are `EXPORT_SYMBOL_FLAGS_KIND_THREAD_LOCAL`. -/
def isThreadLocalExport (flags : ℕ) : Bool :=
  flags % 4 == 1

structure Files (ν : Type*) where
  obj : ℕ → ObjectFile ν
  dylib : ℕ → DylibFile ν

namespace Files

variable {ν : Type*} (F : Files ν)

/-- `InputFile::priority`. -/
def priority : FileRef → ℕ
  | .obj i => (F.obj i).priority
  | .dylib i => (F.dylib i).priority

/-- The value with which `is_alive` of a file is created. -/
def isAlive : FileRef → Bool
  | .obj i => (F.obj i).isAlive
  | .dylib i => (F.dylib i).isAlive

@[simp] theorem priority_obj (i : ℕ) : F.priority (.obj i) = (F.obj i).priority := rfl

@[simp] theorem priority_dylib (i : ℕ) : F.priority (.dylib i) = (F.dylib i).priority := rfl

end Files

/-- The documented priority classes, from a strong definition down to a common
symbol in an archive. -/
def symRank (isAlive isDylib isCommon isWeak : Bool) : ℕ :=
  let isInArchive := !isAlive
  if isCommon then
    if isInArchive then 6 else 5
  else if isDylib || isInArchive then
    if isWeak then 4 else 3
  else
    if isWeak then 2 else 1

def unclaimedRank : ℕ := 7

/-- `get_rank` of a definition: the class in the high bits, the priority of
the file added below. -/
def getRank {ν : Type*} (F : Files ν) (isAlive : FileRef → Bool)
    (file : FileRef) (isCommon isWeak : Bool) : ℕ :=
  symRank (isAlive file) file.isDylib isCommon isWeak * 2 ^ 24 + F.priority file

/-- `get_rank` of the present owner of a symbol. -/
def getSymbolRank {ν σ : Type*} (F : Files ν) (isAlive : FileRef → Bool) (sym : Symbol σ) : ℕ :=
  match sym.file with
  | none => unclaimedRank * 2 ^ 24
  | some file => getRank F isAlive file sym.isCommon sym.isWeak

variable {ν σ : Type*} {F : Files ν} {isAlive : FileRef → Bool}

theorem getSymbolRank_of_file_some {sym : Symbol σ} {file : FileRef} (h : sym.file = some file) :
    getSymbolRank F isAlive sym = getRank F isAlive file sym.isCommon sym.isWeak := by
  simp [getSymbolRank, h]

theorem getRank_dylib (d : ℕ) (isWeak : Bool) :
    getRank F isAlive (.dylib d) false isWeak =
      (if isWeak then 4 else 3) * 2 ^ 24 + (F.dylib d).priority := by
  simp [getRank, symRank]

/-! ## Relocations, unwind records and section headers -/

inductive RelocTarget (τ σ : Type*) where
  | sym (s : τ)
  | subsec (s : σ)
  deriving DecidableEq, Repr

/-- The subsection that a relocation target designates, if it designates
one. -/
def RelocTarget.subsec? {τ σ : Type*} (symSubsec : τ → Option σ) : RelocTarget τ σ → Option σ
  | sym s => symSubsec s
  | subsec s => some s

structure FdeRecord (σ : Type*) where
  subsec : Option σ
  lsda : Option σ

structure UnwindRecord (τ σ : Type*) where
  subsec : Option σ
  personality : Option τ
  lsda : Option σ
  fde : Option (FdeRecord σ)

structure SectionHeader where
  type : ℕ
  attr : ℕ

namespace SectionHeader

def modInitFuncPointers : ℕ := 0x9

def modTermFuncPointers : ℕ := 0xa

/-- The attribute bit `S_ATTR_LIVE_SUPPORT`, `0x80000`. -/
def isLiveSupport (hdr : SectionHeader) : Bool :=
  hdr.attr.testBit 19

/-- The attribute bit `S_ATTR_NO_DEAD_STRIP`, `0x100000`. -/
def isNoDeadStrip (hdr : SectionHeader) : Bool :=
  hdr.attr.testBit 20

end SectionHeader

end Mold.MachO
