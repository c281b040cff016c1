import Mold.Elf.Target
import Mathlib.Data.Nat.Find
import Mathlib.Algebra.Order.Ring.Int

/-!
# Dynamic relocations of input sections

The scan of the relocations decides which symbols and how many dynamic
relocations an output needs, and the relocations are applied when the sections
are written.  Both ask the same decision tables, at different times, so the
symbols are taken as they are at the time of the question.
-/

namespace Mold.Elf

/-! ## Symbols, relocations and sections -/

/-- The type of a symbol.  The types that are treated alike are not told
apart. -/
inductive SymType where
  | notype
  | func
  | gnuIfunc
deriving DecidableEq, Repr

structure Symbol where
  isAbsolute : Bool
  isImported : Bool
  isProtected : Bool := false
  type : SymType
  dynsymIdx : ℤ := -1
  addr : ℕ := 0
  addrNoPlt : ℕ := 0
deriving DecidableEq, Repr

/-- The address of the symbol is found by a function at run time. -/
def Symbol.isIfunc (sym : Symbol) : Bool := sym.type = .gnuIfunc

/-- The types of relocations.  Only an absolute relocation of a whole word may
become a dynamic relocation. -/
inductive RelType where
  | none
  | abs
  | other
deriving DecidableEq, Repr

structure Rel (σ : Type*) where
  rType : RelType
  rOffset : ℕ
  rSym : σ
  rAddend : ℤ
deriving DecidableEq, Repr

/-- `to_p2align`, with the count of low zero bits of a 64-bit number. -/
def toP2align (alignment : ℕ) : ℕ :=
  if alignment = 0 then 0 else Nat.findGreatest (fun k => 2 ^ k ∣ alignment) 63

structure InputSection (σ : Type*) where
  isWritable : Bool
  isAlloc : Bool
  isExec : Bool
  isNobits : Bool
  isToc : Bool := false
  shAddralign : ℕ
  /-- The alignment in the header of compressed contents. -/
  chAddralign : Option ℕ := none
  shSize : ℕ
  offset : ℕ
  rels : List (Rel σ)
deriving DecidableEq, Repr

namespace InputSection

variable {σ : Type*}

def p2align (isec : InputSection σ) : ℕ :=
  toP2align (isec.chAddralign.getD isec.shAddralign)

def isWritten (isec : InputSection σ) : Bool :=
  !(isec.isNobits || isec.shSize = 0)

/-- The relocation may go to `.relr.dyn`. -/
def isRelrReloc (word : WordSize) (args : Args) (isec : InputSection σ) (rel : Rel σ) : Bool :=
  args.packDynRelocsRelr && !isec.isExec && isec.shAddralign % word.bytes = 0 &&
    rel.rOffset % word.bytes = 0

end InputSection

/-! ## Decision tables -/

inductive Action where
  | none
  | error
  | copyrel
  | dynCopyrel
  | plt
  | cplt
  | dynCplt
  | dynrel
  | baserel
  | ifunc
deriving DecidableEq, Repr

inductive OutputType where
  | sharedObject
  | pie
  | pde
deriving DecidableEq, Repr

inductive SymKind where
  | absolute
  | localSym
  | importedData
  | importedCode
deriving DecidableEq, Repr

def getOutputType (args : Args) : OutputType :=
  if args.shared then .sharedObject else if args.pie then .pie else .pde

def getSymKind (sym : Symbol) : SymKind :=
  if sym.isAbsolute then .absolute
  else if !sym.isImported then .localSym
  else if sym.type ≠ .func then .importedData
  else .importedCode

def getRelAction (args : Args) (sym : Symbol) (table : OutputType → SymKind → Action) :
    Action :=
  table (getOutputType args) (getSymKind sym)

def actionRow (absolute here data code : Action) : SymKind → Action
  | .absolute => absolute
  | .localSym => here
  | .importedData => data
  | .importedCode => code

def getDynAbsrelAction (args : Args) (sym : Symbol) : Action :=
  if sym.isIfunc then .ifunc
  else getRelAction args sym fun
    | .sharedObject => actionRow .none .baserel .dynrel .dynrel
    | .pie => actionRow .none .baserel .dynrel .dynrel
    | .pde => actionRow .none .none .dynCopyrel .dynCplt

/-- For absolute relocations of a word in `.toc`. -/
def getPpc64TocAction (args : Args) (sym : Symbol) : Action :=
  if sym.isIfunc then .ifunc
  else getRelAction args sym fun
    | .sharedObject => actionRow .none .baserel .dynrel .dynrel
    | .pie => actionRow .none .baserel .dynrel .dynrel
    | .pde => actionRow .none .none .dynrel .dynrel

def getWordAction {σ : Type*} (args : Args) (isec : InputSection σ) (sym : Symbol) :
    Action :=
  if isec.isToc then getPpc64TocAction args sym else getDynAbsrelAction args sym

/-! ## Scan -/

inductive Diagnostic where
  /-- The relocation can not be used, and the option to compile with. -/
  | notUsable (recompileWith : String)
  /-- A relocation against the symbol is in a read-only section. -/
  | textrel
  /-- No copy relocation can be made for a protected symbol. -/
  | protectedCopyrel
deriving DecidableEq, Repr

inductive Need where
  | plt
  | cplt
  | copyrel
deriving DecidableEq, Repr

structure ScanEffect where
  needs : List Need := []
  numDynrel : ℕ := 0
  numIfuncDynrels : ℕ := 0
  hasTextrel : Bool := false
  errors : List Diagnostic := []
  warnings : List Diagnostic := []
deriving DecidableEq, Repr

section Scan

variable {σ : Type*} (word : WordSize) (args : Args) (isec : InputSection σ) (sym : Symbol)

def scanError : Diagnostic :=
  .notUsable (if sym.isAbsolute then "-fno-PIC" else "-fPIC")

def checkTextrel : ScanEffect :=
  if isec.isWritable then {}
  else
    { hasTextrel := true
      errors := if args.zText then [scanError sym] else []
      warnings := if !args.zText && args.warnTextrel then [.textrel] else [] }

def scanDynrel : ScanEffect := { checkTextrel args isec sym with numDynrel := 1 }

def scanCopyrel : ScanEffect :=
  { needs := [.copyrel]
    errors := if sym.isProtected then [.protectedCopyrel] else [] }

def scanRel (rel : Rel σ) : Action → ScanEffect
  | .none => {}
  | .error => { errors := [scanError sym] }
  | .copyrel =>
    { needs := [.copyrel]
      errors := (if args.zCopyreloc then [] else [scanError sym]) ++ (scanCopyrel sym).errors }
  | .dynCopyrel =>
    if isec.isWritable || !args.zCopyreloc then scanDynrel args isec sym
    else scanCopyrel sym
  | .plt => { needs := [.plt] }
  | .cplt => { needs := [.cplt] }
  | .dynCplt =>
    if isec.isWritable then scanDynrel args isec sym else { needs := [.cplt] }
  | .dynrel => scanDynrel args isec sym
  | .baserel =>
    { checkTextrel args isec sym with
      numDynrel := if isec.isRelrReloc word args rel then 0 else 1 }
  | .ifunc => { scanDynrel args isec sym with numIfuncDynrels := 1 }

inductive DynRelType where
  | abs
  | relative
  | irelative
deriving DecidableEq, Repr

structure DynRel where
  offset : ℕ
  type : DynRelType
  sym : ℤ
  addend : ℤ
deriving DecidableEq, Repr

/-- The dynamic relocations that are written and the value of the relocated
place, if it is written. -/
structure ApplyEffect where
  dynrel : List DynRel := []
  value : Option ℤ := none
deriving DecidableEq, Repr

def dynamicValue (value : ℤ) : Option ℤ :=
  if args.applyDynamicRelocs then some value else none

/-- `apply_absrel` at the place `P`.  The actions that have no case in the source
are not reached. -/
def applyAbsrel (rel : Rel σ) (P : ℕ) : Action → ApplyEffect
  | .copyrel | .cplt | .none => { value := some (sym.addr + rel.rAddend) }
  | .baserel =>
    if isec.isRelrReloc word args rel then { value := some (sym.addr + rel.rAddend) }
    else
      { dynrel := [⟨P, .relative, 0, sym.addr + rel.rAddend⟩]
        value := dynamicValue args (sym.addr + rel.rAddend) }
  | .dynCopyrel =>
    if isec.isWritable || !args.zCopyreloc then
      { dynrel := [⟨P, .abs, sym.dynsymIdx, rel.rAddend⟩]
        value := dynamicValue args rel.rAddend }
    else { value := some (sym.addr + rel.rAddend) }
  | .dynCplt =>
    if isec.isWritable then
      { dynrel := [⟨P, .abs, sym.dynsymIdx, rel.rAddend⟩]
        value := dynamicValue args rel.rAddend }
    else { value := some (sym.addr + rel.rAddend) }
  | .dynrel =>
    { dynrel := [⟨P, .abs, sym.dynsymIdx, rel.rAddend⟩]
      value := dynamicValue args rel.rAddend }
  | .ifunc =>
    { dynrel := [⟨P, .irelative, 0, sym.addrNoPlt + rel.rAddend⟩]
      value := dynamicValue args (sym.addrNoPlt + rel.rAddend) }
  | .error | .plt => {}

end Scan

end Mold.Elf
