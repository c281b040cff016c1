import Mathlib.Data.List.Destutter
import Mathlib.Data.Prod.Lex
import Mold.MachO.ChainedFixups

/-!
# The import table of chained fixups

`get_dynsyms` collects the pairs of a symbol and an addend that the fixups ask
for, sorts them and removes duplicates.  Every pair becomes an import record.
A bind word names a record by its index; an addend of at most 255 is stored in
the word itself, and then the record has addend 0.
-/

namespace Mold.MachO.ChainedFixups

open Mold.Lib

/-- The fields of an imported symbol and of its file that the import table
reads.  `dylibIdx` is only meaningful if the file is a dylib. -/
structure ImportSymbol where
  name : List Byte
  value : ℕ := 0
  isWeak : Bool := false
  filePriority : ℕ
  fileIsDylib : Bool := true
  dylibIdx : ℤ := 1
  name_ne_zero : ∀ b ∈ name, b ≠ 0

structure SymbolAddend (τ : Type*) where
  sym : τ
  addend : ℕ
  deriving DecidableEq, Repr

/-- A list of fixups whose addends are 64-bit numbers, with the symbols that
they refer to. -/
structure Bindings (τ : Type*) where
  symbol : τ → ImportSymbol
  flatNamespace : Bool := false
  fixups : List (Fixup τ)
  addend_lt : ∀ f ∈ fixups, f.addend < 2 ^ 64

inductive ImportFormat where
  | chainedImport
  | chainedImportAddend
  | chainedImportAddend64
  deriving DecidableEq, Repr

def maxInlineAddend : ℕ := 255

/-- The names at the end of the section: a name is written where the symbol
differs from the one before. -/
def symbolNames {τ : Type*} [DecidableEq τ] (symbol : τ → ImportSymbol) :
    Option τ → List (SymbolAddend τ) → List Byte
  | _, [] => []
  | prev, x :: dynsyms =>
    (if prev = some x.sym then [] else (symbol x.sym).name ++ [0]) ++
      symbolNames symbol (some x.sym) dynsyms

/-- The values of `nameoff` in the loop of `write_imports`. -/
def nameOffsets {τ : Type*} [DecidableEq τ] (symbol : τ → ImportSymbol) :
    ℕ → List (SymbolAddend τ) → List ℕ
  | _, [] => []
  | nameoff, x :: dynsyms =>
    nameoff :: nameOffsets symbol
      (if dynsyms.head?.map SymbolAddend.sym = some x.sym then nameoff
       else nameoff + (symbol x.sym).name.length + 1)
      dynsyms

/-- The loop of `get_dynsyms` that sets `fixup_ordinal`.  It runs from the end
of the list, so the first entry of a symbol wins. -/
def setFixupOrdinals {τ : Type*} [DecidableEq τ] : ℕ → List (SymbolAddend τ) → τ → ℕ
  | _, [] => fun _ => 0
  | i, x :: dynsyms =>
    Function.update (setFixupOrdinals (i + 1) dynsyms) x.sym i

namespace Bindings

variable {τ : Type*} [DecidableEq τ] (I : Bindings τ)

/-- `operator<` on symbols. -/
def symLt (a b : τ) : Bool :=
  (I.symbol a).filePriority < (I.symbol b).filePriority ∨
    (I.symbol a).filePriority = (I.symbol b).filePriority ∧ (I.symbol a).value < (I.symbol b).value

/-- `operator<` on pairs of a symbol and an addend. -/
def addendLt (a b : SymbolAddend τ) : Bool :=
  if a.sym ≠ b.sym then I.symLt a.sym b.sym else a.addend < b.addend

/-- The pair that a fixup asks for.  Small addends go into the bind word. -/
def request (f : Fixup τ) : Option (SymbolAddend τ) :=
  f.sym.map fun sym =>
    { sym, addend := if f.addend ≤ maxInlineAddend then 0 else f.addend }

def requests : List (SymbolAddend τ) := I.fixups.filterMap request

/-- The list that `get_dynsyms` returns: stably sorted and without adjacent
duplicates. -/
def dynsyms : List (SymbolAddend τ) :=
  (I.requests.mergeSort fun a b => !I.addendLt b a).destutter (· ≠ ·)

/-- `Symbol::fixup_ordinal`. -/
def fixupOrdinal (sym : τ) : ℕ := setFixupOrdinals 0 I.dynsyms sym

/-- `std::lower_bound` behind the first `start` entries. -/
def lowerBound (start : ℕ) (x : SymbolAddend τ) : ℕ :=
  start + ((I.dynsyms.drop start).takeWhile fun y => I.addendLt y x).length

/-- `find_dynsym_ordinal`.  The result `none` is the call of `unreachable`. -/
def findDynsymOrdinal (sym : τ) (addend : ℕ) : Option ℕ :=
  let i := I.lowerBound (I.fixupOrdinal sym) ⟨sym, addend⟩
  if I.dynsyms[i]? = some ⟨sym, addend⟩ then some i else none

/-- The ordinal and the inline addend that `write_fixup_chains` puts into the
word of a fixup against `sym`. -/
def bindTarget (sym : τ) (addend : ℕ) : Option (ℕ × ℕ) :=
  if addend ≤ maxInlineAddend then some (I.fixupOrdinal sym, addend)
  else (I.findDynsymOrdinal sym addend).map fun i => (i, 0)

/-- The format that `get_dynsyms` chooses. -/
def importFormat : ImportFormat :=
  let max := (I.dynsyms.map SymbolAddend.addend).foldl Nat.max 0
  if max = 0 then .chainedImport
  else if max % 2 ^ 32 = max then .chainedImportAddend
  else .chainedImportAddend64

def libOrdinal (sym : τ) : ℤ :=
  if I.flatNamespace then -2
  else if (I.symbol sym).fileIsDylib then (I.symbol sym).dylibIdx
  else -3

end Bindings

/-! ## The records of the three formats -/

namespace ImportFormat

def widths : ImportFormat → List ℕ
  | chainedImport => [8, 1, 23]
  | chainedImportAddend => [8, 1, 23, 32]
  | chainedImportAddend64 => [16, 1, 15, 32, 64]

/-- `DyldChainedImport`, `DyldChainedImportAddend` and
`DyldChainedImportAddend64`. -/
def fields (lib : ℤ) (weak : Bool) (nameoff addend : ℕ) : ImportFormat → List ℕ
  | chainedImport => [(lib % 2 ^ 64).toNat, weak.toNat, nameoff]
  | chainedImportAddend => [(lib % 2 ^ 64).toNat, weak.toNat, nameoff, addend]
  | chainedImportAddend64 =>
    [(lib % 2 ^ 64).toNat, weak.toNat, 0, nameoff, addend]

def record (lib : ℤ) (weak : Bool) (nameoff addend : ℕ) (fmt : ImportFormat) : ℕ :=
  BitField.pack (fmt.widths.zip (fmt.fields lib weak nameoff addend))

def libWidth : ImportFormat → ℕ
  | chainedImportAddend64 => 16
  | _ => 8

def nameWidth : ImportFormat → ℕ
  | chainedImportAddend64 => 32
  | _ => 23

/-- The library ordinal, the offset of the name and the addend of a record. -/
def decode (word : ℕ) (fmt : ImportFormat) : ℤ × ℕ × ℤ :=
  let values := BitField.unpack fmt.widths word
  match fmt with
  | chainedImport =>
    (BitField.toSigned 8 (values.getD 0 0), values.getD 2 0, 0)
  | chainedImportAddend =>
    (BitField.toSigned 8 (values.getD 0 0), values.getD 2 0,
      BitField.toSigned 32 (values.getD 3 0))
  | chainedImportAddend64 =>
    (BitField.toSigned 16 (values.getD 0 0), values.getD 3 0, values.getD 4 0)

end ImportFormat

structure BindInfo where
  name : List Byte
  libOrdinal : ℤ
  importAddend : ℤ
  inlineAddend : ℕ
  deriving DecidableEq, Repr

def BindInfo.addend (info : BindInfo) : ℤ :=
  (info.importAddend + info.inlineAddend) % 2 ^ 64

namespace Bindings

variable {τ : Type*} [DecidableEq τ] (I : Bindings τ)

def writeImports : List ℕ :=
  List.zipWith
    (fun x nameoff => I.importFormat.record (I.libOrdinal x.sym)
      (I.symbol x.sym).isWeak nameoff x.addend)
    I.dynsyms (nameOffsets I.symbol 0 I.dynsyms)

def decodeBind (word : ℕ) : Option BindInfo :=
  let values := BitField.unpack [24, 8, 19, 12, 1] word
  (I.writeImports[values.getD 0 0]?).map fun rec =>
    let (lib, nameoff, addend) := I.importFormat.decode rec
    { name := ((symbolNames I.symbol none I.dynsyms).drop nameoff).takeWhile (· ≠ 0)
      libOrdinal := lib
      importAddend := addend
      inlineAddend := values.getD 1 0 }

/-- The bind that a fixup against `sym` asks for.  A record that goes with an
inline addend has addend 0. -/
structure Requested (f : Fixup τ) (sym : τ) (info : BindInfo) : Prop where
  name : info.name = (I.symbol sym).name
  libOrdinal : info.libOrdinal = I.libOrdinal sym
  addend : info.addend = f.addend
  inline : f.addend ≤ maxInlineAddend → info.importAddend = 0

/-- A fixup against `sym` finds its record, and its word decodes to what it
asks for. -/
def Decodes (f : Fixup τ) (sym : τ) : Prop :=
  ∃ target, I.bindTarget sym f.addend = some target ∧
    ∀ next val, ∃ info,
      I.decodeBind (fixupWord (fun _ => target) f next val) = some info ∧ I.Requested f sym info

def ImportsDecode : Prop :=
  ∀ f ∈ I.fixups, ∀ sym, f.sym = some sym → I.Decodes f sym

/-! ## When the table works -/

def Wide : Prop := ∃ x ∈ I.requests, 2 ^ 32 ≤ x.addend

instance : Decidable I.Wide :=
  inferInstanceAs (Decidable (∃ x ∈ I.requests, 2 ^ 32 ≤ x.addend))

/-- The library ordinals and the addends fit into the signed fields of their
records. -/
def FieldsFit : Prop :=
  if I.Wide then
    ∀ x ∈ I.requests, -2 ^ 15 ≤ I.libOrdinal x.sym ∧ I.libOrdinal x.sym < 2 ^ 15
  else
    ∀ x ∈ I.requests, -2 ^ 7 ≤ I.libOrdinal x.sym ∧ I.libOrdinal x.sym < 2 ^ 7 ∧ x.addend < 2 ^ 31

/-- Some other addend is asked for together with the symbol of `x`. -/
def Shared (x : SymbolAddend τ) : Prop :=
  ∃ y ∈ I.requests, y.sym = x.sym ∧ y.addend ≠ x.addend

instance (x : SymbolAddend τ) : Decidable (I.Shared x) :=
  inferInstanceAs (Decidable (∃ y ∈ I.requests, y.sym = x.sym ∧ y.addend ≠ x.addend))

/-- No symbol that is asked for with two addends ties with another symbol. -/
def OrderSound : Prop :=
  ∀ x ∈ I.requests, I.Shared x → ∀ y ∈ I.requests, y.sym ≠ x.sym →
    I.symLt x.sym y.sym ∨ I.symLt y.sym x.sym

/-- The priority, the value and the addend of a pair.  The addend does not
count where the symbol is asked for with one addend only. -/
def sortKey (x : SymbolAddend τ) : ℕ ×ₗ ℕ ×ₗ ℕ :=
  toLex ((I.symbol x.sym).filePriority, toLex ((I.symbol x.sym).value,
    if I.Shared x then x.addend else 0))

/-- The pairs that are asked for, in the order of their keys and without
adjacent duplicates. -/
def ordered : List (SymbolAddend τ) :=
  (I.requests.mergeSort fun a b => decide (I.sortKey a ≤ I.sortKey b)).destutter (· ≠ ·)

/-- The indices of the pairs fit into 24 bits, and the offsets of the names
into 23 or 32 bits. -/
def TableFits : Prop :=
  ∀ x ∈ I.requests, I.ordered.idxOf x < 2 ^ 24 ∧
    ∀ nameoff ∈ (nameOffsets I.symbol 0 I.ordered)[I.ordered.idxOf x]?,
      nameoff < if I.Wide then 2 ^ 32 else 2 ^ 23

end Bindings

end Mold.MachO.ChainedFixups
