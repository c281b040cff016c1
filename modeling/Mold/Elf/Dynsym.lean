import Mold.Elf.Target
import Mold.Lib.HashTables

/-!
# The dynamic symbol table and its hash tables

The symbols of `.dynsym` are put in an order that `.gnu.hash` can index, and
the two hash tables are written from that order.  The null entry of `.dynsym`
is not listed: the symbol at place `i` of a list of symbols is entry `i + 1`.
Symbol numbers and sizes are natural numbers, hash values are 32 bits wide.
-/

namespace Mold.Elf

/-- The hash function for `.hash`. -/
def elfHash (name : List UInt8) : UInt32 :=
  name.foldl
    (fun h c =>
      let h := (h <<< 4) + c.toUInt32
      let g := h &&& 0xf0000000
      let h := if g ≠ 0 then h ^^^ (g >>> 24) else h
      h &&& ~~~g)
    0

/-- The hash function for `.gnu.hash`. -/
def djbHash (name : List UInt8) : UInt32 :=
  name.foldl (fun h c => (h <<< 5) + h + c.toUInt32) 5381

def hasSingleBit (val : ℕ) : Bool := val = 2 ^ Nat.log2 val

def bitCeil (val : ℕ) : ℕ :=
  if hasSingleBit val then val else 1 <<< val.size

/-! ## Dynamic symbols -/

structure DynSymbol where
  name : List UInt8
  isImported : Bool
  isExported : Bool
  dynsymIdx : ℤ := -2
  djbHash : UInt32 := 0
deriving DecidableEq, Repr

/-- A symbol that no other file sees.  A relocatable output, where the binding
decides, has no dynamic symbols. -/
def DynSymbol.isLocal (sym : DynSymbol) : Bool :=
  !sym.isImported && !sym.isExported

def DynSymbol.setDynsymIdx (sym : DynSymbol) (idx : ℕ) : DynSymbol :=
  { sym with dynsymIdx := idx }

def DynSymbol.setDjbHash (sym : DynSymbol) : DynSymbol :=
  { sym with djbHash := Elf.djbHash sym.name }

def setDynsymIdx (first : ℕ) (symbols : List DynSymbol) : List DynSymbol :=
  (symbols.zipIdx first).map fun e => e.1.setDynsymIdx e.2

def loadFactor : ℕ := 8

def headerSize : ℕ := 16

def bloomShift : ℕ := 26

/-! ## `.dynsym` -/

/-- The symbols behind the null entry, the number of the first global symbol and
the number of buckets chosen for `.gnu.hash`. -/
structure DynsymSection where
  symbols : List DynSymbol
  shInfo : ℕ
  numBuckets : ℕ
deriving DecidableEq, Repr

namespace DynsymSection

def size (d : DynsymSection) : ℕ := d.symbols.length + 1

def entry (d : DynsymSection) : ℕ → Option DynSymbol
  | 0 => none
  | i + 1 => d.symbols[i]?

def less (numBuckets : ℕ) (a b : DynSymbol) : Bool :=
  if a.isExported != b.isExported then
    b.isExported
  else
    let h1 := a.djbHash.toNat % numBuckets
    let h2 := b.djbHash.toNat % numBuckets
    h1 < h2 || (h1 = h2 && a.dynsymIdx < b.dynsymIdx)

/-- The global symbols in the order for `.gnu.hash`. -/
def sortGlobals (numBuckets firstGlobal : ℕ) (globals : List DynSymbol) : List DynSymbol :=
  ((setDynsymIdx firstGlobal globals).map DynSymbol.setDjbHash).mergeSort
    fun a b => !less numBuckets b a

/-- The order of the symbols, the numbers in it and the first global symbol.
The size of the names in `.dynstr` is left out. -/
def finalize (gnuHash : Bool) (symbols : List DynSymbol) : DynsymSection :=
  let locals := symbols.filter fun sym => sym.isLocal
  let globals := symbols.filter fun sym => !sym.isLocal
  let firstGlobal := locals.length + 1
  let numExported := symbols.countP fun sym => sym.isExported
  let numBuckets := numExported / loadFactor + 1
  let globals := if gnuHash then sortGlobals numBuckets firstGlobal globals else globals
  { symbols := setDynsymIdx 1 (locals ++ globals)
    shInfo := firstGlobal
    numBuckets := if gnuHash then numBuckets else 2 ^ 32 - 1 }

end DynsymSection

/-- The header words and the chains of `.hash`. -/
structure HashSection where
  nbucket : ℕ
  nchain : ℕ
  table : Lib.ChainTable
deriving DecidableEq, Repr

namespace HashSection

def shSize (d : DynsymSection) : ℕ := 8 + d.size * 8

def copyBuf (d : DynsymSection) : HashSection where
  nbucket := d.size
  nchain := d.size
  table := (d.symbols.map fun sym =>
      ((elfHash sym.name).toNat % d.size, sym.dynsymIdx.toNat)).foldl
    Lib.ChainTable.insert (Lib.ChainTable.empty d.size d.size)

def size (sec : HashSection) : ℕ :=
  8 + sec.table.buckets.length * 4 + sec.table.chains.length * 4

end HashSection

/-! ## `.gnu.hash` -/

/-- The header words, the filter, the buckets and the hash values of
`.gnu.hash`. -/
structure GnuHashSection where
  numBuckets : ℕ
  exportedOffset : ℕ
  numBloom : ℕ
  bloomShift : ℕ
  bloom : List ℕ
  buckets : List ℕ
  table : List UInt32
deriving DecidableEq, Repr

namespace GnuHashSection

def getExportedSymbols (d : DynsymSection) : List DynSymbol :=
  d.symbols.dropWhile fun sym => !sym.isExported

def numBloomOf (word : WordSize) (d : DynsymSection) : ℕ :=
  let numExported := (getExportedSymbols d).length
  if numExported ≠ 0 then bitCeil (numExported * 12 / word.bits) else 1

def shSize (word : WordSize) (d : DynsymSection) : ℕ :=
  headerSize + numBloomOf word d * word.bytes + d.numBuckets * 4 +
    (getExportedSymbols d).length * 4

def bucketOf (numBuckets : ℕ) (sym : DynSymbol) : ℕ := sym.djbHash.toNat % numBuckets

def bloomKey (word : WordSize) (numBloom : ℕ) (sym : DynSymbol) : Lib.BloomKey :=
  let h := sym.djbHash.toNat
  { word := h / word.bits % numBloom
    bit₁ := h % word.bits
    bit₂ := (h >>> Elf.bloomShift) % word.bits }

def chainValue (last : Bool) (sym : DynSymbol) : UInt32 :=
  if last then sym.djbHash ||| 1 else sym.djbHash &&& ~~~1

def copyBuf (word : WordSize) (d : DynsymSection) : GnuHashSection :=
  let syms := getExportedSymbols d
  let exportedOffset := d.size - syms.length
  let numBloom := numBloomOf word d
  { numBuckets := d.numBuckets
    exportedOffset := exportedOffset
    numBloom := numBloom
    bloomShift := Elf.bloomShift
    bloom := (syms.map (bloomKey word numBloom)).foldl Lib.bloomAdd (List.replicate numBloom 0)
    buckets := Lib.runHeads (bucketOf d.numBuckets) d.numBuckets exportedOffset syms
    table := Lib.markEnds (bucketOf d.numBuckets) chainValue syms }

def size (word : WordSize) (sec : GnuHashSection) : ℕ :=
  headerSize + sec.bloom.length * word.bytes + sec.buckets.length * 4 + sec.table.length * 4

end GnuHashSection

/-- The hash tables that `--hash-style` asks for. -/
structure HashStyle where
  sysv : Bool
  gnu : Bool
deriving DecidableEq, Repr

structure DynamicTables where
  dynsym : DynsymSection
  hash : Option HashSection
  gnuHash : Option GnuHashSection
deriving DecidableEq, Repr

def dynamicTables (word : WordSize) (style : HashStyle) (symbols : List DynSymbol) :
    DynamicTables :=
  let dynsym := DynsymSection.finalize style.gnu symbols
  { dynsym := dynsym
    hash := if style.sysv then some (HashSection.copyBuf dynsym) else none
    gnuHash := if style.gnu then some (GnuHashSection.copyBuf word dynsym) else none }

end Mold.Elf
