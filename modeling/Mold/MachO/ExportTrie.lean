import Mold.Common.Leb128
import Mold.Lib.Memory
import Mold.Lib.LittleEndian

/-!
# The export trie

`ExportEncoder` builds a prefix tree over the sorted names, gives every node an
offset in two passes, and writes the nodes out.  `DylibFile::read_trie` walks
the result.  Both are modelled here, together with the property that relates
them, `ExportSet.RoundTrips`.

The second pass computes the size of a node from the offsets that the first
pass gave to its children, and stores smaller offsets in their place.
-/

namespace Mold.MachO.ExportTrie

open Mold.Lib Mold.Common

/-- `ExportEncoder::Entry`. -/
structure Entry where
  name : List Byte
  flags : UInt32
  addr : UInt64
  deriving DecidableEq

structure Leaf where
  flags : UInt32
  addr : UInt64

/-- `ExportEncoder::TrieNode`: the prefix, the children, the data of a leaf,
and the offset. -/
inductive TrieNode where
  | mk (label : List Byte) (children : List TrieNode) (leaf : Option Leaf) (offset : UInt32)

namespace TrieNode

def label : TrieNode → List Byte
  | mk label _ _ _ => label

def children : TrieNode → List TrieNode
  | mk _ children _ _ => children

def leaf : TrieNode → Option Leaf
  | mk _ _ leaf _ => leaf

def offset : TrieNode → UInt32
  | mk _ _ _ offset => offset

end TrieNode

/-- The offset `-1` of a new node. -/
def freshOffset : UInt32 := UInt32.ofNat (2 ^ 32 - 1)

/-- The runs of entries with the same character at `len`.  The entries are
sorted, so `partition_point` finds the end of a run. -/
def runs (len : ℕ) (entries : List Entry) : List (List Entry) :=
  entries.splitBy fun a b => decide (a.name[len]? = b.name[len]?)

/-- `construct_trie` for entries that share their first `len` characters.  The
fuel is at least the number of entries. -/
def constructTrie : ℕ → List Entry → ℕ → TrieNode
  | fuel + 1, first :: rest, len =>
    let last := (first :: rest).getLast (List.cons_ne_nil first rest)
    let newLen := commonPrefixLen first.name last.name
    let isLeaf := decide (len < newLen) && first.name.length == newLen
    .mk (if len < newLen then (first.name.drop len).take (newLen - len) else [])
      ((runs newLen (if isLeaf then rest else first :: rest)).map
        fun run => constructTrie fuel run newLen)
      (if isLeaf then some ⟨first.flags, first.addr⟩ else none)
      freshOffset
  | _, _, _ => .mk [] [] none freshOffset

/-! ## Offsets -/

def leafSize : Option Leaf → ℕ
  | none => 1
  | some leaf =>
    let size := ulebSize leaf.flags.toNat + ulebSize leaf.addr.toNat
    size + ulebSize size

def childSize (child : TrieNode) : ℕ :=
  child.label.length + 1 + ulebSize child.offset.toNat

/-- The size of a node without its subtrees.  It depends on the offsets that
the children have at this moment. -/
def nodeSize (leaf : Option Leaf) (children : List TrieNode) : ℕ :=
  leafSize leaf + 1 + (children.map childSize).sum

mutual

/-- `set_offset`: the updated node and the size of its subtree. -/
def setOffset : TrieNode → ℕ → TrieNode × ℕ
  | .mk label children leaf _, offset =>
    let result := setOffsets children offset (nodeSize leaf children)
    (.mk label result.1 leaf (UInt32.ofNat offset), result.2)

/-- The second loop of `set_offset`. -/
def setOffsets : List TrieNode → ℕ → ℕ → List TrieNode × ℕ
  | [], _, size => ([], size)
  | child :: children, offset, size =>
    let head := setOffset child (offset + size)
    let tail := setOffsets children offset (size + head.2)
    (head.1 :: tail.1, tail.2)

end

theorem label_setOffset (node : TrieNode) (offset : ℕ) :
    (setOffset node offset).1.label = node.label := by
  cases node
  rw [setOffset]
  rfl

theorem length_setOffsets (children : List TrieNode) (offset size : ℕ) :
    (setOffsets children offset size).1.length = children.length := by
  induction children generalizing size with
  | nil => rw [setOffsets]
  | cons c children ih => rw [setOffsets, List.length_cons, ih, List.length_cons]

def sortEntries (entries : List Entry) : List Entry :=
  entries.mergeSort fun a b => decide (a.name ≤ b.name)

def constructRoot (entries : List Entry) : TrieNode :=
  let node := constructTrie entries.length entries 0
  if node.label.isEmpty then node else .mk [] [node] none freshOffset

/-- `finish`: the root with its final offsets and the size of the trie. -/
def finish (entries : List Entry) : TrieNode × ℕ :=
  setOffset (setOffset (constructRoot (sortEntries entries)) 0).1 0

def leafBytes : Option Leaf → List Byte
  | none => [0]
  | some leaf =>
    writeUleb (ulebSize leaf.flags.toNat + ulebSize leaf.addr.toNat) ++
    writeUleb leaf.flags.toNat ++ writeUleb leaf.addr.toNat

def childBytes (child : TrieNode) : List Byte :=
  child.label ++ 0 :: writeUleb child.offset.toNat

/-- What `write_trie` writes for one node. -/
def nodeBytes (leaf : Option Leaf) (children : List TrieNode) : List Byte :=
  leafBytes leaf ++ Fin.ofNat 256 children.length :: children.flatMap childBytes

mutual

/-- `write_trie`: the segments in the order in which they are written. -/
def writeTrie : TrieNode → List (Segment Byte)
  | .mk _ children leaf offset =>
    ⟨offset.toNat, nodeBytes leaf children⟩ :: writeTries children

/-- The last loop of `write_trie`. -/
def writeTries : List TrieNode → List (Segment Byte)
  | [] => []
  | child :: children => writeTrie child ++ writeTries children

end

/-- The buffer of `ExportSection::copy_buf`: a zeroed section whose size is
rounded up to a multiple of 8, into which the trie is written. -/
def copyBuf (root : TrieNode) (size : ℕ) : List Byte :=
  (writeTrie root).foldl Segment.write (List.replicate ((size + 7) / 8 * 8) 0)

/-! ## Reading -/

/-- `EXPORT_SYMBOL_FLAGS_REEXPORT`, `0x08`. -/
def isReexport (flags : UInt32) : Bool := flags.toNat.testBit 3

/-- `EXPORT_SYMBOL_FLAGS_STUB_AND_RESOLVER`, `0x10`. -/
def isStubAndResolver (flags : UInt32) : Bool := flags.toNat.testBit 4

/-- An export that `read_trie` finds.  The address is absent for a reexport
and for a stub with a resolver. -/
structure Export where
  name : List Byte
  flags : UInt32
  addr : Option UInt64
  deriving DecidableEq

def readString (buf : List Byte) : Option (List Byte × List Byte) :=
  match buf.dropWhile (· ≠ 0) with
  | [] => none
  | _ :: rest => some (buf.takeWhile (· ≠ 0), rest)

/-- The terminal information of a node, as `read_trie` reads it.  `read_trie`
skips the address; it is decoded here. -/
def readLeaf (pre : List Byte) (buf : List Byte) : Option (List Export × List Byte) := do
  match buf with
  | [] => none
  | byte :: rest =>
    if byte = 0 then
      return ([], rest)
    let (_, buf) ← readUleb buf
    let (flags, buf) ← readUleb buf
    let flags := UInt32.ofNat flags
    if isReexport flags then
      let (_, buf) ← readUleb buf
      let (str, buf) ← readString buf
      return ([⟨if str = [] then pre else str, flags, none⟩], buf)
    else if isStubAndResolver flags then
      let (_, buf) ← readUleb buf
      let (_, buf) ← readUleb buf
      return ([⟨pre, flags, none⟩], buf)
    else
      let (addr, buf) ← Uleb.decode buf
      return ([⟨pre, flags, some (UInt64.ofNat addr)⟩], buf)

/-- The loop of `read_trie` over the children of the node at `offset`. -/
def readChildren (visit : ℕ → List Byte → Option (List Export)) (offset : ℕ)
    (pre : List Byte) : ℕ → List Byte → Option (List Export)
  | 0, _ => some []
  | nchild + 1, buf => do
      let (suffix, buf) ← readString buf
      let (off, buf) ← readUleb buf
      if off = offset then
        none
      let exports ← visit off (pre ++ suffix)
      let others ← readChildren visit offset pre nchild buf
      return exports ++ others

/-- `DylibFile::read_trie`.  The fuel bounds the depth of the trie. -/
def readTrie : ℕ → List Byte → ℕ → List Byte → Option (List Export)
  | 0, _, _, _ => none
  | fuel + 1, start, offset, pre => do
      let (exports, buf) ← readLeaf pre (start.drop offset)
      match buf with
      | [] => none
      | nchild :: buf =>
        let others ← readChildren (readTrie fuel start) offset pre nchild.val buf
        return exports ++ others

def Entry.toExport (e : Entry) : Export := ⟨e.name, e.flags, some e.addr⟩

/-- The entries of an export trie.  `ExportSection::compute_size` never builds
a trie without entries. -/
structure ExportSet where
  entries : List Entry
  entries_ne_nil : entries ≠ []
  names_nodup : (entries.map Entry.name).Nodup
  name_ne_nil : ∀ e ∈ entries, e.name ≠ []
  name_nul_free : ∀ e ∈ entries, 0 ∉ e.name
  not_reexport : ∀ e ∈ entries, isReexport e.flags = false
  not_stub : ∀ e ∈ entries, isStubAndResolver e.flags = false

namespace ExportSet

variable (E : ExportSet)

/-- The nodes fit in the size that `finish` returns, they do not overlap, and a
walk from offset 0 finds exactly the entries. -/
structure RoundTrips : Prop where
  fits : ∀ s ∈ writeTrie (finish E.entries).1, s.stop ≤ (finish E.entries).2
  disjoint : (writeTrie (finish E.entries).1).Pairwise Segment.Disjoint
  walk : ∃ fuel exports,
    readTrie fuel (copyBuf (finish E.entries).1 (finish E.entries).2) 0 [] = some exports ∧
      exports.Perm (E.entries.map Entry.toExport)

/-- A bound on the size of the trie: the names, and for every entry two nodes
with the space that a parent reserves for them. -/
def sizeBound : ℕ :=
  (E.entries.map fun e => e.name.length + 44).sum

end ExportSet

end Mold.MachO.ExportTrie
