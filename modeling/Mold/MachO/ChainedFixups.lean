import Mold.Lib.BitField
import Mold.Lib.StableSort
import Mold.Lib.WordMemory

/-!
# Chained fixups

The fixups of an image are sorted by address.  `compute_size` writes a page
table for every segment that has fixups; `write_fixup_chains` turns the words
at the fixups into linked lists, one for each page.  The loader follows the
lists from the page table.

The ordinals and the inline addends of bind words come from the import table
and are a parameter here, as the chains do not depend on them.
-/

namespace Mold.MachO.ChainedFixups

open Mold.Lib

variable {τ : Type*}

/-- `Fixup`: a location, and the imported symbol if it is not a rebase. -/
structure Fixup (τ : Type*) where
  addr : ℕ
  sym : Option τ := none
  addend : ℕ := 0

structure OutputSegment where
  vmaddr : ℕ
  vmsize : ℕ
  fileoff : ℕ

def OutputSegment.loc (seg : OutputSegment) (addr : ℕ) : ℕ :=
  seg.fileoff + (addr - seg.vmaddr)

structure Image (τ : Type*) where
  pageSize : ℕ
  imageBase : ℕ
  segments : List OutputSegment
  fixups : List (Fixup τ)
  pageSize_eq : pageSize = 4096 ∨ pageSize = 16384
  imageBase_lt : imageBase < 2 ^ 64
  distinct : (fixups.map Fixup.addr).Nodup
  aligned : ∀ f ∈ fixups, f.addr % 4 = 0
  pageAligned : ∀ seg ∈ segments, seg.vmaddr % pageSize = 0 ∧ seg.vmsize % pageSize = 0
  inRange : ∀ seg ∈ segments, seg.vmaddr + seg.vmsize < 2 ^ 64
  increasing : segments.Pairwise fun s t => s.vmaddr + s.vmsize ≤ t.vmaddr

def alignTo (val align : ℕ) : ℕ := (val + align - 1) / align * align

/-- `DYLD_CHAINED_PTR_START_NONE`. -/
def startNone : ℕ := 0xffff

/-- `DyldChainedStartsInSegment`. -/
structure StartsInSegment where
  pageSize : ℕ
  segmentOffset : ℕ
  pageCount : ℕ
  pageStart : List ℕ

/-- The loop of `compute_size` over the pages of a segment, from page `i` on.
The list is what is left of all fixups behind the cursor. -/
def pageStarts (pageSize vmaddr : ℕ) : ℕ → ℕ → List (Fixup τ) → List ℕ
  | 0, _, _ => []
  | npages + 1, i, fixups =>
    let addr := vmaddr + i * pageSize
    let fixups := fixups.dropWhile fun f => decide (f.addr < addr)
    let start :=
      match fixups with
      | [] => startNone
      | f :: _ =>
        if f.addr < addr + pageSize then f.addr % pageSize else startNone
    start :: pageStarts pageSize vmaddr npages (i + 1) fixups

namespace Image

variable (L : Image τ)

def sorted : List (Fixup τ) :=
  L.fixups.mergeSort fun a b => decide (a.addr ≤ b.addr)

/-- `get_segment_fixups`. -/
def segmentFixups (seg : OutputSegment) : List (Fixup τ) :=
  (L.sorted.dropWhile fun f => decide (f.addr < seg.vmaddr)).takeWhile
    fun f => decide (f.addr < seg.vmaddr + seg.vmsize)

def npages (seg : OutputSegment) (last : Fixup τ) : ℕ :=
  alignTo (last.addr + 1 - seg.vmaddr) L.pageSize / L.pageSize

/-- The record that `compute_size` writes for a segment, if it has fixups. -/
def startsInSegment (seg : OutputSegment) : Option StartsInSegment :=
  (L.segmentFixups seg).getLast?.map fun last =>
    { pageSize := L.pageSize % 2 ^ 16
      segmentOffset := (seg.vmaddr + 2 ^ 64 - L.imageBase) % 2 ^ 64
      pageCount := L.npages seg last % 2 ^ 16
      pageStart := pageStarts L.pageSize seg.vmaddr (L.npages seg last) 0 L.sorted }

/-! ## The chains -/

/-- The lambda `page` of `write_fixup_chains`. -/
def page (addr : ℕ) : ℕ := addr / L.pageSize * L.pageSize

/-- The fixups of a segment, each with the value of its `next` field. -/
def links : List (Fixup τ) → List (Fixup τ × ℕ)
  | [] => []
  | [f] => [(f, 0)]
  | f :: g :: fixups =>
    (f, if L.page g.addr = L.page f.addr then (g.addr - f.addr) / 4 else 0) :: links (g :: fixups)

end Image

/-- `DyldChainedPtr64Bind`. -/
def bindWord (ordinal addend next : ℕ) : ℕ :=
  BitField.pack [(24, ordinal), (8, addend), (19, 0), (12, next), (1, 1)]

/-- `DyldChainedPtr64Rebase` for a word that holds `val`. -/
def rebaseWord (val next : ℕ) : ℕ :=
  BitField.pack [(36, val), (8, val / 2 ^ 56), (7, 0), (12, next), (1, 0)]

/-- The errors of `write_fixup_chains`. -/
inductive FixupError where
  | unalignedBind (addr : ℕ)
  | unalignedRebase (addr : ℕ)
  | rebaseAddendTooLarge (addr : ℕ)
  deriving DecidableEq

/-- The errors for a fixup whose location holds `val`. -/
def fixupErrors (f : Fixup τ) (val : ℕ) : List FixupError :=
  match f.sym with
  | some _ => if f.addr % 4 ≠ 0 then [.unalignedBind f.addr] else []
  | none =>
    (if f.addr % 4 ≠ 0 then [.unalignedRebase f.addr] else []) ++
    if val &&& 0x00fffff000000000 ≠ 0
    then [.rebaseAddendTooLarge f.addr] else []

/-- The word of a fixup whose location holds `val`.  The parameter gives the
ordinal and the inline addend of a bind. -/
def fixupWord (imports : Fixup τ → ℕ × ℕ) (f : Fixup τ) (next val : ℕ) : ℕ :=
  match f.sym with
  | some _ => bindWord (imports f).1 (imports f).2 next
  | none => rebaseWord val next

/-- The order in which the parallel loop over the fixups of a segment handles
them. -/
structure Schedule (L : Image τ) where
  order : OutputSegment → List (Fixup τ × ℕ)
  order_perm : ∀ seg ∈ L.segments, (order seg).Perm (L.links (L.segmentFixups seg))

/-- A step of `write_fixup_chains`: the location, the fixup and its `next`
field. -/
structure Step (τ : Type*) where
  loc : ℕ
  fixup : Fixup τ
  next : ℕ

def Step.run (imports : Fixup τ → ℕ × ℕ) (state : Memory × List FixupError)
    (step : Step τ) : Memory × List FixupError :=
  let val := load64 state.1 step.loc
  (store64 state.1 step.loc (fixupWord imports step.fixup step.next val),
    state.2 ++ fixupErrors step.fixup val)

namespace Schedule

variable {L : Image τ} (sched : Schedule L)

/-- All steps of `write_fixup_chains`. -/
def steps : List (Step τ) :=
  L.segments.flatMap fun seg =>
    (sched.order seg).map fun (f, next) => ⟨seg.loc f.addr, f, next⟩

def writeFixupChains (imports : Fixup τ → ℕ × ℕ) (mem : Memory) : Memory × List FixupError :=
  sched.steps.foldl (Step.run imports) (mem, [])

end Schedule

/-! ## The loader -/

/-- The `next` field of a chained pointer of either kind. -/
def nextField (word : ℕ) : ℕ := word / 2 ^ 51 % 2 ^ 12

def rebaseTarget (word : ℕ) : ℕ :=
  word % 2 ^ 36 + word / 2 ^ 36 % 2 ^ 8 * 2 ^ 56

def walkChain (mem : Memory) (seg : OutputSegment) : ℕ → ℕ → Option (List ℕ)
  | 0, _ => none
  | fuel + 1, addr =>
    let next := nextField (load64 mem (seg.loc addr))
    if next = 0 then some [addr]
    else (walkChain mem seg fuel (addr + 4 * next)).map (addr :: ·)

/-- Follow the chain of page `i` of a segment. -/
def walkPage (mem : Memory) (seg : OutputSegment) (imageBase : ℕ)
    (rec : StartsInSegment) (fuel i : ℕ) : Option (List ℕ) :=
  match rec.pageStart[i]? with
  | none => none
  | some start =>
    if start = startNone then some []
    else walkChain mem seg fuel
      ((imageBase + rec.segmentOffset) % 2 ^ 64 + i * rec.pageSize + start)

def walkSegment (L : Image τ) (mem : Memory) (seg : OutputSegment)
    (fuel : ℕ) : Option (List (List ℕ)) :=
  match L.startsInSegment seg with
  | none => some []
  | some rec =>
    (List.range rec.pageCount).mapM (walkPage mem seg L.imageBase rec fuel)

def Image.inside (L : Image τ) (seg : OutputSegment) : List (Fixup τ) :=
  L.sorted.filter fun f =>
    decide (seg.vmaddr ≤ f.addr ∧ f.addr < seg.vmaddr + seg.vmsize)

/-- Following the chains of every segment visits exactly the fixups inside it,
in increasing order and without crossing a page, and every rebase word decodes
to the value that its location held before, unless that was reported as an
error. -/
structure ChainsCorrect (L : Image τ) (imports : Fixup τ → ℕ × ℕ)
    (sched : Schedule L) (mem : Memory) : Prop where
  visits : ∃ fuel, ∀ seg ∈ L.segments, ∃ pages,
    walkSegment L (sched.writeFixupChains imports mem).1 seg fuel = some pages ∧
      pages.flatten = (L.inside seg).map Fixup.addr ∧
      ∀ i chain, pages[i]? = some chain → ∀ addr ∈ chain,
        seg.vmaddr + i * L.pageSize ≤ addr ∧ addr < seg.vmaddr + (i + 1) * L.pageSize
  rebases : ∀ seg ∈ L.segments, ∀ f ∈ L.inside seg, f.sym = none →
    rebaseTarget (load64 (sched.writeFixupChains imports mem).1 (seg.loc f.addr)) =
        load64 mem (seg.loc f.addr) ∨
      .rebaseAddendTooLarge f.addr ∈ (sched.writeFixupChains imports mem).2

/-- The words of different fixups do not overlap in the output file. -/
def Image.Separated (L : Image τ) : Prop :=
  (L.segments.flatMap fun seg => (L.inside seg).map fun f => seg.loc f.addr).Pairwise WordsDisjoint

end Mold.MachO.ChainedFixups
