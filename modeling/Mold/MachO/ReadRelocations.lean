import Mold.Lib.StableSort
import Mold.MachO.RelocSpans

/-!
# Reading relocations

`readRelocations` models `read_relocations` of `arch-x86-64.cc`, and
`sortRelocationsByOffset` models `sort_relocations_by_offset` of `input-sections.cc`.
Relocations are read in ascending order if their table ascends or descends, and otherwise
they are sorted.  The subsection of the last reference by address is kept, and it is taken
again for the next one if that is in its range.
-/

namespace Mold.MachO.Subsections

open Mold.Lib

/-! ## Entries of the table -/

structure MachRel where
  offset : UInt32
  idx : ℕ := 0
  isPcrel : Bool := false
  p2size : ℕ := 3
  isExtern : Bool := false
  type : UInt8 := 0

/-- `X86_64_RELOC_SUBTRACTOR` -/
def relocSubtractor : UInt8 := 5

/-- What `read_relocations` reads of a section and its file. -/
structure RelocInput (τ σ : Type*) where
  addr : UInt64
  contents : ℕ → UInt8
  syms : ℕ → τ
  subsections : List σ
  subsectionLookup : List (Option ℕ)
  inputAddr : σ → UInt32
  inputSize : σ → UInt32

variable {τ σ : Type*}

def readWord (buf : ℕ → UInt8) (off : ℕ) : UInt32 :=
  (buf off).toUInt32 ||| (buf (off + 1)).toUInt32 <<< 8 ||| (buf (off + 2)).toUInt32 <<< 16 |||
    (buf (off + 3)).toUInt32 <<< 24

def getRelocAddend (type : UInt8) : Int64 :=
  if type = 6 then 1
  else if type = 7 then 2
  else if type = 8 then 4
  else 0

def readAddend (buf : ℕ → UInt8) (r : MachRel) : Int64 :=
  if r.p2size = 2 then (readWord buf r.offset.toNat).toInt32.toInt64
  else
    ((readWord buf r.offset.toNat).toUInt64 |||
      (readWord buf (r.offset.toNat + 4)).toUInt64 <<< 32).toInt64

namespace RelocInput

def addend (inp : RelocInput τ σ) (r : MachRel) : Int64 :=
  readAddend inp.contents r + getRelocAddend r.type

/-- The address that an entry without a symbol refers to. -/
def targetAddr (inp : RelocInput τ σ) (r : MachRel) : UInt64 :=
  if r.isPcrel then inp.addr + r.offset.toUInt64 + (inp.addend r).toUInt64 + 4
  else (inp.addend r).toUInt64

/-- `find_subsection` -/
def find (inp : RelocInput τ σ) (addr : UInt64) : Option σ :=
  findSubsection inp.inputAddr inp.subsections inp.subsectionLookup addr.toUInt32

def inRange (inp : RelocInput τ σ) (target : σ) (addr : UInt64) : Bool :=
  decide ((inp.inputAddr target).toUInt64 ≤ addr) &&
    decide (addr < (inp.inputAddr target).toUInt64 + (inp.inputSize target).toUInt64)

def cached (inp : RelocInput τ σ) (lastTarget : Option σ) (addr : UInt64) : Option σ :=
  match lastTarget with
  | none => inp.find addr
  | some target => if inp.inRange target addr then some target else inp.find addr

end RelocInput

/-! ## Translation -/

def isBehindSubtractor (rels : List MachRel) (idx : ℕ) : Bool :=
  decide (0 < idx) && ((rels[idx - 1]?).map MachRel.type == some relocSubtractor)

def externRelocation (inp : RelocInput τ σ) (rels : List MachRel) (ent : MachRel × ℕ) :
    Relocation τ σ where
  target := .sym (inp.syms ent.1.idx)
  addend := inp.addend ent.1
  offset := ent.1.offset
  type := ent.1.type
  size := UInt8.ofNat (1 <<< ent.1.p2size)
  isSubtracted := isBehindSubtractor rels ent.2

def localRelocation (inp : RelocInput τ σ) (rels : List MachRel) (ent : MachRel × ℕ)
    (target : σ) : Relocation τ σ where
  target := .subsec target
  addend := (inp.targetAddr ent.1 - (inp.inputAddr target).toUInt64).toInt64
  offset := ent.1.offset
  type := ent.1.type
  size := UInt8.ofNat (1 <<< ent.1.p2size)
  isSubtracted := isBehindSubtractor rels ent.2

/-- The lambda `fill` for entry after entry.  There is no result if an address is in no
subsection. -/
def fill (inp : RelocInput τ σ) (rels : List MachRel) :
    Option σ → List (MachRel × ℕ) → Option (List (Relocation τ σ))
  | _, [] => some []
  | lastTarget, ent :: ents =>
    if ent.1.isExtern then
      (fill inp rels lastTarget ents).map (externRelocation inp rels ent :: ·)
    else
      (inp.cached lastTarget (inp.targetAddr ent.1)).bind fun target =>
        (fill inp rels (some target) ents).map (localRelocation inp rels ent target :: ·)

def isIncreasing (rels : List MachRel) : Bool :=
  (rels.zip rels.tail).all fun p => p.1.offset ≤ p.2.offset

def isDecreasing (rels : List MachRel) : Bool :=
  (rels.zip rels.tail).all fun p => p.2.offset ≤ p.1.offset

/-- The order in which entries are filled in.  If the table descends, it is read from its
end on, and each run of equal offsets in its own order. -/
def fillOrder (rels : List MachRel) : List (MachRel × ℕ) :=
  if isDecreasing rels then
    reverseGroups (fun ent => ent.1.offset.toNat) rels.length rels.zipIdx.reverse
  else rels.zipIdx

/-- `read_relocations`: the relocations and whether they are sorted. -/
def readRelocations (inp : RelocInput τ σ) (rels : List MachRel) :
    Option (List (Relocation τ σ) × Bool) :=
  (fill inp rels none (fillOrder rels)).map fun out =>
    (out, isDecreasing rels || isIncreasing rels)

def Relocation.place (r : Relocation τ σ) : ℕ := r.offset.toNat

def sortRelocationsByOffset (rels : List (Relocation τ σ)) : List (Relocation τ σ) :=
  if rels.length < 2 then rels
  else if (rels.zip rels.tail).all fun p => p.1.offset ≤ p.2.offset then rels
  else if (rels.zip rels.tail).all fun p => p.2.offset ≤ p.1.offset then
    reverseGroups Relocation.place rels.length rels.reverse
  else stableSort Relocation.place rels

/-- The first part of `parse_relocations`. -/
def readSorted (inp : RelocInput τ σ) (rels : List MachRel) : Option (List (Relocation τ σ)) :=
  (readRelocations inp rels).map fun out =>
    if !out.2 && decide (1 < out.1.length) then sortRelocationsByOffset out.1 else out.1

def translate (inp : RelocInput τ σ) (rels : List MachRel) (ent : MachRel × ℕ) :
    Option (Relocation τ σ) :=
  if ent.1.isExtern then some (externRelocation inp rels ent)
  else (inp.find (inp.targetAddr ent.1)).map (localRelocation inp rels ent)

def translateSorted (inp : RelocInput τ σ) (rels : List MachRel) :
    Option (List (Relocation τ σ)) :=
  (rels.zipIdx.mapM (translate inp rels)).map (stableSort Relocation.place)

/-- What is read is the stable sort of what each entry means, and subtractors are followed by
their partners, and nothing else is marked. -/
structure ReadOk (inp : RelocInput τ σ) (rels : List MachRel) (out : List (Relocation τ σ)) :
    Prop where
  sorted : translateSorted inp rels = some out
  pairs : ∀ i r r', rels[i]? = some r → r.type = relocSubtractor → rels[i + 1]? = some r' →
    r'.offset = r.offset → ∃ p x y, out[p]? = some x ∧ out[p + 1]? = some y ∧
      translate inp rels (r, i) = some x ∧ translate inp rels (r', i + 1) = some y
  marked : ∀ x ∈ out, (x.isSubtracted = true ↔ ∃ i r r', rels[i]? = some r ∧
    r.type = relocSubtractor ∧ rels[i + 1]? = some r' ∧ translate inp rels (r', i + 1) = some x)

/-- The addresses that entries without symbols refer to. -/
def localAddrs (inp : RelocInput τ σ) (ents : List (MachRel × ℕ)) : List UInt64 :=
  (ents.filter fun ent => !ent.1.isExtern).map fun ent => inp.targetAddr ent.1

/-- If the next address is in the range of the subsection that is found for one address, it is
found for the next one, too. -/
def FindsAgain (inp : RelocInput τ σ) (addr addr' : UInt64) : Prop :=
  ∀ target, inp.find addr = some target → inp.inRange target addr' = true →
    inp.find addr' = some target

/-- This is so for references by addresses that are filled in one after the other. -/
def CacheAgrees (inp : RelocInput τ σ) (rels : List MachRel) : Prop :=
  (localAddrs inp (fillOrder rels)).IsChain (FindsAgain inp)

end Mold.MachO.Subsections
