import Mold.Elf.SymtabPartition

/-!
# Copied relocations

With `-r` and `--emit-relocs` the relocations of the members of an output section are
copied to a section of their own.  Section symbols of the input do not exist in the
output.  Relocations that name them are changed to name the symbols of the output
sections, all others name the slots that their symbols have in the symbol table.
-/

namespace Mold.Elf.Symtab

open Lib

/-- A fragment of a merged section, with the chunk of the merged section and its offset
there. -/
structure Fragment where
  chunk : ℕ
  offset : ℤ
  isAlive : Bool := true
deriving DecidableEq, Repr

structure Target where
  isEhFrame : Bool := false
  /-- The chunk of the output section.  Only sections that are alive have one. -/
  outputSection : Option ℕ := none
  offset : ℤ := 0
  /-- The chunk and the offset of the section that it was folded into. -/
  leader : Option (ℕ × ℤ) := none
deriving DecidableEq, Repr

structure SectionSym where
  value : ℕ := 0
  /-- The fragments of a mergeable section with their offsets in it. -/
  mergeable : Option (List (ℕ × Fragment)) := none
  isec : Option Target := none
deriving DecidableEq, Repr

structure Rel (ι : Type*) where
  offset : ℤ
  sym : ι
  addend : ℤ
  /-- The addend is not an offset from the symbol.  On Alpha there are two such types. -/
  keepsAddend : Bool := false
  /-- The bytes that were removed from the section before the relocated place. -/
  delta : ℤ := 0
  /-- The addend that can be read from the section after relocations were applied. -/
  contents : ℤ := 0
deriving DecidableEq, Repr

structure Member (ι : Type*) where
  isEhFrame : Bool := false
  isAlloc : Bool := true
  offset : ℤ
  rels : List (Rel ι)
deriving DecidableEq, Repr

structure RelocContext (ι : Type*) extends Context ι where
  /-- The orders in which the files have counted their symbols. -/
  objOrder : List ℕ
  dsoOrder : List ℕ
  /-- Entries have addends. -/
  isRela : Bool
  /-- The width of `r_sym`. -/
  symBits : ℕ
  shAddr : ℕ → ℤ
  ehFrame : ℕ
  /-- The offset of a symbol in its chunk, or its value if it has no chunk. -/
  symOffset : ι → ℤ
  sectionSym : ι → SectionSym
  /-- The chunk of the output section. -/
  chunk : ℕ
  members : List (Member ι)
  objOrder_perm : objOrder.Perm toContext.objIndices
  dsoOrder_perm : dsoOrder.Perm toContext.dsoIndices
  owned_obj : ∀ s k, (sym s).file = some (.obj k) →
    ∃ file, objs[k]? = some file ∧ file.symbols[(sym s).symIdx]? = some s
  owned_dso : ∀ s k, (sym s).file = some (.dso k) →
    ∃ file, dsos[k]? = some file ∧ file.symbols[(sym s).symIdx]? = some s
  file_ne_none : ∀ isec ∈ members, ∀ rel ∈ isec.rels, (sym rel.sym).file ≠ none
  members_ehFrame : ∀ isec ∈ members, isec.isEhFrame = false
  frags_first : ∀ s p frags, (sectionSym s).mergeable = some (p :: frags) → p.1 = 0
  mergeable_removed : ∀ s frags target, (sectionSym s).mergeable = some frags →
    (sectionSym s).isec = some target →
      target.outputSection = none ∧ target.leader = none ∧ target.isEhFrame = false
  osec_shndx : ∀ s target c, (sectionSym s).isec = some target →
    target.outputSection = some c → toContext.shndx c ≠ 0
  frag_shndx : ∀ s frags, (sectionSym s).mergeable = some frags →
    ∀ p ∈ frags, p.2.isAlive = true → toContext.shndx p.2.chunk ≠ 0

/-! ## Copying -/

/-- `MergeableSection::get_fragment` -/
def getFragment (frags : List (ℕ × Fragment)) (offset : ℤ) : Option (Fragment × ℤ) :=
  (frags.filter fun p => (p.1 : ℤ) ≤ offset).getLast?.map fun p => (p.2, offset - p.1)

structure Entry where
  rOffset : ℤ
  rSym : ℕ
  addend : ℤ
deriving DecidableEq, Repr

structure RelWrite (ι : Type*) where
  slot : ℕ
  isec : Member ι
  rel : Rel ι
  entry : Option Entry

namespace RelocContext

variable {ι : Type*}

section Copy

variable [DecidableEq ι] (ctx : RelocContext ι)

/-- What has been counted for the symbol table. -/
def sizes : Sizes ι := ctx.createOutputSymtab ctx.objOrder ctx.dsoOrder

def symtabIdx (s : ι) : ℕ :=
  match (ctx.sym s).file with
  | none => 0
  | some (.obj k) =>
    if ctx.isLocal s then Context.valueOf (ctx.localSlots ctx.sizes) k
    else Context.valueOf (ctx.globalSlots ctx.sizes) k
  | some (.dso k) =>
    if ctx.isLocal s then 0 else Context.valueOf (ctx.sharedSlots ctx.sizes) k

/-- `Symbol::get_output_sym_idx` without its assertion.  The index of a symbol that was
left out is `-1`. -/
def outputSymIdx (s : ι) : ℤ :=
  match ctx.getOutputSymIdx ctx.sizes s with
  | some n => n
  | none => ctx.symtabIdx s - 1

end Copy

variable (ctx : RelocContext ι)

/-- The fragment that the symbol of a relocation is tied to, with the value of the symbol.
`resolve_section_pieces` has given relocations of allocated sections symbols of their
own. -/
def fragment (isec : Member ι) (rel : Rel ι) : Option (Option (Fragment × ℤ)) :=
  match (ctx.sectionSym rel.sym).mergeable with
  | none => some none
  | some frags =>
    if isec.isAlloc then
      (getFragment frags ((ctx.sectionSym rel.sym).value + rel.addend)).map
        fun p => some (p.1, p.2 - rel.addend)
    else some (getFragment frags (ctx.sectionSym rel.sym).value)

def copySection (isec : Member ι) (rel : Rel ι) : Option (ℤ × ℤ) :=
  match ctx.fragment isec rel with
  | none => none
  | some (some (frag, value)) =>
    some (ctx.shndx frag.chunk, frag.offset + value + rel.addend)
  | some none =>
    match (ctx.sectionSym rel.sym).isec with
    | none => none
    | some target =>
      match target.outputSection with
      | some c => some (ctx.shndx c, rel.addend + target.offset)
      | none =>
        if isec.isEhFrame then some (ctx.shndx ctx.ehFrame, rel.addend)
        else some (0, 0)

variable [DecidableEq ι]

def copySym (isec : Member ι) (rel : Rel ι) : Option (ℤ × ℤ) :=
  if (ctx.sym rel.sym).isSection then ctx.copySection isec rel
  else
    some (if (ctx.sym rel.sym).symIdx = 0 then 0 else ctx.outputSymIdx rel.sym, rel.addend)

/-- The lambda `write` of `RelocSection::copy_buf`. -/
def copyRel (isec : Member ι) (rel : Rel ι) : Option Entry :=
  (ctx.copySym isec rel).map fun p =>
    { rOffset := ctx.shAddr ctx.chunk + isec.offset + rel.offset
      rSym := (p.1 % 2 ^ ctx.symBits).toNat
      addend :=
        if ctx.isRela || ctx.args.relocatable then
          if rel.keepsAddend then rel.addend else p.2
        else rel.contents }

def numEntries : ℕ := (ctx.members.map fun isec => isec.rels.length).sum

def copyBuf : List (RelWrite ι) :=
  (tile (fun isec => isec.rels.length) 0 ctx.members).flatMap fun p =>
    (p.1.rels.zipIdx p.2).map fun q =>
      { slot := q.2, isec := p.1, rel := q.1, entry := ctx.copyRel p.1 q.1 }

end RelocContext

/-! ## Specification -/

inductive Place (ι : Type*) where
  | inChunk (chunk : ℕ) (offset : ℤ)
  | absolute (value : ℤ)
  | undefined (s : ι) (addend : ℤ)
  | common (s : ι) (addend : ℤ)
  /-- A symbol that the linker has made for something in a chunk. -/
  | label (slot : ℕ) (addend : ℤ)
  /-- A place that was removed. -/
  | removed
  /-- There is no such slot. -/
  | invalid
deriving DecidableEq, Repr

namespace RelocContext

variable {ι : Type*} (ctx : RelocContext ι)

def targetPlace (target : Target) (addend : ℤ) : Place ι :=
  match target.outputSection, target.leader with
  | some c, _ => .inChunk c (target.offset + addend)
  | none, some leader => .inChunk leader.1 (leader.2 + addend)
  | none, none => if target.isEhFrame then .inChunk ctx.ehFrame addend else .removed

def sectionPlace (sec : SectionSym) (addend : ℤ) : Place ι :=
  match sec.mergeable with
  | some frags =>
    match getFragment frags (sec.value + addend) with
    | some (frag, off) =>
      if frag.isAlive then .inChunk frag.chunk (frag.offset + off) else .removed
    | none => .removed
  | none =>
    match sec.isec with
    | none => .removed
    | some target => ctx.targetPlace target (sec.value + addend)

def symbolPlace (s : ι) (addend : ℤ) : Place ι :=
  match (ctx.sym s).copyrel with
  | some c => .inChunk c (ctx.symOffset s + addend)
  | none =>
    if ctx.isDso s || (ctx.sym s).isUndef then .undefined s addend
    else
      match (ctx.sym s).origin, (ctx.sym s).ehFrame with
      | .absolute, _ => .absolute (ctx.symOffset s + addend)
      | .common, _ => .common s addend
      | .osec c, _ | .frag true c, _ | .isec true _ c _, _ =>
        .inChunk c (ctx.symOffset s + addend)
      | .isec false _ _ (some leader), _ => .inChunk leader (ctx.symOffset s + addend)
      | .isec false _ _ none, some c => .inChunk c (ctx.symOffset s + addend)
      | .frag false _, _ | .isec false _ _ none, none => .removed

/-- What a relocation of the input denotes.  The null symbol of an object file has the
value 0. -/
def relPlace (rel : Rel ι) : Place ι :=
  if (ctx.sym rel.sym).isSection then ctx.sectionPlace (ctx.sectionSym rel.sym) rel.addend
  else if (ctx.sym rel.sym).symIdx = 0 ∧ ctx.isDso rel.sym = false then
    .absolute rel.addend
  else ctx.symbolPlace rel.sym rel.addend

/-- `get_addr` for what a symbol is tied to. -/
def originAddr (s : ι) : ℤ :=
  match (ctx.sym s).origin, (ctx.sym s).ehFrame with
  | .absolute, _ | .common, _ => ctx.symOffset s
  | .osec c, _ | .frag true c, _ | .isec true _ c _, _ => ctx.shAddr c + ctx.symOffset s
  | .isec false _ _ (some leader), _ => ctx.shAddr leader + ctx.symOffset s
  | .isec false _ _ none, some c => ctx.shAddr c + ctx.symOffset s
  | .frag false _, _ | .isec false _ _ none, none => 0

/-- `st_value` in `to_output_esym`.  That of a TLS symbol is taken as an address. -/
def stValue (s : ι) : ℤ :=
  match (ctx.sym s).copyrel with
  | some c => ctx.shAddr c + ctx.symOffset s
  | none => if ctx.isDso s || (ctx.sym s).isUndef then 0 else ctx.originAddr s

def contentValue : Content ι → ℤ
  | .null | .label _ => 0
  | .section c => ctx.shAddr c
  | .symbol s _ => ctx.stValue s

def chunkAt (n : ℕ) : Option ℕ :=
  ((List.range ctx.allChunks.length).filter fun c => ctx.shndx c ≠ 0).find? fun c =>
    ctx.shndx c = n

def contentPlace (content : Content ι) (sec : Option SectionRef) (addend : ℤ) : Place ι :=
  match content, sec with
  | .symbol s _, some .undef => .undefined s addend
  | _, some .abs => .absolute (ctx.contentValue content + addend)
  | _, some (.section n) =>
    match ctx.chunkAt n with
    | some c => .inChunk c (ctx.contentValue content - ctx.shAddr c + addend)
    | none => .invalid
  | _, _ => .invalid

variable [DecidableEq ι]

/-- What a slot of the symbol table denotes, with an addend: the section index and the value
that are written there. -/
def slotPlace (slot : ℕ) (addend : ℤ) : Place ι :=
  match (ctx.symWrites ctx.sizes).find? fun w => w.slot = slot with
  | none => .invalid
  | some w =>
    match w.content with
    | .null => .absolute addend
    | .label _ => .label slot addend
    | content => ctx.contentPlace content
      (w.stShndx.bind fun v => readShndx v (ctx.xindexAt ctx.sizes w.slot)) addend

/-- A slot and an addend denote a place of a symbol.  Where the place was removed, they name
no symbol, or the symbol without a section. -/
def Denotes (s : ι) (slot : ℕ) (addend : ℤ) (place : Place ι) : Prop :=
  ctx.slotPlace slot addend = place ∨
    place = .removed ∧ (slot = 0 ∨ ctx.slotPlace slot addend = .undefined s addend)

def EntryCorrect (isec : Member ι) (rel : Rel ι) (entry : Option Entry) : Prop :=
  ∃ e, entry = some e ∧
    e.rOffset = ctx.shAddr ctx.chunk + (isec.offset + (rel.offset - rel.delta)) ∧
    if rel.keepsAddend then e.addend = rel.addend
    else ctx.Denotes rel.sym e.rSym e.addend (ctx.relPlace rel)

/-- Every relocation is copied to an entry of its own with the same meaning. -/
structure Copied : Prop where
  slots : ctx.copyBuf.map RelWrite.slot = List.range ctx.numEntries
  rels : ctx.copyBuf.map (fun w => (w.isec, w.rel)) =
    ctx.members.flatMap fun isec => isec.rels.map fun rel => (isec, rel)
  entries : ∀ w ∈ ctx.copyBuf, ctx.EntryCorrect w.isec w.rel w.entry

/-- The section of a section symbol is still there and the symbol is at its start, or it
was removed for good. -/
def TargetOk (rel : Rel ι) : Prop :=
  ∃ target, (ctx.sectionSym rel.sym).isec = some target ∧
    (rel.keepsAddend = true ∨
      match target.outputSection with
      | some _ => (ctx.sectionSym rel.sym).value = 0
      | none => target.leader = none ∧ target.isEhFrame = false)

/-- The fragment that the place of the relocation is in is where it would be if the
section had not been split behind the fragment of its symbol. -/
def FragmentOk (isec : Member ι) (rel : Rel ι) (frags : List (ℕ × Fragment)) : Prop :=
  if isec.isAlloc then
    ∃ p, getFragment frags ((ctx.sectionSym rel.sym).value + rel.addend) = some p ∧
      (rel.keepsAddend = true ∨ p.1.isAlive = true ∨ ctx.shndx p.1.chunk = 0)
  else
    match getFragment frags (ctx.sectionSym rel.sym).value with
    | none => ctx.TargetOk rel
    | some first =>
      rel.keepsAddend = true ∨
        match getFragment frags ((ctx.sectionSym rel.sym).value + rel.addend) with
        | none => ctx.shndx first.1.chunk = 0
        | some p =>
          if p.1.isAlive then
            first.1.chunk = p.1.chunk ∧
              first.1.offset + first.2 + rel.addend = p.1.offset + p.2
          else ctx.shndx first.1.chunk = 0

/-- The symbol is written with the place that it has: what it is in has a section index, and
it is neither a common symbol with `-r` nor one in `.eh_frame`. -/
def SymbolKept (s : ι) : Prop :=
  match (ctx.sym s).copyrel with
  | some c => ctx.shndx c ≠ 0
  | none =>
    ctx.isDso s = true ∨ (ctx.sym s).isUndef = true ∨
      match (ctx.sym s).origin, (ctx.sym s).ehFrame with
      | .absolute, _ => True
      | .common, _ => False
      | .osec c, _ | .frag true c, _ | .isec true _ c _, _ => ctx.shndx c ≠ 0
      | .frag false c, _ => ctx.shndx c = 0
      | .isec false _ _ (some leader), _ => ctx.shndx leader ≠ 0
      | .isec false _ _ none, eh => eh = none

/-- The symbol has a slot and is written with its place, or it has none and the slot that is
taken instead has the same meaning by chance. -/
def SymbolOk (rel : Rel ι) : Prop :=
  rel.keepsAddend = true ∨
    if (ctx.sym rel.sym).symIdx = 0 then ctx.isDso rel.sym = false
    else
      match ctx.getOutputSymIdx ctx.sizes rel.sym with
      | some _ => ctx.SymbolKept rel.sym
      | none =>
        ctx.Denotes rel.sym (((ctx.symtabIdx rel.sym - 1 : ℤ) % 2 ^ ctx.symBits).toNat)
          rel.addend (ctx.symbolPlace rel.sym rel.addend)

/-- The relocation keeps its meaning when it is copied. -/
def RelOk (isec : Member ι) (rel : Rel ι) : Prop :=
  rel.delta = 0 ∧
    if (ctx.sym rel.sym).isSection then
      match (ctx.sectionSym rel.sym).mergeable with
      | none => ctx.TargetOk rel
      | some frags => ctx.FragmentOk isec rel frags
    else ctx.SymbolOk rel

end RelocContext

end Mold.Elf.Symtab
