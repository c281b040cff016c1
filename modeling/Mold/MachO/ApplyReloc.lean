import Mold.Lib.Displacement
import Mold.MachO.ReadRelocationsCorrect

/-!
# Applying relocations

`applyReloc` models `Subsection::apply_reloc` of `arch-x86-64.cc`: what is
written into the bytes of a subsection for each of its relocations, where a
subtractor takes the next relocation with it.  The specification says what the
bytes of an entry of the table refer to, from the entry and its bytes alone.
-/

namespace Mold.MachO.ApplyReloc

open Mold.Lib Mold.MachO.Subsections

variable {τ σ : Type*}

/-! ## Symbols and addresses -/

/-- What is read of a symbol.  The indices are `-1` if there is no entry. -/
structure Symbol (σ : Type*) where
  hasFile : Bool := true
  isImported : Bool := false
  subsec : Option σ := none
  value : UInt64 := 0
  stubIdx : Int32 := -1
  gotIdx : Int32 := -1
  tlvIdx : Int32 := -1

/-- The output: `subsecAddr` is `Subsection::get_addr`, `sectionType` is the type of
the input section of a subsection, and the other addresses are those of sections. -/
structure Context (τ σ : Type*) where
  sym : τ → Symbol σ
  subsecAddr : σ → UInt64
  sectionType : σ → ℕ
  stubs : UInt64
  got : UInt64
  threadPtrs : UInt64
  tlsBegin : UInt64

namespace Context

variable (ctx : Context τ σ)

/-- `Symbol::get_addr` -/
def getAddr (s : τ) : UInt64 :=
  if (ctx.sym s).stubIdx ≠ -1 then
    ctx.stubs + ((ctx.sym s).stubIdx.toUInt32 * 6).toUInt64
  else
    match (ctx.sym s).subsec with
    | some t => ctx.subsecAddr t + (ctx.sym s).value
    | none => (ctx.sym s).value

/-- The index of a symbol times the size of a word. -/
def slotOffset (idx : Int32) : UInt64 := idx.toInt64.toUInt64 * 8

/-- `Symbol::get_tlv_addr` -/
def getTlvAddr (s : τ) : UInt64 := ctx.threadPtrs + slotOffset (ctx.sym s).tlvIdx

/-- `Relocation::get_addr` -/
def relocAddr : RelocTarget τ σ → UInt64
  | .sym s => ctx.getAddr s
  | .subsec t => ctx.subsecAddr t

/-- The subsection is in `S_THREAD_LOCAL_REGULAR` or `S_THREAD_LOCAL_ZEROFILL`. -/
def isThreadLocal (t : σ) : Bool := ctx.sectionType t = 0x11 || ctx.sectionType t = 0x12

/-- `Relocation::refers_to_tls` -/
def refersToTls : RelocTarget τ σ → Bool
  | .sym s => (ctx.sym s).subsec.any ctx.isThreadLocal
  | .subsec _ => false

def isImported : RelocTarget τ σ → Bool
  | .sym s => (ctx.sym s).isImported
  | .subsec _ => false

def isUndefined : RelocTarget τ σ → Bool
  | .sym s => !(ctx.sym s).hasFile
  | .subsec _ => false

end Context

/-! ## Relocations -/

/-- A value whose low bytes are written at an offset of the subsection. -/
structure Write where
  offset : UInt32
  size : UInt8
  value : UInt64
  deriving DecidableEq, Repr

/-- The displacement types `SIGNED`, `SIGNED_1`, `SIGNED_2` and `SIGNED_4`. -/
def isSigned (type : UInt8) : Bool := type = 1 || type = 6 || type = 7 || type = 8

/-- `GOT_LOAD` and `GOT` -/
def isGot (type : UInt8) : Bool := type = 3 || type = 4

namespace Context

variable (ctx : Context τ σ) (self : σ)

/-- A field of four bytes, or an assertion fails. -/
def writeDisp (r : Relocation τ σ) (value : UInt64) : Option (Option Write) :=
  if r.size = 4 then some (some ⟨r.offset, 4, value⟩) else none

/-- One case of the switch but the subtractor.  An outer `none` ends the link, and with an
inner `none` nothing is written. -/
def applyOne (r : Relocation τ σ) : Option (Option Write) :=
  let S := ctx.relocAddr r.target
  let A := r.addend.toUInt64
  let P := ctx.subsecAddr self + r.offset.toUInt64
  if r.type = 0 then
    if r.size = 8 then
      if ctx.isImported r.target then some none
      else if ctx.refersToTls r.target then some (some ⟨r.offset, 8, S + A - ctx.tlsBegin⟩)
      else some (some ⟨r.offset, 8, S + A⟩)
    else none
  else if isSigned r.type then
    writeDisp r (S + A - P - 4 - (getRelocAddend r.type).toUInt64)
  else if r.type = 2 then writeDisp r (S + A - P - 4)
  else if isGot r.type then
    let G := match r.target with
      | .sym s => slotOffset (ctx.sym s).gotIdx
      | .subsec _ => 0
    writeDisp r (G + ctx.got + A - P - 4)
  else if r.type = 9 then
    match r.target with
    | .sym s => writeDisp r (ctx.getTlvAddr s + A - P - 4)
    | .subsec _ => none
  else none

/-- The case of a subtractor, where `r'` is the next relocation. -/
def applyPair (r r' : Relocation τ σ) : Option (Option Write) :=
  if (r.size = 4 ∨ r.size = 8) ∧ r'.type = 0 then
    some (some ⟨r.offset, r.size,
      ctx.relocAddr r'.target + r'.addend.toUInt64 - ctx.relocAddr r.target⟩)
  else none

/-- `Subsection::apply_reloc`: what is written for each turn of the loop. -/
def applyReloc : List (Relocation τ σ) → Option (List (Option Write))
  | [] => some []
  | [r] =>
    if ctx.isUndefined r.target then some [none]
    else if r.type = relocSubtractor then none
    else (ctx.applyOne self r).map ([·])
  | r :: r' :: rels =>
    if ctx.isUndefined r.target then (applyReloc (r' :: rels)).map (none :: ·)
    else if r.type = relocSubtractor then
      (ctx.applyPair r r').bind fun w => (applyReloc rels).map (w :: ·)
    else (ctx.applyOne self r).bind fun w => (applyReloc (r' :: rels)).map (w :: ·)

end Context

def isIn (inp : RelocInput τ σ) (self : σ) (offset : UInt32) : Bool :=
  decide ((inp.inputAddr self).toNat ≤ inp.addr.toNat + offset.toNat) &&
    decide (inp.addr.toNat + offset.toNat <
      (inp.inputAddr self).toNat + (inp.inputSize self).toNat)

def relsOf (inp : RelocInput τ σ) (self : σ) (out : List (Relocation τ σ)) :
    List (Relocation τ σ) :=
  (out.filter fun r => isIn inp self r.offset).map
    (Relocation.rebase ((inp.inputAddr self).toUInt64 - inp.addr).toUInt32)

def entriesOf (inp : RelocInput τ σ) (rels : List MachRel) (self : σ)
    (out : List (Relocation τ σ)) : List (MachRel × RelocTarget τ σ) :=
  (((sortedEntries rels).zip out).filter fun p => isIn inp self p.1.1.offset).map
    fun p => (p.1.1, p.2.target)

/-! ## What a table is like -/

/-- Types whose field is relative to the program counter. -/
def isPcRelative (type : UInt8) : Bool :=
  isSigned type || type = 2 || isGot type || type = 9

/-- The flags and sizes are those of the types, and each subtractor is followed by an
unsigned entry for the same field. -/
structure WellFormed (rels : List MachRel) : Prop where
  type : ∀ r ∈ rels, r.type = 0 ∨ r.type = relocSubtractor ∨ isPcRelative r.type = true
  pcrel : ∀ r ∈ rels, r.isPcrel = isPcRelative r.type
  disp : ∀ r ∈ rels, isPcRelative r.type = true → r.p2size = 2
  subtractor : ∀ r ∈ rels, r.type = relocSubtractor → r.p2size = 2 ∨ r.p2size = 3
  partner : ∀ i r, rels[i]? = some r → r.type = relocSubtractor →
    ∃ r', rels[i + 1]? = some r' ∧ r'.type = 0 ∧ r'.offset = r.offset ∧ r'.p2size = r.p2size
  unsigned : ∀ i r, rels[i]? = some r → r.type = 0 → isBehindSubtractor rels i = false →
    r.p2size = 3

inductive Item (τ σ : Type*) where
  | single (r : MachRel) (t : RelocTarget τ σ)
  | pair (sub : MachRel) (ts : RelocTarget τ σ) (r : MachRel) (t : RelocTarget τ σ)

def items : List (MachRel × RelocTarget τ σ) → List (Item τ σ)
  | [] => []
  | [e] => [.single e.1 e.2]
  | e :: e' :: es =>
    if e.1.type = relocSubtractor then .pair e.1 e.2 e'.1 e'.2 :: items es
    else .single e.1 e.2 :: items (e' :: es)

section Meaning

variable (ctx : Context τ σ) (inp : RelocInput τ σ) (self : σ)

def trailing (type : UInt8) : UInt64 :=
  if type = 6 then 1 else if type = 7 then 2 else if type = 8 then 4 else 0

def inPlace (r : MachRel) : UInt64 := (readAddend inp.contents r).toUInt64

/-- The distance from the symbol, or the address in the input.  The field of an instruction
without a symbol is relative to the end of the instruction. -/
def referred (r : MachRel) : UInt64 :=
  if isPcRelative r.type && !r.isExtern then
    inp.addr + r.offset.toUInt64 + 4 + trailing r.type + inPlace inp r
  else inPlace inp r + trailing r.type

/-- Where the distances of a target count from: a subsection moves by the difference of its
addresses. -/
def origin : RelocTarget τ σ → UInt64
  | .sym s => ctx.getAddr s
  | .subsec t => ctx.subsecAddr t - (inp.inputAddr t).toUInt64

/-- The same for an entry: some types refer to a slot for their symbol. -/
def base (type : UInt8) : RelocTarget τ σ → UInt64
  | .sym s =>
    if isGot type then ctx.got + Context.slotOffset (ctx.sym s).gotIdx
    else if type = 9 then ctx.getTlvAddr s
    else ctx.getAddr s
  | .subsec t => origin ctx inp (.subsec t)

def location (r : MachRel) (t : RelocTarget τ σ) : UInt64 :=
  base ctx inp r.type t + referred inp r

def endOf (r : MachRel) : UInt64 :=
  ctx.subsecAddr self + (inp.addr + r.offset.toUInt64 - (inp.inputAddr self).toUInt64) + 4 +
    trailing r.type

def inTls : RelocTarget τ σ → Bool
  | .sym s => (ctx.sym s).subsec.any ctx.isThreadLocal
  | .subsec t => ctx.isThreadLocal t

/-- The field as the processor or a 64-bit word reads it. -/
def Write.field (w : Write) : UInt64 :=
  if w.size = 4 then signExtend32 w.value else w.value

/-- The field is written at the place of the entry and satisfies the equation. -/
def Field (r : MachRel) (w : Option Write) (p : UInt64 → Prop) : Prop :=
  ∃ x, w = some x ∧
    x.offset.toUInt64 = inp.addr + r.offset.toUInt64 - (inp.inputAddr self).toUInt64 ∧ p x.field

namespace Item

/-- An instruction refers to the location by its displacement, a word holds the location or,
in thread-local storage, its offset, and a pair holds the difference of two locations.  A
word for an imported symbol is left to the loader. -/
def Refers : Item τ σ → Option Write → Prop
  | .single r t, w =>
    if r.type = 0 then
      if ctx.isImported t then w = none
      else Field inp self r w fun x =>
        x + (if inTls ctx t then ctx.tlsBegin else 0) = location ctx inp r t
    else Field inp self r w fun x => endOf ctx inp self r + x = location ctx inp r t
  | .pair _ ts r t, w =>
    Field inp self r w fun x => origin ctx inp ts + x = location ctx inp r t

def Fits : Item τ σ → Prop
  | .single r t => r.type ≠ 0 → FitsDisp (location ctx inp r t - endOf ctx inp self r)
  | .pair sub ts r t => sub.p2size = 2 → FitsDisp (location ctx inp r t - origin ctx inp ts)

/-- The displacement of an instruction without a symbol is that of the input. -/
def Unchanged : Item τ σ → Option Write → Prop
  | .single r _, w => isPcRelative r.type = true → r.isExtern = false →
      Field inp self r w fun x => x = inPlace inp r
  | .pair _ _ _ _, _ => True

/-- Slots are for symbols, words for thread-local storage are right for symbols, and the
subsection of a subtractor without a symbol is at the start of the input. -/
def Safe : Item τ σ → Prop
  | .single r (.subsec t) =>
    if r.type = 0 then ctx.isThreadLocal t = true → ctx.tlsBegin = 0
    else if isGot r.type then ctx.got.toUInt32 = (ctx.subsecAddr t).toUInt32
    else r.type ≠ 9
  | .single _ (.sym _) => True
  | .pair _ (.subsec t) _ _ => inp.inputAddr t = 0
  | .pair _ (.sym _) _ _ => True

end Item

def Names (r : MachRel) (t : RelocTarget τ σ) : Prop :=
  if r.isExtern then t = .sym (inp.syms r.idx) else ∃ s, t = .subsec s

def IsShift (c : UInt64) : Prop := ∀ t, ctx.subsecAddr t = (inp.inputAddr t).toUInt64 + c

/-- What is written for a subsection refers to what the input bytes referred to, and a shift
leaves the displacements of its instructions as they are. -/
def KeepsMeaning (rels : List MachRel) (out : List (Relocation τ σ)) : Prop :=
  (∀ e ∈ entriesOf inp rels self out, Names inp e.1 e.2) ∧
    ∃ ws, ctx.applyReloc self (relsOf inp self out) = some ws ∧
    List.Forall₂ (Item.Refers ctx inp self) (items (entriesOf inp rels self out)) ws ∧
    ∀ c, IsShift ctx inp c →
      List.Forall₂ (Item.Unchanged inp self) (items (entriesOf inp rels self out)) ws

end Meaning

end Mold.MachO.ApplyReloc
