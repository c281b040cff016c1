import Mold.Lib.I386

/-!
# Relaxations of i386

`scan_relocations` and `apply_reloc_alloc` of `arch-i386.cc` at the relocations of loads from the
GOT and of the code sequences for thread-local storage.

A sequence is left as it is if it has an entry in the GOT, and is rewritten if not.  The first
function asks for entries, and the second one looks whether there is one.
-/

namespace Mold.Elf.I386

open Mold.Lib Mold.Lib.I386

/-- `other` stands for the types that neither ask for one of the entries nor belong to a
sequence. -/
inductive RelType where
  | none
  | pc32
  | plt32
  | got32
  | got32x
  | gotpc
  | tlsGd
  | tlsLdm
  | tlsGotdesc
  | tlsDescCall
  | other
  deriving DecidableEq

/-- The types that may follow `R_386_TLS_GD` and `R_386_TLS_LDM`. -/
def RelType.isCall : RelType → Bool
  | .plt32 | .pc32 | .got32 | .got32x => true
  | _ => false

def RelType.isPair : RelType → Bool
  | .tlsGd | .tlsLdm => true
  | _ => false

structure Rel (σ : Type*) where
  rOffset : ℕ
  rType : RelType
  rSym : σ
  deriving DecidableEq

structure Symbol where
  isImported : Bool
  isAbsolute : Bool
  isIfunc : Bool
  /-- `sym.get_addr(ctx)` -/
  addr : BitVec 32
  /-- `sym.get_got_idx(ctx) * sizeof(Word<E>)` -/
  gotOffset : BitVec 32
  tlsgdAddr : BitVec 32
  tlsdescAddr : BitVec 32

structure Section (σ : Type*) where
  addr : BitVec 32
  contents : Memory
  groups : List (List (Rel σ))
  wellFormed : ∀ g ∈ groups, (∃ rel, g = [rel] ∧ rel.rType.isPair = false) ∨
    ∃ rel call, g = [rel, call] ∧ rel.rType.isPair = true ∧ call.rType.isCall = true

def Section.rels {σ : Type*} (s : Section σ) : List (Rel σ) := s.groups.flatten

/-- What `scan_relocations` asks for: `NEEDS_GOT`, `NEEDS_TLSGD`, `NEEDS_TLSDESC` of a symbol,
and `needs_tlsld`. -/
inductive Entry (σ : Type*) where
  | got (sym : σ)
  | tlsgd (sym : σ)
  | tlsdesc (sym : σ)
  | tlsld
  deriving DecidableEq

/-- The options, the addresses and the sections of a link.  No address is the GOT's if it is
zero. -/
structure Link (σ : Type*) where
  isStatic : Bool
  relax : Bool
  shared : Bool
  symbols : σ → Symbol
  GOT : BitVec 32
  tpAddr : BitVec 32
  tlsBegin : BitVec 32
  tlsldAddr : BitVec 32
  /-- The cases of the other types. -/
  otherCase : Rel σ → Memory → Memory
  sections : List (Section σ)
  got_ne_zero : GOT ≠ 0

/-! ## Helpers -/

def relaxGot32x (mem : Memory) (loc : ℕ) : ℕ :=
  if mem loc = 0x8b then 0x8d00 ||| (mem (loc + 1)).val else 0

/-- `get_tls_relax_prefix` -/
def tlsRelaxPrefix : RelType → Option ℕ
  | .plt32 | .pc32 => some 3
  | .got32 | .got32x => some 2
  | _ => Option.none

/-- `*(ul32 *)loc = val` -/
def set32 (mem : Memory) (loc : ℕ) (val : BitVec 32) : Memory :=
  storeField .little 4 mem loc val.toNat

/-- `loc[0] = val` -/
def setByte (mem : Memory) (loc val : ℕ) : Memory := storeBytes mem loc [Fin.ofNat 256 val]

def relaxGdToLe (mem : Memory) (loc : ℕ) (val : BitVec 32) : RelType → Option Memory
  | .plt32 | .pc32 =>
    some (set32 (storeBytes mem (loc - 3)
      [0x65, 0xa1, 0, 0, 0, 0, 0x81, 0xc0, 0, 0, 0, 0]) (loc + 5) val)
  | .got32 | .got32x =>
    some (set32 (storeBytes mem (loc - 2)
      [0x65, 0xa1, 0, 0, 0, 0, 0x81, 0xc0, 0, 0, 0, 0]) (loc + 6) val)
  | _ => Option.none

def relaxLdToLe (mem : Memory) (loc : ℕ) (val : BitVec 32) : RelType → Option Memory
  | .plt32 | .pc32 =>
    some (set32 (storeBytes mem (loc - 2)
      [0x65, 0xa1, 0, 0, 0, 0, 0x2d, 0, 0, 0, 0]) (loc + 5) val)
  | .got32 | .got32x =>
    some (set32 (storeBytes mem (loc - 2)
      [0x65, 0xa1, 0, 0, 0, 0, 0x2d, 0, 0, 0, 0, 0x90]) (loc + 5) val)
  | _ => Option.none

section Loop

variable {σ α : Type*}

/-- A loop over relocations, whose body may skip the next one. -/
def relLoop (step : Rel σ → Option RelType → α → Option (α × Bool)) :
    Bool → List (Rel σ) → α → Option α
  | _, [], a => some a
  | true, _ :: rels, a => relLoop step false rels a
  | false, rel :: rels, a =>
    (step rel (rels.head?.map Rel.rType) a).bind fun r => relLoop step r.2 rels r.1

end Loop

section Scan

variable {σ : Type*}

def checkRelaxPrefix (rel : Rel σ) (n : ℕ) : Option Unit :=
  if rel.rOffset < n then Option.none else some ()

/-- Whether `R_386_TLS_GD` is relaxed, and `relax_tlsdesc`. -/
def Link.relaxTls (L : Link σ) (sym : Symbol) : Bool :=
  L.isStatic || (L.relax && !L.shared && !sym.isImported)

/-- Whether `R_386_TLS_LDM` is relaxed. -/
def Link.relaxLdm (L : Link σ) : Bool := L.isStatic || (L.relax && !L.shared)

def doRelax (contents : Memory) (rel : Rel σ) (sym : Symbol) : Bool :=
  decide (2 ≤ rel.rOffset) && !sym.isImported && !sym.isAbsolute &&
    relaxGot32x contents (rel.rOffset - 2) != 0

/-- The cases of `R_386_TLS_GD` and `R_386_TLS_LDM`. -/
def scanPair (rel : Rel σ) (next : Option RelType) (relaxes : Bool) (entry : Entry σ)
    (asks : List (Entry σ)) : Option (List (Entry σ) × Bool) :=
  next.bind fun ty =>
    if ty.isCall then
      if relaxes then
        (tlsRelaxPrefix ty).bind fun n => (checkRelaxPrefix rel n).map fun _ => (asks, true)
      else some (asks ++ [entry], false)
    else Option.none

/-- The body of `scan_relocations`: what is asked for, and whether the next relocation is
skipped. -/
def Link.scanStep (L : Link σ) (contents : Memory) (rel : Rel σ) (next : Option RelType)
    (asks : List (Entry σ)) : Option (List (Entry σ) × Bool) :=
  let sym := L.symbols rel.rSym
  let asks := if rel.rType ≠ .none ∧ sym.isIfunc then asks ++ [.got rel.rSym] else asks
  match rel.rType with
  | .none | .pc32 | .plt32 | .tlsDescCall | .other => some (asks, false)
  | .got32 | .gotpc => some (asks ++ [.got rel.rSym], false)
  | .got32x => some (if doRelax contents rel sym then asks else asks ++ [.got rel.rSym], false)
  | .tlsGd => scanPair rel next (L.relaxTls sym) (.tlsgd rel.rSym) asks
  | .tlsLdm => scanPair rel next L.relaxLdm .tlsld asks
  | .tlsGotdesc =>
    if L.relaxTls sym then (checkRelaxPrefix rel 2).map fun _ => (asks, false)
    else some (asks ++ [.tlsdesc rel.rSym], false)

def Link.scanGroup (L : Link σ) (contents : Memory) (g : List (Rel σ))
    (asks : List (Entry σ)) : Option (List (Entry σ)) :=
  relLoop (L.scanStep contents) false g asks

def Link.asks (L : Link σ) : List (Entry σ) :=
  L.sections.flatMap fun s => s.groups.flatMap fun g => (L.scanGroup s.contents g []).getD []

end Scan

section Apply

variable {σ : Type*} [DecidableEq σ]

/-- `has_got`, `has_tlsgd`, `has_tlsdesc` and `has_tlsld` -/
def Link.has (L : Link σ) (entry : Entry σ) : Bool := decide (entry ∈ L.asks)

/-- The cases of `R_386_TLS_GD` and `R_386_TLS_LDM` that rewrite a sequence. -/
def applyPair (rel : Rel σ) (next : Option RelType) (rewrite : RelType → Option Memory) :
    Option (Memory × Bool) :=
  next.bind fun ty => (tlsRelaxPrefix ty).bind fun n =>
    (checkRelaxPrefix rel n).bind fun _ => (rewrite ty).map fun mem => (mem, true)

/-- The body of `apply_reloc_alloc`. -/
def Link.applyStep (L : Link σ) (s : Section σ) (rel : Rel σ) (next : Option RelType)
    (mem : Memory) : Option (Memory × Bool) :=
  let sym := L.symbols rel.rSym
  let loc := rel.rOffset
  let S := sym.addr
  let A := BitVec.ofNat 32 (loadField .little 4 s.contents loc)
  let P := s.addr + BitVec.ofNat 32 loc
  match rel.rType with
  | .none => some (mem, false)
  | .pc32 | .plt32 => some (set32 mem loc (S + A - P), false)
  | .got32 => some (set32 mem loc (sym.gotOffset + A), false)
  | .got32x =>
    if L.has (.got rel.rSym) then some (set32 mem loc (sym.gotOffset + A), false)
    else
      (checkRelaxPrefix rel 2).bind fun _ =>
        let insn := relaxGot32x mem (loc - 2)
        if insn = 0 then Option.none
        else
          let mem := setByte mem (loc - 2) (insn >>> 8)
          let mem := setByte mem (loc - 1) insn
          some (set32 mem loc (S + A - L.GOT), false)
  | .gotpc => some (set32 mem loc (L.GOT + A - P), false)
  | .tlsGd =>
    if L.has (.tlsgd rel.rSym) then some (set32 mem loc (sym.tlsgdAddr + A - L.GOT), false)
    else applyPair rel next (relaxGdToLe mem loc (S - L.tpAddr))
  | .tlsLdm =>
    if L.has .tlsld then some (set32 mem loc (L.tlsldAddr + A - L.GOT), false)
    else applyPair rel next (relaxLdToLe mem loc (L.tpAddr - L.tlsBegin))
  | .tlsGotdesc =>
    if L.has (.tlsdesc rel.rSym) then some (set32 mem loc (sym.tlsdescAddr + A - L.GOT), false)
    else
      (checkRelaxPrefix rel 2).map fun _ =>
        (set32 (storeBytes mem (loc - 2) [0x8d, 0x05, 0, 0, 0, 0]) loc (S + A - L.tpAddr), false)
  | .tlsDescCall =>
    if L.has (.tlsdesc rel.rSym) then some (mem, false)
    else some (setByte (setByte mem loc 0x66) (loc + 1) 0x90, false)
  | .other => some (L.otherCase rel mem, false)

def Link.applyGroup (L : Link σ) (s : Section σ) (g : List (Rel σ)) (mem : Memory) :
    Option Memory :=
  relLoop (L.applyStep s) false g mem

end Apply

/-! ## Sequences -/

/-- A load from the GOT, and the sequences of the models of thread-local storage: general and
local dynamic ones with a call through the PLT or a call through the GOT, and those with a
descriptor, whose call may be somewhere else. -/
inductive Sequence where
  | load (base : Option BaseReg) (dst : Reg)
  | gdDirect (plt : Bool)
  | gdIndirect (base : BaseReg) (x : Bool)
  | ldDirect (plt : Bool)
  | ldIndirect (base : BaseReg) (x : Bool)
  | desc (base : BaseReg) (call : ℕ)

def directType (plt : Bool) : RelType := if plt then .plt32 else .pc32

def indirectType (x : Bool) : RelType := if x then .got32x else .got32

def Sequence.parts (off : ℕ) : Sequence → List (ℕ × List Byte)
  | .load base dst => [(off, 0x8b :: modRM dst base :: le32 0)]
  | .gdDirect _ => [(off, 0x8d :: 0x04 :: 0x1d :: (le32 0 ++ 0xe8 :: le32 (-4)))]
  | .gdIndirect base _ =>
    [(off, 0x8d :: modRM 0 (some base) :: (le32 0 ++ 0xff :: modRM 2 (some base) :: le32 0))]
  | .ldDirect _ => [(off, 0x8d :: 0x83 :: (le32 0 ++ 0xe8 :: le32 (-4)))]
  | .ldIndirect base _ =>
    [(off, 0x8d :: modRM 0 (some base) :: (le32 0 ++ 0xff :: modRM 2 (some base) :: le32 0))]
  | .desc base call => [(off, 0x8d :: modRM 0 (some base) :: le32 0), (call, [0xff, 0x10])]

section Sequence

variable {σ : Type*}

def Sequence.groups (sym callee : σ) (off : ℕ) : Sequence → List (List (Rel σ))
  | .load _ _ => [[⟨off + 2, .got32x, sym⟩]]
  | .gdDirect plt => [[⟨off + 3, .tlsGd, sym⟩, ⟨off + 8, directType plt, callee⟩]]
  | .gdIndirect _ x => [[⟨off + 2, .tlsGd, sym⟩, ⟨off + 8, indirectType x, callee⟩]]
  | .ldDirect plt => [[⟨off + 2, .tlsLdm, sym⟩, ⟨off + 7, directType plt, callee⟩]]
  | .ldIndirect _ x => [[⟨off + 2, .tlsLdm, sym⟩, ⟨off + 8, indirectType x, callee⟩]]
  | .desc _ call => [[⟨off + 2, .tlsGotdesc, sym⟩], [⟨call, .tlsDescCall, sym⟩]]

def Sequence.entry (sym : σ) : Sequence → Entry σ
  | .load _ _ => .got sym
  | .gdDirect _ | .gdIndirect _ _ => .tlsgd sym
  | .ldDirect _ | .ldIndirect _ _ => .tlsld
  | .desc _ _ => .tlsdesc sym

def Sequence.Holds (seq : Sequence) (off : ℕ) (mem : Memory) : Prop :=
  ∀ part ∈ seq.parts off, loadBytes mem part.1 part.2.length = part.2

def Sequence.code (seq : Sequence) (off : ℕ) (mem : Memory) : List Byte :=
  (seq.parts off).flatMap fun part => loadBytes mem part.1 part.2.length

structure Sequence.At (seq : Sequence) (L : Link σ) (s : Section σ) (sym callee : σ)
    (off : ℕ) : Prop where
  mem_sections : s ∈ L.sections
  groups : ∀ g ∈ seq.groups sym callee off, g ∈ s.groups
  holds : seq.Holds off s.contents
  apart : ∀ base call, seq = .desc base call → off + 6 ≤ call ∨ call + 2 ≤ off

/-- Some code computes what a sequence is for.  A base register has the address of the GOT,
whose entry has the address of the symbol, in an image that may have been moved. -/
def Sequence.Computes (L : Link σ) (sym : σ) (code : List Byte) : Sequence → Prop
  | .load base dst => ∀ (m : Machine) (regs : Regs) (loadBase addr : BitVec 32),
      (∀ r, base = some r → regs r = L.GOT + loadBase) → (base = none → loadBase = 0) →
      ((L.symbols sym).isImported = false → (L.symbols sym).isAbsolute = false →
        addr = (L.symbols sym).addr + loadBase) →
      m.load (L.GOT + loadBase + (L.symbols sym).gotOffset) = addr →
        run m code regs = some (Function.update regs dst addr)
  | .gdDirect _ | .gdIndirect _ _ => ∀ (m : Machine) (regs : Regs),
      run m code regs = some (Function.update regs 0 (m.gs 0 + ((L.symbols sym).addr - L.tpAddr)))
  | .ldDirect _ | .ldIndirect _ _ => ∀ (m : Machine) (regs : Regs),
      run m code regs = some (Function.update regs 0 (m.gs 0 + (L.tlsBegin - L.tpAddr)))
  | .desc _ _ => ∀ (m : Machine) (regs : Regs),
      run m code regs = some (Function.update regs 0 ((L.symbols sym).addr - L.tpAddr))

variable [DecidableEq σ]

/-- `scan_relocations` and `apply_reloc_alloc` accept a sequence and treat it in one way, no
other byte changes, and the sequence computes its value where it is rewritten. -/
def Sequence.Correct (seq : Sequence) (L : Link σ) (s : Section σ) (sym callee : σ)
    (off : ℕ) : Prop :=
  ∃ asks, (seq.groups sym callee off).foldlM (fun a g => L.scanGroup s.contents g a) [] =
      some asks ∧
    (seq.entry sym ∈ asks ↔ L.has (seq.entry sym) = true) ∧
    ∀ mem, seq.Holds off mem →
      ∃ mem', (seq.groups sym callee off).foldlM (fun m g => L.applyGroup s g m) mem = some mem' ∧
        (∀ k, (∀ part ∈ seq.parts off, k < part.1 ∨ part.1 + part.2.length ≤ k) → mem' k = mem k) ∧
        (seq.entry sym = .got sym ∨ L.has (seq.entry sym) = false →
          seq.Computes L sym (seq.code off mem'))

end Sequence

end Mold.Elf.I386
