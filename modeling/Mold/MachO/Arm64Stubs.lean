import Mold.Lib.A64

/-!
# Synthetic code for ARM64

The code that the linker writes itself on ARM64 and ARM64_32: `__stubs`, the
header and the entries of `__stub_helper`, `__objc_stubs` and the range
extension thunks.  Each `copyBuf` gives the 32-bit words that the method of
the source writes from the start of its section.
-/

namespace Mold.MachO.Arm64

open Mold.Lib.A64

def page (val : ℕ) : ℕ := val &&& 0xffff_ffff_ffff_f000

/-- Bits `hi` to `lo` of a value. -/
def bits (val hi lo : ℕ) : ℕ := (val >>> lo) &&& (2 ^ (hi - lo + 1) - 1)

def pageOffset (hi lo : ℕ) : ℕ :=
  let val := (page hi + 2 ^ 64 - page lo) % 2 ^ 64
  (bits val 13 12 <<< 29) ||| (bits val 32 14 <<< 5)

/-! ## Sections -/

/-- The output address of a symbol and its index in the global offset table. -/
structure Symbol where
  addr : ℕ
  gotIdx : ℕ
  deriving DecidableEq, Repr

/-- A thunk at an offset of an output section, with the addresses of its
symbols. -/
structure RangeExtensionThunk where
  outputSection : ℕ
  offset : ℕ
  symbols : List ℕ
  deriving DecidableEq, Repr

/-- Sections are given by their addresses.  `stubHelper` and `lazySymbolPtr`
are absent under chained fixups; `selrefs` holds the addresses of the selector
references, one for each method name. -/
structure Context where
  isArm64_32 : Bool
  got : ℕ
  lazySymbolPtr : Option ℕ
  stubs : ℕ
  stubSyms : List Symbol
  stubHelper : Option ℕ
  bindOffsets : List ℕ
  dyldPrivate : Symbol
  dyldStubBinder : Symbol
  objcStubs : ℕ
  selrefs : List ℕ
  objcMsgSend : Symbol
  thunks : List RangeExtensionThunk
  deriving DecidableEq, Repr

namespace Context

variable (ctx : Context)

/-- The size of a pointer, `sizeof(Word<E>)`. -/
def wordSize : ℕ := if ctx.isArm64_32 then 4 else 8

def getGotAddr (sym : Symbol) : ℕ := ctx.got + sym.gotIdx * ctx.wordSize

/-- Rewrites a load of eight bytes to one of four. -/
def to32 (loc : ℕ) : ℕ :=
  if ctx.isArm64_32 then (loc &&& 0x3fff_ffff) ||| 0x8000_0000 else loc

/-- Where stub `i` finds the address that it jumps to. -/
def ptrAddr (i : ℕ) (sym : Symbol) : ℕ :=
  match ctx.lazySymbolPtr with
  | some addr => addr + ctx.wordSize * i
  | none => ctx.getGotAddr sym

def stubEntry (entry : Symbol × ℕ) : List ℕ :=
  let thisAddr := ctx.stubs + 12 * entry.2
  let ptr := ctx.ptrAddr entry.2 entry.1
  [0x9000_0010 ||| pageOffset ptr thisAddr, -- adrp x16, $ptr
    ctx.to32 0xf940_0210 ||| bits ptr 11 3 <<< 10, -- ldr  x16, [x16, $ptr]
    0xd61f_0200] -- br   x16

/-- `StubsSection::copy_buf`. -/
def stubsCopyBuf : List ℕ := ctx.stubSyms.zipIdx.flatMap ctx.stubEntry

def subAddr (addr n : ℕ) : ℕ :=
  let width := if ctx.isArm64_32 then 32 else 64
  (addr + 2 ^ width - n) % 2 ^ width

def stubHelperHeader (addr : ℕ) : List ℕ :=
  let dyldPrivate := ctx.dyldPrivate.addr
  let stubBinder := ctx.getGotAddr ctx.dyldStubBinder
  [0x9000_0011 ||| pageOffset dyldPrivate addr, -- adrp x17, $__dyld_private
    0x9100_0231 ||| bits dyldPrivate 11 0 <<< 10, -- add  x17, x17, $__dyld_private
    0xa9bf_47f0, -- stp  x16, x17, [sp, #-16]!
    0x9000_0010 ||| pageOffset stubBinder (ctx.subAddr addr 12), -- adrp x16, $dyld_stub_binder
    ctx.to32 0xf940_0210 ||| bits stubBinder 11 0 <<< 10, -- ldr  x16, [x16, $dyld_stub_binder]
    0xd61f_0200] -- br   x16

def stubHelperEntry (i : ℕ) : List ℕ :=
  let disp := ((-(6 + 3 * i) - 1) * 4 : ℤ)
  [0x1800_0050, -- ldr  w16, addr
    0x1400_0000 ||| bits (disp % 2 ^ 64).toNat 27 2, -- b    stubHelperHeader
    ctx.bindOffsets.getD i 0] -- addr: .long <idx>

/-- `StubHelperSection::copy_buf`. -/
def stubHelperCopyBuf (addr : ℕ) : List ℕ :=
  ctx.stubHelperHeader addr ++ (List.range ctx.stubSyms.length).flatMap ctx.stubHelperEntry

def objcStubEntry (entry : ℕ × ℕ) : List ℕ :=
  let msgsendGotAddr := ctx.getGotAddr ctx.objcMsgSend
  let selAddr := entry.1
  let entAddr := ctx.objcStubs + 32 * entry.2
  [0x9000_0001 ||| pageOffset selAddr entAddr, -- adrp  x1, @selector("foo")
    ctx.to32 0xf940_0021 ||| bits selAddr 11 3 <<< 10, -- ldr   x1, [x1, @selector("foo")]
    0x9000_0010 ||| pageOffset msgsendGotAddr (entAddr + 8), -- adrp  x16, _objc_msgSend
    ctx.to32 0xf940_0210 ||| bits msgsendGotAddr 11 3 <<< 10, -- ldr   x16, [x16, _objc_msgSend]
    0xd61f_0200, -- br    x16
    0xd420_0020, 0xd420_0020, 0xd420_0020] -- brk   #0x1

/-- `ObjcStubsSection::copy_buf`. -/
def objcStubsCopyBuf : List ℕ := ctx.selrefs.zipIdx.flatMap ctx.objcStubEntry

end Context

namespace RangeExtensionThunk

variable (thunk : RangeExtensionThunk)

def addr : ℕ := thunk.outputSection + thunk.offset

def entry (entry : ℕ × ℕ) : List ℕ :=
  let pc := thunk.outputSection + thunk.offset + entry.2 * 12
  [0x9000_0010 ||| pageOffset entry.1 pc, -- adrp x16, 0
    0x9100_0210 ||| bits entry.1 11 0 <<< 10, -- add  x16, x16
    0xd61f_0200] -- br   x16

/-- `RangeExtensionThunk::copy_buf`. -/
def copyBuf : List ℕ := thunk.symbols.zipIdx.flatMap thunk.entry

end RangeExtensionThunk

/-- What a pair is to leave in its register: an address, or the word at an
address. -/
inductive Target where
  | address (a : ℕ)
  | slot (a : ℕ)

def Target.value (load : ℕ → ℕ → ℕ) (wordSize : ℕ) : Target → ℕ
  | address a => a
  | slot a => load wordSize a

/-- Executing words `k` and `k + 1` of a section at `addr` leaves the target
in register `r` and changes no other register, whatever memory holds. -/
def Leaves (wordSize addr : ℕ) (words : List ℕ) (k r : ℕ) (target : Target) : Prop :=
  ∀ (load : ℕ → ℕ → ℕ) (s : State), s.pc = addr + 4 * k →
    run load s ((words.drop k).take 2) =
      some ⟨s.pc + 8, Function.update s.reg r (target.value load wordSize)⟩

namespace Context

variable (ctx : Context)

/-- Every pair of the synthetic code computes the address that it is for. -/
structure Materialises : Prop where
  stub : ∀ i sym, ctx.stubSyms[i]? = some sym →
    Leaves ctx.wordSize ctx.stubs ctx.stubsCopyBuf (3 * i) 16 (.slot (ctx.ptrAddr i sym))
  dyldPrivate : ∀ addr, ctx.stubHelper = some addr →
    Leaves ctx.wordSize addr (ctx.stubHelperCopyBuf addr) 0 17 (.address ctx.dyldPrivate.addr)
  stubBinder : ∀ addr, ctx.stubHelper = some addr →
    Leaves ctx.wordSize addr (ctx.stubHelperCopyBuf addr) 3 16
      (.slot (ctx.getGotAddr ctx.dyldStubBinder))
  selector : ∀ (i : ℕ) sel, ctx.selrefs[i]? = some sel →
    Leaves ctx.wordSize ctx.objcStubs ctx.objcStubsCopyBuf (8 * i) 1 (.slot sel)
  msgSend : ∀ (i : ℕ) sel, ctx.selrefs[i]? = some sel →
    Leaves ctx.wordSize ctx.objcStubs ctx.objcStubsCopyBuf (8 * i + 2) 16
      (.slot (ctx.getGotAddr ctx.objcMsgSend))
  thunk : ∀ thunk ∈ ctx.thunks, ∀ (i : ℕ) addr, thunk.symbols[i]? = some addr →
    Leaves ctx.wordSize thunk.addr thunk.copyBuf (3 * i) 16 (.address addr)

/-- A placement with the alignments of the sections, in which every pair
reaches its target. -/
structure Placed : Prop where
  got : 8 ∣ ctx.got
  lazySymbolPtr : ∀ addr, ctx.lazySymbolPtr = some addr → 8 ∣ addr
  stubHelper : ∀ addr, ctx.stubHelper = some addr →
    16 ∣ addr ∧ (ctx.isArm64_32 = true → addr < 2 ^ 32)
  selrefs : ∀ sel ∈ ctx.selrefs, ctx.wordSize ∣ sel
  stub : ∀ i sym, ctx.stubSyms[i]? = some sym → Near (ctx.stubs + 12 * i) (ctx.ptrAddr i sym)
  dyldPrivate : ∀ addr, ctx.stubHelper = some addr → Near addr ctx.dyldPrivate.addr
  stubBinder : ∀ addr, ctx.stubHelper = some addr →
    Near (addr + 12) (ctx.getGotAddr ctx.dyldStubBinder)
  selector : ∀ (i : ℕ) sel, ctx.selrefs[i]? = some sel → Near (ctx.objcStubs + 32 * i) sel
  msgSend : ∀ (i : ℕ) sel, ctx.selrefs[i]? = some sel →
    Near (ctx.objcStubs + 32 * i + 8) (ctx.getGotAddr ctx.objcMsgSend)
  thunk : ∀ thunk ∈ ctx.thunks, ∀ (i : ℕ) addr, thunk.symbols[i]? = some addr →
    Near (thunk.addr + i * 12) addr

/-- The stub helper does not start a page, the slot of the stub binder does,
and on ARM64_32 so does every slot that a stub loads from. -/
structure Safe : Prop where
  stubHelper : ∀ addr, ctx.stubHelper = some addr →
    ¬4096 ∣ addr ∧ 4096 ∣ ctx.getGotAddr ctx.dyldStubBinder
  stub : ctx.isArm64_32 = true → ∀ i sym, ctx.stubSyms[i]? = some sym → 4096 ∣ ctx.ptrAddr i sym
  objcStub : ctx.isArm64_32 = true → ∀ sel ∈ ctx.selrefs,
    4096 ∣ sel ∧ 4096 ∣ ctx.getGotAddr ctx.objcMsgSend

end Context

end Mold.MachO.Arm64
