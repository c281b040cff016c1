import Mold.MachO.DylibOrdinals
import Mold.Common.Leb128

/-!
# Lazy binding on x86-64

A stub jumps through its slot in `__la_symbol_ptr`.  The slot holds the address
of an entry of `__stub_helper`, which pushes an offset into the lazy binding
opcodes, and the opcodes at the offset tell the loader what to bind to the slot.
Five functions emit these parts, and each of them goes over the symbols with
stubs by itself.
-/

namespace Mold.MachO.LazyBinding

open Mold.Lib Mold.Lib.BitField Mold.Common Mold.MachO.Resolver

structure StubSymbol where
  name : List Byte
  isWeak : Bool
  file : Option FileRef
  name_nul : (0 : Byte) ∉ name

/-- What the emitters look at.  `compare_segments` puts at most `__TEXT` and
`__DATA_CONST` in front of `__DATA`, and `__la_symbol_ptr` is in `__DATA`. -/
structure Link where
  syms : List StubSymbol
  flatNamespace : Bool
  dylibIdx : ℕ → ℕ
  stubsAddr : ℕ
  stubHelperAddr : ℕ
  lazySymbolPtrAddr : ℕ
  dataVmaddr : ℕ
  dataSegIdx : ℕ
  dyldPrivateAddr : ℕ
  stubBinderGotAddr : ℕ
  dataSegIdx_lt : dataSegIdx < 16
  dataVmaddr_le : dataVmaddr ≤ lazySymbolPtrAddr

/-- A 64-bit difference of addresses, stored in 32 bits. -/
def rel32 (x : ℤ) : List Byte := le 4 (x % 2 ^ 32).toNat

namespace Link

variable (link : Link)

def getDylibIdx (sym : StubSymbol) : ℤ :=
  Resolver.getDylibIdx link.flatNamespace link.dylibIdx sym.file

def numbered : List (StubSymbol × ℕ) := link.syms.zipIdx

/-- `BIND_SYMBOL_FLAGS_WEAK_IMPORT` for a weak symbol. -/
def symbolFlags (sym : StubSymbol) : ℕ := if sym.isWeak then 1 else 0

/-- The offset in `__DATA` of the slot with the number `idx`. -/
def slotOffset (idx : ℕ) : ℕ := link.lazySymbolPtrAddr + idx * 8 - link.dataVmaddr

/-- What `LazyBindSection::add` appends. -/
def bindRecord (x : StubSymbol × ℕ) : List Byte :=
  ordinalOpcode (link.getDylibIdx x.1) ++
    Fin.ofNat 256 (0x40 ||| symbolFlags x.1) :: (x.1.name ++
      0 :: Fin.ofNat 256 (0x70 ||| link.dataSegIdx) ::
        (writeUleb (link.slotOffset x.2) ++ [0x90, 0]))

/-- The loop of `LazyBindSection::compute_size` with `bind_offsets` and
`contents`. -/
def bindLoop : List (StubSymbol × ℕ) → List ℕ × List Byte → List ℕ × List Byte
  | [], x => x
  | sym :: syms, (bindOffsets, contents) =>
    bindLoop syms (bindOffsets ++ [contents.length % 2 ^ 32], contents ++ link.bindRecord sym)

def bindOffsets : List ℕ := (link.bindLoop link.numbered ([], [])).1

/-- The contents of the section, filled up to a multiple of eight bytes. -/
def lazyBind : List Byte :=
  let contents := (link.bindLoop link.numbered ([], [])).2
  contents ++ List.replicate ((contents.length + 7) / 8 * 8 - contents.length) 0

/-- `StubsSection::copy_buf` for one stub: `jmp *imm(%rip)`. -/
def stub (x : StubSymbol × ℕ) : List Byte :=
  let thisAddr := link.stubsAddr + x.2 * 6
  let ptrAddr := link.lazySymbolPtrAddr + 8 * x.2
  [0xff, 0x25] ++ rel32 ((ptrAddr : ℤ) - thisAddr - 6)

/-- `StubsSection::copy_buf` -/
def stubs : List Byte := link.numbered.flatMap link.stub

/-- The code in front of the entries of `__stub_helper`. -/
def stubHelperHeader : List Byte :=
  [0x4c, 0x8d, 0x1d] ++ rel32 ((link.dyldPrivateAddr : ℤ) - link.stubHelperAddr - 7) ++
    [0x41, 0x53] ++
    [0xff, 0x25] ++ rel32 ((link.stubBinderGotAddr : ℤ) - link.stubHelperAddr - 15) ++
    [0x90]

/-- An entry of `__stub_helper`: push the offset and jump to the header. -/
def stubHelperEntry (x : StubSymbol × ℕ) : List Byte :=
  0x68 :: (le 4 (link.bindOffsets.getD x.2 0) ++ 0xe9 :: rel32 (-(16 + 10 * x.2 : ℤ) - 10))

/-- `StubHelperSection::copy_buf` -/
def stubHelper : List Byte :=
  link.stubHelperHeader ++ link.numbered.flatMap link.stubHelperEntry

/-- `LazySymbolPtrSection::copy_buf` -/
def lazySymbolPtr : List Byte :=
  link.numbered.flatMap fun x => le 8 (link.stubHelperAddr + 16 + 10 * x.2)

end Link

/-! ## What the processor and the loader do -/

/-- The address of the word that an indirect jump at `addr` goes through. -/
def jumpSlot (addr : ℕ) (code : List Byte) : Option ℤ :=
  if code.take 2 = [0xff, 0x25] then
    some ((addr + 6 + toSigned 32 (readLe ((code.drop 2).take 4))) % 2 ^ 64)
  else
    none

def pushed (code : List Byte) : Option ℤ :=
  if code.take 1 = [0x68] then some (toSigned 32 (readLe ((code.drop 1).take 4)))
  else none

structure BindState where
  ordinal : Option ℤ := none
  name : Option (List Byte) := none
  flags : ℕ := 0
  place : Option (ℕ × ℕ) := none
  deriving DecidableEq

def specialOrdinal (b : ℕ) : ℤ := if b % 16 = 0 then 0 else (b % 16 : ℕ) - 16

/-- Interpret lazy binding opcodes up to `BIND_OPCODE_DONE`. -/
def interpret : ℕ → BindState → List Byte → Option (List BindState)
  | 0, _, _ => none
  | _ + 1, _, [] => none
  | fuel + 1, st, b :: bytes =>
    match b.val / 16 with
    | 0 => some []
    | 1 => interpret fuel { st with ordinal := some (b.val % 16 : ℕ) } bytes
    | 2 =>
      match Uleb.decode bytes with
      | none => none
      | some (n, rest) => interpret fuel { st with ordinal := some (n : ℤ) } rest
    | 3 =>
      interpret fuel { st with ordinal := some (specialOrdinal b.val) } bytes
    | 4 =>
      interpret fuel
        { st with name := some (bytes.takeWhile (· ≠ 0)), flags := b.val % 16 }
        (bytes.dropWhile (· ≠ 0)).tail
    | 7 =>
      match Uleb.decode bytes with
      | none => none
      | some (n, rest) =>
        interpret fuel { st with place := some (b.val % 16, n) } rest
    | 9 => (interpret fuel st bytes).map (st :: ·)
    | _ => none

theorem interpret_done {fuel : ℕ} {st : BindState} {b : Byte} {bytes : List Byte}
    (h : b.val / 16 = 0) : interpret (fuel + 1) st (b :: bytes) = some [] := by
  simp only [interpret, h]

/-- Interpret the opcodes from an offset.  Every opcode has at least one byte. -/
def interpretAt (contents : List Byte) (offset : ℕ) : Option (List BindState) :=
  interpret (contents.drop offset).length {} (contents.drop offset)

namespace Link

variable (link : Link)

def recordOffset (i : ℕ) : ℕ := ((link.numbered.take i).flatMap link.bindRecord).length

/-- The parts that belong to the stub `i` of the symbol `sym` agree. -/
structure Agrees (i : ℕ) (sym : StubSymbol) : Prop where
  stub_jumps : jumpSlot (link.stubsAddr + 6 * i) ((link.stubs.drop (6 * i)).take 6) =
    some (((link.lazySymbolPtrAddr + 8 * i : ℕ) : ℤ) % 2 ^ 64)
  slot_holds : readLe ((link.lazySymbolPtr.drop (8 * i)).take 8) =
    (link.stubHelperAddr + (16 + 10 * i)) % 2 ^ 64
  offset_is : link.bindOffsets[i]? = some (link.recordOffset i)
  entry_pushes : pushed ((link.stubHelper.drop (16 + 10 * i)).take 10) =
    some (link.recordOffset i : ℤ)
  record_binds : interpretAt link.lazyBind (link.recordOffset i) =
    some [{ ordinal := some (link.getDylibIdx sym), name := some sym.name,
            flags := symbolFlags sym,
            place := some (link.dataSegIdx, link.slotOffset i) }]

def Agree : Prop := ∀ (i : ℕ) sym, link.syms[i]? = some sym → link.Agrees i sym

/-- The numbers that the parts of the stub `i` hold fit into their fields: the
distance of the slot into 32 bits, the offset into the positive immediate values,
and the number of the dylib into those that `get_dylib_idx` can return. -/
structure Fits (i : ℕ) (sym : StubSymbol) : Prop where
  reach : ∃ disp : ℤ, -2 ^ 31 ≤ disp ∧ disp < 2 ^ 31 ∧
    (link.stubsAddr + 6 * i + 6 + disp) % 2 ^ 64 = (link.lazySymbolPtrAddr + 8 * i) % 2 ^ 64
  offset_lt : link.recordOffset i < 2 ^ 31
  ordinal : -16 < link.getDylibIdx sym

end Link

end Mold.MachO.LazyBinding
