import Mathlib.Data.Nat.Size
import Mold.Lib.Displacement
import Mold.Lib.LittleEndian
import Mold.Lib.Rv64

/-!
# Shrinking RISC-V sections

`shrink_section` goes over the relocations of a section and decides how many bytes are
deleted at each of them.  `R_RISCV_ALIGN` marks a sequence of NOPs, of which just as many
are to be left as it takes to align the next instruction.  Other relocations may shorten
the instructions they refer to.

The addresses are those before any section has shrunk.  A section stays at a multiple of
its alignment, so what is aligned relative to the old address is aligned relative to the new
one.

An assembler makes the NOPs long enough for every place an instruction may be at.  In a file
without compressed instructions these are the multiples of four; but if another file of the
link has such instructions, a call may shrink by six bytes here too.
-/

namespace Mold.Elf.RiscvShrink

open Mold.Lib

/-! ## The link -/

/-- The relocations that `shrink_section` tells apart, without the prefix `R_RISCV_`. -/
inductive RelType where
  | align
  | call
  | callPlt
  | hi20
  | tprelHi20
  | tprelAdd
  | relax
  | other
  deriving DecidableEq

structure Sym where
  isInternal : Bool
  isAbsolute : Bool
  isUndefWeak : Bool
  addr : ℤ

/-- `ElfRel` with its symbol. -/
structure Rel where
  type : RelType
  offset : ℕ
  addend : ℤ
  sym : Sym

/-- `InputSection`, whose relocations are sorted and which has been placed. -/
structure Section where
  isAlive : Bool
  isAlloc : Bool
  isExec : Bool
  addr : ℤ
  p2align : ℕ
  contents : List Byte
  rels : List Rel
  sorted : rels.Pairwise fun r s => r.offset ≤ s.offset
  aligned : (2 : ℤ) ^ p2align ∣ addr

structure ObjectFile where
  name : String
  isInternal : Bool
  eFlags : UInt32
  sections : List Section

/-- The parts of `Context` that are read. -/
structure Context where
  objs : List ObjectFile
  relax : Bool
  is64 : Bool
  tpAddr : ℤ

def efRvc : UInt32 := 1

def efFloatAbi : UInt32 := 6

def efRve : UInt32 := 8

/-- The loop of `get_eflags`: the flags and the errors. -/
def mergeEflags (first : ObjectFile) (acc : UInt32 × List String) (file : ObjectFile) :
    UInt32 × List String :=
  let ret := if file.eFlags &&& efRvc ≠ 0 then acc.1 ||| efRvc else acc.1
  let errors := acc.2 ++
    if file.eFlags &&& efFloatAbi ≠ ret &&& efFloatAbi then
      [file.name ++ ": cannot link object files with different floating-point ABI from " ++
        first.name]
    else []
  let errors := errors ++
    if file.eFlags &&& efRve ≠ ret &&& efRve then
      [file.name ++ ": cannot link object files with different EF_RISCV_RVE from " ++
        first.name]
    else []
  (ret, errors)

def getEflags (ctx : Context) : UInt32 × List String :=
  match ctx.objs.filter fun file => !file.isInternal with
  | [] => (0, [])
  | first :: files => files.foldl (mergeEflags first) (first.eFlags, [])

def useRvc (ctx : Context) : Bool := (getEflags ctx).1 &&& efRvc != 0

def isResizable (isec : Section) : Bool := isec.isAlive && isec.isAlloc && isec.isExec

/-! ## Numbers -/

/-- `bit_ceil` of `common.h` -/
def bitCeil (val : ℕ) : ℕ := if 2 ^ val.log2 = val then val else 2 ^ val.size

/-- `align_to` of `common.h` -/
def alignTo (val : ℤ) (align : ℕ) : ℤ := (val + align - 1) / align * align

/-- `sign_extend(val, size) == val` -/
def fits (val : ℤ) (size : ℕ) : Bool :=
  signExtend (BitVec.ofInt 64 val) size == BitVec.ofInt 64 val

section Shrink

variable (ctx : Context) (isec : Section)

def computeDistance (rel : Rel) : ℤ :=
  if rel.sym.isAbsolute then 2 ^ 31 - 1
  else if rel.sym.isUndefWeak then 2 ^ 31 - 1
  else rel.sym.addr + rel.addend - (isec.addr + rel.offset)

/-- The register `rd` of the instruction at an offset. -/
def getRd (offset : ℕ) : ℕ := Rv64.rd (readLe ((isec.contents.drop offset).take 4))

def callBytes (rel : Rel) : ℤ :=
  if computeDistance isec rel % 2 = 1 then 0
  else if getRd isec (rel.offset + 4) = 0 ∧ fits (computeDistance isec rel) 11 ∧ useRvc ctx then
    6
  else if getRd isec (rel.offset + 4) = 1 ∧ fits (computeDistance isec rel) 11 ∧ useRvc ctx ∧
      !ctx.is64 then
    6
  else if fits (computeDistance isec rel) 20 then 4
  else 0

/-- The bytes that are deleted at a relocation other than `R_RISCV_ALIGN`, where `next` is
the type of the relocation behind it. -/
def relaxedBytes (rel : Rel) (next : Option RelType) : ℤ :=
  if !ctx.relax || next ≠ some .relax then 0
  else if rel.sym.isInternal then 0
  else
    match rel.type with
    | .call | .callPlt => callBytes ctx isec rel
    | .hi20 => if fits (rel.sym.addr + rel.addend) 11 then 4 else 0
    | .tprelHi20 | .tprelAdd =>
      if fits (rel.sym.addr + rel.addend - ctx.tpAddr) 11 then 4 else 0
    | _ => 0

/-- The alignment of `R_RISCV_ALIGN`. -/
def Rel.alignment (rel : Rel) : ℕ := bitCeil ((rel.addend + 1) % 2 ^ 64).toNat

/-- Where the relocated place is if `delta` bytes have been deleted before it. -/
def placeOf (rel : Rel) (delta : ℤ) : ℤ := isec.addr + rel.offset - delta

def removedBytes (delta : ℤ) (rel : Rel) (next : Option RelType) : ℤ :=
  if rel.type = .align then
    let loc := placeOf isec rel delta
    let nextLoc := loc + rel.addend
    nextLoc - alignTo loc rel.alignment
  else relaxedBytes ctx isec rel next

/-- The loop of `shrink_section`. -/
def shrinkFrom : ℤ → List Rel → List ℤ
  | delta, [] => [delta]
  | delta, rel :: rels =>
    delta :: shrinkFrom (delta + removedBytes ctx isec delta rel (rels.head?.map Rel.type)) rels

/-- `r_deltas` after `shrink_section` -/
def rDeltas : List ℤ := shrinkFrom ctx isec 0 isec.rels

def rDelta (i : ℕ) : ℤ := (rDeltas ctx isec).getD i 0

end Shrink

section Deltas

variable {ctx : Context} {isec : Section}

theorem length_shrinkFrom (delta : ℤ) (rels : List Rel) :
    (shrinkFrom ctx isec delta rels).length = rels.length + 1 := by
  induction rels generalizing delta with
  | nil => rfl
  | cons rel rels ih => rw [shrinkFrom, List.length_cons, ih, List.length_cons]

theorem getD_shrinkFrom_zero (delta : ℤ) (rels : List Rel) :
    (shrinkFrom ctx isec delta rels).getD 0 0 = delta := by
  cases rels <;> rfl

theorem getD_shrinkFrom_succ {delta : ℤ} {rels : List Rel} {i : ℕ} {rel : Rel}
    (h : rels[i]? = some rel) :
    (shrinkFrom ctx isec delta rels).getD (i + 1) 0 =
      (shrinkFrom ctx isec delta rels).getD i 0 +
        removedBytes ctx isec ((shrinkFrom ctx isec delta rels).getD i 0) rel
          (rels[i + 1]?.map Rel.type) := by
  induction rels generalizing delta i with
  | nil => exact absurd h (by simp)
  | cons first rels ih =>
    cases i with
    | zero =>
      obtain rfl : first = rel := by simpa using h
      rw [shrinkFrom, List.getD_cons_succ, List.getD_cons_zero, getD_shrinkFrom_zero,
        List.getElem?_cons_succ, List.head?_eq_getElem?]
    | succ i =>
      rw [List.getElem?_cons_succ] at h
      rw [shrinkFrom, List.getD_cons_succ, List.getD_cons_succ, List.getElem?_cons_succ]
      exact ih h

theorem rDelta_zero : rDelta ctx isec 0 = 0 := getD_shrinkFrom_zero 0 isec.rels

theorem rDelta_succ {i : ℕ} {rel : Rel} (h : isec.rels[i]? = some rel) :
    rDelta ctx isec (i + 1) = rDelta ctx isec i +
      removedBytes ctx isec (rDelta ctx isec i) rel (isec.rels[i + 1]?.map Rel.type) :=
  getD_shrinkFrom_succ h

theorem callBytes_mem (rel : Rel) :
    callBytes ctx isec rel = 0 ∨ callBytes ctx isec rel = 4 ∨
      callBytes ctx isec rel = 6 ∧ useRvc ctx = true := by
  unfold callBytes
  split_ifs with hodd hjump hcall hnear
  · exact Or.inl rfl
  · exact Or.inr (Or.inr ⟨rfl, hjump.2.2⟩)
  · exact Or.inr (Or.inr ⟨rfl, hcall.2.2.1⟩)
  · exact Or.inr (Or.inl rfl)
  · exact Or.inl rfl

theorem relaxedBytes_mem (rel : Rel) (next : Option RelType) :
    relaxedBytes ctx isec rel next = 0 ∨ relaxedBytes ctx isec rel next = 4 ∨
      relaxedBytes ctx isec rel next = 6 ∧ useRvc ctx = true := by
  have hfour : ∀ c : Bool, (if c then 4 else 0 : ℤ) = 0 ∨ (if c then 4 else 0 : ℤ) = 4 ∨
      (if c then 4 else 0 : ℤ) = 6 ∧ useRvc ctx = true := by
    intro c
    cases c
    · exact Or.inl rfl
    · exact Or.inr (Or.inl rfl)
  unfold relaxedBytes
  by_cases hrelax : (!ctx.relax || decide (next ≠ some .relax)) = true
  · exact Or.inl (if_pos hrelax)
  rw [if_neg hrelax]
  by_cases hinternal : rel.sym.isInternal = true
  · exact Or.inl (if_pos hinternal)
  rw [if_neg hinternal]
  cases rel.type with
  | call => exact callBytes_mem rel
  | callPlt => exact callBytes_mem rel
  | hi20 => exact hfour _
  | tprelHi20 => exact hfour _
  | tprelAdd => exact hfour _
  | align => exact Or.inl rfl
  | relax => exact Or.inl rfl
  | other => exact Or.inl rfl

end Deltas

/-! ## Alignment -/

/-- The bytes from a place to the next multiple of an alignment. -/
def padding (loc : ℤ) (align : ℕ) : ℤ := alignTo loc align - loc

theorem bitCeil_pos (val : ℕ) : 0 < bitCeil val := by
  rw [bitCeil]
  split
  case isTrue h => exact h ▸ Nat.two_pow_pos _
  case isFalse h => exact Nat.two_pow_pos _

theorem dvd_alignTo (loc : ℤ) (align : ℕ) : (align : ℤ) ∣ alignTo loc align :=
  dvd_mul_left _ _

theorem padding_mem (loc : ℤ) {align : ℕ} (h : 0 < align) :
    0 ≤ padding loc align ∧ padding loc align < align := by
  have hpos : (0 : ℤ) < align := by omega
  have hdiv := Int.emod_add_mul_ediv (loc + align - 1) align
  have hlow := Int.emod_nonneg (loc + align - 1) hpos.ne'
  have hhigh := Int.emod_lt_of_pos (loc + align - 1) hpos
  rw [padding, alignTo, mul_comm]
  omega

/-- Every `R_RISCV_ALIGN` deletes some of its NOPs, the deltas never decrease, and wherever
the section ends up, the instruction behind the NOPs is aligned. -/
structure AlignsWell (ctx : Context) (isec : Section) : Prop where
  removed : ∀ i rel, isec.rels[i]? = some rel → rel.type = .align →
    0 ≤ rDelta ctx isec (i + 1) - rDelta ctx isec i ∧
      rDelta ctx isec (i + 1) - rDelta ctx isec i ≤ rel.addend
  monotone : ∀ i, i < isec.rels.length → rDelta ctx isec i ≤ rDelta ctx isec (i + 1)
  aligned : ∀ addr, (2 : ℤ) ^ isec.p2align ∣ addr → ∀ i rel, isec.rels[i]? = some rel →
    rel.type = .align →
      (rel.alignment : ℤ) ∣ addr + rel.offset + rel.addend - rDelta ctx isec (i + 1)

/-- Before each `R_RISCV_ALIGN`, its place is not farther from the next aligned one than the
NOPs reach, and its alignment is not larger than that of the section. -/
def Reaches (ctx : Context) (isec : Section) : Prop :=
  ∀ i rel, isec.rels[i]? = some rel → rel.type = .align →
    padding (placeOf isec rel (rDelta ctx isec i)) rel.alignment ≤ rel.addend ∧
      (rel.alignment : ℤ) ∣ 2 ^ isec.p2align

section Align

variable {ctx : Context} {isec : Section} {i : ℕ} {rel : Rel}

theorem rDelta_succ_of_align (h : isec.rels[i]? = some rel) (hrel : rel.type = .align) :
    rDelta ctx isec (i + 1) = rDelta ctx isec i +
      (rel.addend - padding (placeOf isec rel (rDelta ctx isec i)) rel.alignment) := by
  rw [rDelta_succ h, removedBytes, if_pos hrel, padding]
  ring

theorem rDelta_le_succ (h : isec.rels[i]? = some rel) (hrel : rel.type ≠ .align) :
    rDelta ctx isec i ≤ rDelta ctx isec (i + 1) := by
  have hmem := @relaxedBytes_mem ctx isec rel (isec.rels[i + 1]?.map Rel.type)
  rw [rDelta_succ h, removedBytes, if_neg hrel]
  omega

theorem addr_behind (h : isec.rels[i]? = some rel) (hrel : rel.type = .align) (addr : ℤ) :
    addr + rel.offset + rel.addend - rDelta ctx isec (i + 1) =
      alignTo (placeOf isec rel (rDelta ctx isec i)) rel.alignment + (addr - isec.addr) := by
  rw [rDelta_succ_of_align h hrel, padding, placeOf]
  ring

end Align

/-- For every link, every sorted list of relocations and every aligned placement: alignment
works exactly if the NOPs always reach. -/
theorem alignsWell_iff (ctx : Context) (isec : Section) :
    AlignsWell ctx isec ↔ Reaches ctx isec := by
  constructor
  · intro h i rel hi hrel
    have hremoved := (h.removed i rel hi hrel).1
    rw [rDelta_succ_of_align hi hrel] at hremoved
    refine ⟨by omega, ?_⟩
    -- The section may stay where it is, or move on by its own alignment.
    have hstay := h.aligned isec.addr isec.aligned i rel hi hrel
    have hmove := h.aligned (isec.addr + 2 ^ isec.p2align)
      (Int.dvd_add isec.aligned (dvd_refl _)) i rel hi hrel
    rw [addr_behind hi hrel] at hstay hmove
    have hdiff := Int.dvd_sub hmove hstay
    have hsub : alignTo (placeOf isec rel (rDelta ctx isec i)) rel.alignment +
          (isec.addr + 2 ^ isec.p2align - isec.addr) -
        (alignTo (placeOf isec rel (rDelta ctx isec i)) rel.alignment +
          (isec.addr - isec.addr)) = 2 ^ isec.p2align := by ring
    rwa [hsub] at hdiff
  · intro h
    refine ⟨fun i rel hi hrel => ?_, fun i hi => ?_, fun addr haddr i rel hi hrel => ?_⟩
    · have hpad := (h i rel hi hrel).1
      have hmem := padding_mem (placeOf isec rel (rDelta ctx isec i))
        (bitCeil_pos ((rel.addend + 1) % 2 ^ 64).toNat)
      rw [rDelta_succ_of_align hi hrel]
      rw [← Rel.alignment] at hmem
      omega
    · have hget := List.getElem?_eq_getElem hi
      by_cases hrel : isec.rels[i].type = .align
      · have hpad := (h i _ hget hrel).1
        rw [rDelta_succ_of_align hget hrel]
        omega
      · exact rDelta_le_succ hget hrel
    · rw [addr_behind hi hrel]
      have halign := (h i rel hi hrel).2
      exact Int.dvd_add (dvd_alignTo _ _) (halign.trans (Int.dvd_sub haddr isec.aligned))

/-- `auipc t1, 0; jalr zero, 0(t1); nop; nop`, with the target eight bytes behind the call
and then a place to be aligned to eight bytes. -/
def tailCall : Section where
  isAlive := true
  isAlloc := true
  isExec := true
  addr := 0x10000
  p2align := 3
  contents := [0x17, 3, 0, 0, 0x67, 0, 3, 0, 0x13, 0, 0, 0, 0x13, 0, 0, 0]
  rels :=
    [⟨.call, 0, 0, ⟨false, false, false, 0x1000C⟩⟩, ⟨.relax, 0, 0, ⟨false, true, false, 0⟩⟩,
      ⟨.align, 8, 4, ⟨false, true, false, 0⟩⟩]
  sorted := by decide
  aligned := by decide

/-- Two files, the first of which has compressed instructions. -/
def mixedLink : Context where
  objs := [⟨"a.o", false, 1, []⟩, ⟨"b.o", false, 0, [tailCall]⟩]
  relax := true
  is64 := true
  tpAddr := 0

/-- The `R_RISCV_ALIGN` would have to delete minus two bytes. -/
theorem not_alignsWell : ¬AlignsWell mixedLink tailCall := by
  intro h
  have hremoved := (h.removed 2 _ rfl rfl).1
  exact absurd hremoved (by decide)

end Mold.Elf.RiscvShrink
