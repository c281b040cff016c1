import Mold.Elf.ThunkPlacement
import Mold.Lib.Displacement

/-!
# Branches and their thunks

`isReachable` models the test of `thunks.cc` by which the scan of relocations decides that a
branch needs no thunk.  `applyRelocAlloc` models, for each target with thunks, what its
`apply_reloc_alloc` does with a branch: it calls `get_thunk_addr`, or it writes a displacement
of its own into the branch.
-/

namespace Mold.Elf.Thunks

open Mold.Lib

/-- The targets with `needs_thunk`. -/
inductive Target where
  | arm64
  | arm32
  | ppc32
  | ppc64v1
  | ppc64v2

def maxDistance : Target → ℕ
  | .arm64 => 2 ^ 27
  | .arm32 => 2 ^ 24
  | .ppc32 | .ppc64v1 | .ppc64v2 => 2 ^ 25

inductive RelType where
  | aarch64Jump26
  | aarch64Call26
  | armJump24
  | armThmJump24
  | armCall
  | armThmCall
  | armPlt32
  | ppcRel24
  | ppcPltRel24
  | ppcLocal24Pc
  | ppc64Rel24
  | ppc64Rel24NoToc
  | other
  deriving DecidableEq

def needsThunkRel : Target → RelType → Bool
  | .arm64, .aarch64Jump26 | .arm64, .aarch64Call26 => true
  | .arm32, .armJump24 | .arm32, .armThmJump24 | .arm32, .armCall | .arm32, .armThmCall
  | .arm32, .armPlt32 => true
  | .ppc32, .ppcRel24 | .ppc32, .ppcPltRel24 | .ppc32, .ppcLocal24Pc => true
  | .ppc64v1, .ppc64Rel24 | .ppc64v1, .ppc64Rel24NoToc => true
  | .ppc64v2, .ppc64Rel24 | .ppc64v2, .ppc64Rel24NoToc => true
  | _, _ => false

/-- What is read of a relocation.  The addend is that of `get_addend`. -/
structure Rel where
  type : RelType
  offset : BitVec 64
  addend : BitVec 64

/-- What is read of a symbol.  `member` is its input section if that is one of the same output
section, and `elsewhere` numbers the address that it has otherwise or in the PLT. -/
structure BranchSym where
  member : Option ℕ
  value : BitVec 64
  hasPlt : Bool
  elsewhere : ℕ
  isRemainingUndefWeak : Bool
  ppcLocalEntry : ℕ
  localEntry : ppcLocalEntry ≤ 7
  undef : isRemainingUndefWeak = true → member = none

structure Layout where
  shAddr : BitVec 64
  offsets : ℕ → UInt32
  elsewhere : ℕ → BitVec 64

/-- `InputSection::get_addr` -/
def Layout.isecAddr (st : Layout) (k : ℕ) : BitVec 64 :=
  st.shAddr + BitVec.ofNat 64 (st.offsets k).toNat

/-- `Symbol::get_addr` -/
def Layout.getAddr (st : Layout) (sym : BranchSym) : BitVec 64 :=
  match sym.member with
  | none => st.elsewhere sym.elsewhere
  | some l => if sym.hasPlt then st.elsewhere sym.elsewhere else st.isecAddr l + sym.value

/-- The distance `S + A - P` from a branch in section `k` to its symbol. -/
def Layout.distance (st : Layout) (k : ℕ) (sym : BranchSym) (rel : Rel) : BitVec 64 :=
  st.getAddr sym + rel.addend - (st.isecAddr k + rel.offset)

def Layout.isThumb (st : Layout) (sym : BranchSym) : Bool :=
  (st.getAddr sym).getLsbD 0

/-- A jump that is no call does not change the mode of the processor. -/
def keepsMode : Target → RelType → Bool → Bool
  | .arm32, .armThmJump24, isThumb => isThumb
  | .arm32, .armJump24, isThumb => !isThumb
  | .arm32, .armPlt32, isThumb => !isThumb
  | _, _, _ => true

/-- A caller and its callee agree on the register `r2`: `preserves_r2` and `uses_toc`. -/
def keepsToc : Target → RelType → ℕ → Bool
  | .ppc64v2, .ppc64Rel24, localEntry => localEntry ≠ 1
  | .ppc64v2, .ppc64Rel24NoToc, localEntry => localEntry ≤ 1
  | _, _, _ => true

def InReach (t : Target) (val : BitVec 64) : Prop :=
  -(maxDistance t : ℤ) ≤ val.toInt ∧ val.toInt < maxDistance t

instance (t : Target) (val : BitVec 64) : Decidable (InReach t val) :=
  inferInstanceAs (Decidable (_ ∧ _))

def isReachable (t : Target) (st : Layout) (k : ℕ) (sym : BranchSym) (rel : Rel) : Bool :=
  match sym.member with
  | none => false
  | some l =>
    !sym.hasPlt && decide (st.offsets l ≠ unplaced) &&
      keepsMode t rel.type (st.isThumb sym) && keepsToc t rel.type sym.ppcLocalEntry &&
      decide (InReach t (st.distance k sym rel))

/-! ## Applying relocations -/

inductive Branch where
  /-- It becomes an instruction without effect. -/
  | nop
  /-- It gets a displacement, in a field that ends at bit `hi`. -/
  | direct (hi : ℕ) (val : BitVec 64)
  /-- It goes through `get_thunk_addr`. -/
  | thunk
  deriving DecidableEq

/-- `is_jump_reachable` of ARM32 -/
def isJumpReachable (val : BitVec 64) : Bool :=
  signExtend val 24 = val

def applyArm64 (ty : RelType) (undefWeak : Bool) (val : BitVec 64) : Option Branch :=
  match ty with
  | .aarch64Jump26 | .aarch64Call26 =>
    if undefWeak then
      some .nop
    else if val.toInt < -(2 ^ 27) ∨ 2 ^ 27 ≤ val.toInt then
      some .thunk
    else
      some (.direct 27 val)
  | _ => none

def applyArm32 (ty : RelType) (undefWeak isThumb : Bool) (val : BitVec 64) : Option Branch :=
  match ty with
  | .armThmCall =>
    if undefWeak then
      some .nop
    else if isJumpReachable val then
      -- `BL` to Thumb code, `BLX` to ARM code
      if isThumb then some (.direct 24 val) else some (.direct 24 (alignToFour val))
    else
      some .thunk
  | .armCall =>
    if undefWeak then
      some .nop
    else if isJumpReachable val then
      some (.direct 25 val)
    else
      some .thunk
  | .armJump24 =>
    if undefWeak then
      some .nop
    else if !isJumpReachable val || isThumb then
      some .thunk
    else
      some (.direct 25 val)
  | .armPlt32 =>
    if undefWeak then
      some .nop
    else if isThumb then
      some .thunk
    else
      some (.direct 25 val)
  | .armThmJump24 =>
    if undefWeak then
      some .nop
    else if !isJumpReachable val || !isThumb then
      some .thunk
    else
      some (.direct 24 val)
  | _ => none

/-- A displacement of a PowerPC branch, which must not be known to need a thunk. -/
def branchPpc (needsThunk : Bool) (val : BitVec 64) : Branch :=
  if needsThunk || signExtend val 25 ≠ val then .thunk else .direct 25 val

def applyPpc32 (ty : RelType) (hasPlt : Bool) (S A P : BitVec 64) : Option Branch :=
  match ty with
  | .ppcRel24 | .ppcLocal24Pc => some (branchPpc false (S + A - P))
  | .ppcPltRel24 => some (branchPpc hasPlt (S - P))
  | _ => none

def applyPpc64v1 (ty : RelType) (hasPlt : Bool) (val : BitVec 64) : Option Branch :=
  match ty with
  | .ppc64Rel24 => some (branchPpc hasPlt val)
  | _ => none

/-- `get_local_entry_offset`, which fails on the reserved value. -/
def getLocalEntryOffset (localEntry : ℕ) : Option (BitVec 64) :=
  if localEntry = 7 then
    none
  else if localEntry = 0 ∨ localEntry = 1 then
    some 0
  else
    some (1 <<< localEntry)

def applyPpc64v2 (ty : RelType) (hasPlt : Bool) (localEntry : ℕ) (S A P : BitVec 64) :
    Option Branch :=
  match ty with
  | .ppc64Rel24 =>
    if hasPlt || localEntry = 1 then
      some .thunk
    else
      (getLocalEntryOffset localEntry).map fun offset =>
        branchPpc false (S + offset + A - P)
  | .ppc64Rel24NoToc => some (branchPpc (hasPlt || 1 < localEntry) (S + A - P))
  | _ => none

/-- `apply_reloc_alloc` at a branch in section `k`.  It is `none` if the type is not a branch
that `scan_relocations` of the target accepts. -/
def applyRelocAlloc (t : Target) (st : Layout) (k : ℕ) (sym : BranchSym) (rel : Rel) :
    Option Branch :=
  let S := st.getAddr sym
  let A := rel.addend
  let P := st.isecAddr k + rel.offset
  match t with
  | .arm64 => applyArm64 rel.type sym.isRemainingUndefWeak (S + A - P)
  | .arm32 => applyArm32 rel.type sym.isRemainingUndefWeak (st.isThumb sym) (S + A - P)
  | .ppc32 => applyPpc32 rel.type sym.hasPlt S A P
  | .ppc64v1 => applyPpc64v1 rel.type sym.hasPlt (S + A - P)
  | .ppc64v2 => applyPpc64v2 rel.type sym.hasPlt sym.ppcLocalEntry S A P

/-- A displacement is one of the signed field that ends at bit `hi`. -/
def FitsField (hi : ℕ) (val : BitVec 64) : Prop :=
  -(2 : ℤ) ^ hi ≤ val.toInt ∧ val.toInt < (2 : ℤ) ^ hi

def Branch.Direct : Branch → Prop
  | .nop => True
  | .direct hi val => FitsField hi val
  | .thunk => False

structure Agrees (t : Target) (scan final : Layout) (k : ℕ) (sym : BranchSym) (rel : Rel) :
    Prop where
  thunk : applyRelocAlloc t final k sym rel = some .thunk →
    needsThunkRel t rel.type = true ∧ isReachable t scan k sym rel = false
  fits : isReachable t scan k sym rel = true → ∀ hi val,
    applyRelocAlloc t final k sym rel = some (.direct hi val) → FitsField hi val

end Mold.Elf.Thunks
