import Mold.Elf.ThunkBranches
import Mathlib.Tactic.IntervalCases
import Mathlib.Tactic.LinearCombination

/-!
# Thunks are requested where they are used

A branch whose target is within reach when it is scanned is a direct one at the end, up to the
ends of the range.  There `apply_reloc_alloc` computes something else than the scan does: PPC64
V2 adds the offset of the local entry, PPC32 leaves out the addend of a call through the PLT,
and ARM32 rounds the displacement of a `BLX` up to four.
-/

namespace Mold.Elf.Thunks

open Mold.Lib

variable {t : Target} {sym : BranchSym}

theorem needsThunkRel_of_thunk {st : Layout} {k : ℕ} {rel : Rel}
    (h : applyRelocAlloc t st k sym rel = some .thunk) : needsThunkRel t rel.type = true := by
  cases t <;> cases hty : rel.type <;>
    first
    | rfl
    | (simp only [applyRelocAlloc, hty] at h
       cases h)

theorem isReachable_iff {st : Layout} {k : ℕ} {rel : Rel} :
    isReachable t st k sym rel = true ↔ ∃ l, sym.member = some l ∧ sym.hasPlt = false ∧
      st.offsets l ≠ unplaced ∧ keepsMode t rel.type (st.isThumb sym) = true ∧
      keepsToc t rel.type sym.ppcLocalEntry = true ∧ InReach t (st.distance k sym rel) := by
  rw [isReachable]
  cases sym.member with
  | none => exact ⟨nofun, fun ⟨_, h, _⟩ => nomatch h⟩
  | some l =>
    simp only [Bool.and_eq_true, Bool.not_eq_true', decide_eq_true_eq, Option.some.injEq,
      exists_eq_left', and_assoc]

/-- The branches that `apply_reloc_alloc` makes of what is within reach are direct ones. -/
def Directs (branch : Option Branch) : Prop :=
  ∀ b, branch = some b → b.Direct

@[simp] theorem directs_some {b : Branch} : Directs (some b) ↔ b.Direct :=
  ⟨fun h => h b rfl, fun h _ hb => Option.some.inj hb ▸ h⟩

@[simp] theorem directs_none : Directs none := fun _ h => nomatch h

theorem agrees_iff {scan final : Layout} {k : ℕ} {rel : Rel} :
    Agrees t scan final k sym rel ↔
      (isReachable t scan k sym rel = true → Directs (applyRelocAlloc t final k sym rel)) := by
  constructor
  · intro h hreach b hb
    cases b with
    | nop => trivial
    | direct hi val => exact h.fits hreach hi val hb
    | thunk => exact absurd hreach (Bool.eq_false_iff.mp (h.thunk hb).2)
  · intro h
    constructor
    · refine fun hthunk => ⟨needsThunkRel_of_thunk hthunk, Bool.eq_false_iff.mpr fun hreach => ?_⟩
      exact h hreach _ hthunk
    · exact fun hreach hi val hdirect => h hreach _ hdirect

/-! ## Displacements at the ends of the range -/

def EndsAgree (t : Target) (scan final : Layout) (k : ℕ) (sym : BranchSym) (rel : Rel) : Prop :=
  match t, rel.type with
  | .arm32, .armThmCall =>
    final.isThumb sym = false → (final.distance k sym rel).toInt ≤ 2 ^ 24 - 4
  | .arm32, .armJump24 | .arm32, .armPlt32 | .arm32, .armThmJump24 =>
    final.isThumb sym = scan.isThumb sym
  | .ppc32, .ppcPltRel24 =>
    FitsField 25 (final.getAddr sym - (final.isecAddr k + rel.offset))
  | .ppc64v2, .ppc64Rel24 =>
    ∀ offset, getLocalEntryOffset sym.ppcLocalEntry = some offset →
      (final.distance k sym rel).toInt + offset.toInt < 2 ^ 25
  | _, _ => True

variable {val : BitVec 64}

theorem direct_branchPpc : (branchPpc false val).Direct ↔ FitsField 25 val := by
  rw [branchPpc, Bool.false_or]
  by_cases h : signExtend val 25 = val
  · rw [if_neg (by simpa using h)]
    exact Iff.rfl
  · rw [if_pos (by simpa using h)]
    exact ⟨False.elim, fun hfits => h ((signExtend_eq_iff (by decide)).mpr hfits)⟩

theorem isJumpReachable_iff : isJumpReachable val = true ↔ InReach .arm32 val := by
  rw [isJumpReachable, decide_eq_true_eq, signExtend_eq_iff (by decide)]
  exact Iff.rfl

theorem fitsField_of_inReach {hi : ℕ}
    (hle : maxDistance t ≤ 2 ^ hi) (h : InReach t val) : FitsField hi val := by
  have hle' : (maxDistance t : ℤ) ≤ 2 ^ hi := by exact_mod_cast hle
  exact ⟨Int.le_trans (Int.neg_le_neg hle') h.1, Int.lt_of_lt_of_le h.2 hle'⟩

theorem fitsField_alignToFour (h : InReach .arm32 val) :
    FitsField 24 (alignToFour val) ↔ val.toInt ≤ 2 ^ 24 - 4 := by
  have hlo : -(2 ^ 24 : ℤ) ≤ val.toInt := h.1
  have hhi : val.toInt < 2 ^ 24 := h.2
  rw [FitsField, toInt_alignToFour (by omega) (by omega)]
  omega

theorem getLocalEntryOffset_bounds {localEntry : ℕ} {offset : BitVec 64} (hle : localEntry ≤ 7)
    (h : getLocalEntryOffset localEntry = some offset) :
    0 ≤ offset.toInt ∧ offset.toInt ≤ 64 := by
  interval_cases localEntry <;> cases h <;> decide

theorem fitsField_add_offset {val offset : BitVec 64} (hreach : InReach .ppc64v2 val)
    (hoff : 0 ≤ offset.toInt ∧ offset.toInt ≤ 64) :
    FitsField 25 (val + offset) ↔ val.toInt + offset.toInt < 2 ^ 25 := by
  have hlo : -(2 ^ 25 : ℤ) ≤ val.toInt := hreach.1
  have hhi : val.toInt < 2 ^ 25 := hreach.2
  rw [FitsField, BitVec.toInt_add, Int.bmod_eq_of_le (by push_cast; omega) (by push_cast; omega)]
  omega

/-! ## One branch -/

section

variable {scan final : Layout} {k : ℕ} {sym : BranchSym} {rel : Rel}

theorem directs_arm64 (hweak : sym.isRemainingUndefWeak = false)
    (hreach : InReach .arm64 (final.distance k sym rel)) :
    Directs (applyRelocAlloc .arm64 final k sym rel) := by
  have hlo : -(2 ^ 27 : ℤ) ≤ (final.distance k sym rel).toInt := hreach.1
  have hhi : (final.distance k sym rel).toInt < 2 ^ 27 := hreach.2
  have hrange : ¬((final.distance k sym rel).toInt < -(2 ^ 27) ∨
      2 ^ 27 ≤ (final.distance k sym rel).toInt) := by omega
  change Directs (applyArm64 rel.type sym.isRemainingUndefWeak (final.distance k sym rel))
  rw [applyArm64.eq_def, hweak]
  split
  case h_1 | h_2 =>
    rw [if_neg Bool.false_ne_true, if_neg hrange]
    exact directs_some.mpr (fitsField_of_inReach (Nat.le_refl _) hreach)
  · exact directs_none

theorem directs_arm32_iff (hweak : sym.isRemainingUndefWeak = false)
    (hmode : keepsMode .arm32 rel.type (scan.isThumb sym) = true)
    (hreach : InReach .arm32 (final.distance k sym rel)) :
    Directs (applyRelocAlloc .arm32 final k sym rel) ↔ EndsAgree .arm32 scan final k sym rel := by
  have hjump := isJumpReachable_iff.mpr hreach
  have hfits : ∀ hi, maxDistance .arm32 ≤ 2 ^ hi → FitsField hi (final.distance k sym rel) :=
    fun hi hle => fitsField_of_inReach hle hreach
  change Directs (applyArm32 rel.type sym.isRemainingUndefWeak (final.isThumb sym)
    (final.distance k sym rel)) ↔ _
  cases hty : rel.type <;> simp only [hty, keepsMode, Bool.not_eq_true'] at hmode
  case armThmCall =>
    simp only [applyArm32, EndsAgree, hty, hweak, hjump, Bool.false_eq_true, if_true, if_false]
    cases final.isThumb sym with
    | true =>
      rw [if_pos rfl, directs_some]
      exact ⟨fun _ h => (nomatch h), fun _ => hfits 24 (Nat.le_refl _)⟩
    | false =>
      rw [if_neg Bool.false_ne_true, directs_some]
      exact (fitsField_alignToFour hreach).trans ⟨fun h _ => h, fun h => h rfl⟩
  case armCall =>
    simp only [applyArm32, EndsAgree, hty, hweak, hjump, Bool.false_eq_true, if_true, if_false,
      directs_some, iff_true]
    exact hfits 25 (by decide)
  case armJump24 | armPlt32 =>
    simp only [applyArm32, EndsAgree, hty, hweak, hjump, hmode, Bool.false_eq_true, if_false,
      Bool.not_true, Bool.false_or]
    cases final.isThumb sym with
    | true => exact ⟨fun h => (directs_some.mp h).elim, fun h => nomatch h⟩
    | false => exact ⟨fun _ => rfl, fun _ => directs_some.mpr (hfits 25 (by decide))⟩
  case armThmJump24 =>
    simp only [applyArm32, EndsAgree, hty, hweak, hjump, hmode, Bool.false_eq_true, if_false,
      Bool.not_true, Bool.false_or]
    cases final.isThumb sym with
    | true => exact ⟨fun _ => rfl, fun _ => directs_some.mpr (hfits 24 (Nat.le_refl _))⟩
    | false => exact ⟨fun h => (directs_some.mp h).elim, fun h => nomatch h⟩
  all_goals simp only [applyArm32, EndsAgree, hty, directs_none]

theorem directs_ppc32_iff (hplt : sym.hasPlt = false)
    (hreach : InReach .ppc32 (final.distance k sym rel)) :
    Directs (applyRelocAlloc .ppc32 final k sym rel) ↔ EndsAgree .ppc32 scan final k sym rel := by
  change Directs (applyPpc32 rel.type sym.hasPlt (final.getAddr sym) rel.addend
    (final.isecAddr k + rel.offset)) ↔ _
  cases hty : rel.type
  case ppcRel24 | ppcLocal24Pc =>
    simp only [applyPpc32, EndsAgree, hty, directs_some, direct_branchPpc, iff_true]
    exact fitsField_of_inReach (t := .ppc32) (Nat.le_refl _) hreach
  case ppcPltRel24 =>
    simp only [applyPpc32, EndsAgree, hty, hplt, directs_some, direct_branchPpc]
  all_goals simp only [applyPpc32, EndsAgree, hty, directs_none]

theorem directs_ppc64v1 (hplt : sym.hasPlt = false)
    (hreach : InReach .ppc64v1 (final.distance k sym rel)) :
    Directs (applyRelocAlloc .ppc64v1 final k sym rel) := by
  change Directs (applyPpc64v1 rel.type sym.hasPlt (final.distance k sym rel))
  rw [applyPpc64v1.eq_def, hplt]
  split
  · rw [directs_some, direct_branchPpc]
    exact fitsField_of_inReach (t := .ppc64v1) (Nat.le_refl _) hreach
  · exact directs_none

theorem directs_ppc64v2_iff (hplt : sym.hasPlt = false)
    (htoc : keepsToc .ppc64v2 rel.type sym.ppcLocalEntry = true)
    (hreach : InReach .ppc64v2 (final.distance k sym rel)) :
    Directs (applyRelocAlloc .ppc64v2 final k sym rel) ↔
      EndsAgree .ppc64v2 scan final k sym rel := by
  change Directs (applyPpc64v2 rel.type sym.hasPlt sym.ppcLocalEntry (final.getAddr sym)
    rel.addend (final.isecAddr k + rel.offset)) ↔ _
  cases hty : rel.type <;> simp only [hty, keepsToc, decide_eq_true_eq] at htoc
  case ppc64Rel24 =>
    simp only [applyPpc64v2, EndsAgree, hty, hplt, htoc, Bool.false_or, decide_false,
      Bool.false_eq_true, if_false]
    cases hoff : getLocalEntryOffset sym.ppcLocalEntry with
    | none => exact ⟨fun _ _ h => (nomatch h), fun _ => directs_none⟩
    | some offset =>
      have hadd : final.getAddr sym + offset + rel.addend - (final.isecAddr k + rel.offset) =
          final.distance k sym rel + offset := by
        rw [Layout.distance]
        ring
      rw [Option.map_some, directs_some, direct_branchPpc, hadd,
        fitsField_add_offset hreach (getLocalEntryOffset_bounds sym.localEntry hoff)]
      exact ⟨fun h _ heq => Option.some.inj heq ▸ h, fun h => h offset rfl⟩
  case ppc64Rel24NoToc =>
    have hle : decide (1 < sym.ppcLocalEntry) = false :=
      decide_eq_false (Nat.not_lt_of_le htoc)
    simp only [applyPpc64v2, EndsAgree, hty, hplt, hle, Bool.false_or, directs_some,
      direct_branchPpc, iff_true]
    exact fitsField_of_inReach (t := .ppc64v2) (Nat.le_refl _) hreach
  all_goals simp only [applyPpc64v2, EndsAgree, hty, directs_none]

theorem distance_eq (rel : Rel) {l : ℕ} (hmember : sym.member = some l) (hplt : sym.hasPlt = false)
    (hoff : (final.offsets l).toNat + (scan.offsets k).toNat =
      (scan.offsets l).toNat + (final.offsets k).toNat) :
    scan.distance k sym rel = final.distance k sym rel := by
  have hword := congrArg (BitVec.ofNat 64) hoff
  rw [BitVec.ofNat_add, BitVec.ofNat_add] at hword
  simp only [Layout.distance, Layout.getAddr, Layout.isecAddr, hmember, hplt,
    Bool.false_eq_true, if_false]
  linear_combination -hword

def Meets (t : Target) (scan final : Layout) (k : ℕ) (sym : BranchSym) (rel : Rel) : Prop :=
  ∀ l, sym.member = some l → sym.hasPlt = false → scan.offsets l ≠ unplaced →
    keepsMode t rel.type (scan.isThumb sym) = true →
    keepsToc t rel.type sym.ppcLocalEntry = true →
    InReach t (final.distance k sym rel) → EndsAgree t scan final k sym rel

theorem directs_iff {l : ℕ} (hmember : sym.member = some l)
    (hplt : sym.hasPlt = false) (hmode : keepsMode t rel.type (scan.isThumb sym) = true)
    (htoc : keepsToc t rel.type sym.ppcLocalEntry = true)
    (hreach : InReach t (final.distance k sym rel)) :
    Directs (applyRelocAlloc t final k sym rel) ↔ EndsAgree t scan final k sym rel := by
  have hweak : sym.isRemainingUndefWeak = false := by
    refine Bool.eq_false_iff.mpr fun h => ?_
    rw [sym.undef h] at hmember
    cases hmember
  cases t with
  | arm64 => exact ⟨fun _ => trivial, fun _ => directs_arm64 hweak hreach⟩
  | arm32 => exact directs_arm32_iff hweak hmode hreach
  | ppc32 => exact directs_ppc32_iff hplt hreach
  | ppc64v1 => exact ⟨fun _ => trivial, fun _ => directs_ppc64v1 hplt hreach⟩
  | ppc64v2 => exact directs_ppc64v2_iff hplt htoc hreach

theorem agrees_iff_meets
    (hoff : ∀ l, scan.offsets l ≠ unplaced → (final.offsets l).toNat + (scan.offsets k).toNat =
      (scan.offsets l).toNat + (final.offsets k).toNat) :
    Agrees t scan final k sym rel ↔ Meets t scan final k sym rel := by
  rw [agrees_iff]
  constructor
  · intro h l hmember hplt hplaced hmode htoc hreach
    have hdist := distance_eq rel hmember hplt (hoff l hplaced)
    refine (directs_iff hmember hplt hmode htoc hreach).mp (h (isReachable_iff.mpr ?_))
    exact ⟨l, hmember, hplt, hplaced, hmode, htoc, hdist ▸ hreach⟩
  · intro h hreachable
    obtain ⟨l, hmember, hplt, hplaced, hmode, htoc, hreach⟩ := isReachable_iff.mp hreachable
    rw [distance_eq rel hmember hplt (hoff l hplaced)] at hreach
    exact (directs_iff hmember hplt hmode htoc hreach).mpr
      (h l hmember hplt hplaced hmode htoc hreach)

end

/-! ## All branches of an output section -/

def Placing.layout (st : Placing) (shAddr : BitVec 64) (elsewhere : ℕ → BitVec 64) : Layout where
  shAddr := shAddr
  offsets := st.offsets
  elsewhere := elsewhere

/-- Every section has a place, and the end is below 4 GiB by the reach of a branch. -/
structure Fits (maxDistance : ℕ) (m : List Member) (final : Placing) : Prop where
  placed : ∀ k < m.length, final.offsets k ≠ unplaced
  offset : final.offset + maxDistance < 2 ^ 32

theorem Fits.length_le {maxDistance : ℕ} {m : List Member} {final : Placing}
    (h : Fits maxDistance m final) (hfront : final.Front) (hm : 1 < m.length) :
    m.length ≤ final.d := by
  by_contra hlt
  have hlast : m.length - 1 < m.length := Nat.sub_lt (Nat.zero_lt_of_lt hm) Nat.one_pos
  refine h.placed (m.length - 1) hlast (hfront.behind _ ?_ (Nat.sub_ne_zero_of_lt hm))
  exact Nat.le_sub_one_of_lt (Nat.lt_of_not_le hlt)

theorem maxThunkSize_le_maxDistance (t : Target) : maxThunkSize ≤ maxDistance t := by
  cases t <;> decide

/-- In each output section every section is scanned, and the scan of a branch agrees with what
is done with it exactly if the ends of its range do. -/
theorem scans_agree_iff (t : Target) (m : List Member) (thunkSize : ℕ → ℕ)
    (hfits : Fits (maxDistance t) m (createRangeExtensionThunks (maxDistance t) m thunkSize).2) :
    ∀ k < m.length,
      (∃ scan ∈ (createRangeExtensionThunks (maxDistance t) m thunkSize).1,
        scan.b ≤ k ∧ k < scan.c) ∧
      ∀ scan ∈ (createRangeExtensionThunks (maxDistance t) m thunkSize).1,
        scan.b ≤ k → k < scan.c → ∀ early late elsewhere elsewhere' sym rel,
          Agrees t (scan.placing.layout early elsewhere)
              ((createRangeExtensionThunks (maxDistance t) m thunkSize).2.layout late elsewhere')
              k sym rel ↔
            Meets t (scan.placing.layout early elsewhere)
              ((createRangeExtensionThunks (maxDistance t) m thunkSize).2.layout late elsewhere')
              k sym rel := by
  intro k hk
  refine ⟨exists_scan (Nat.le_add_left _ _) k (Nat.zero_le k) hk, ?_⟩
  intro scan hscan hb hc early late elsewhere elsewhere' sym rel
  have hsees := sees_of_mem_scans (maxThunkSize_le_maxDistance t) Placing.Front.initial
    (hfits.length_le (grows_placeBatches _ _ _ _ _ _ Placing.Front.initial).1) hfits.offset
    scan hscan
  exact agrees_iff_meets fun l hl => hsees.distance hb hc hl

/-- A function of 16 bytes in front of one that is too large for a branch over it. -/
def exampleMembers : List Member := [⟨16, 2⟩, ⟨33554496, 4⟩]

/-- A function at an offset of the second section, whose local entry is 8 bytes behind. -/
def exampleSym (value : BitVec 64) : BranchSym where
  member := some 1
  value := value
  hasPlt := false
  elsewhere := 0
  isRemainingUndefWeak := false
  ppcLocalEntry := 3
  localEntry := by decide
  undef := nofun

def exampleRel : Rel := ⟨.ppc64Rel24, 0, 0⟩

theorem fits_exampleMembers : Fits (maxDistance .ppc64v2) exampleMembers
    (createRangeExtensionThunks (maxDistance .ppc64v2) exampleMembers fun _ => 16).2 where
  placed := by decide
  offset := by decide

/-- A call over 32 MiB - 16 bytes is direct. -/
theorem scans_agree_example :
    ∃ scan ∈ (createRangeExtensionThunks (maxDistance .ppc64v2) exampleMembers fun _ => 16).1,
      scan.b ≤ 1 ∧ 1 < scan.c ∧
        Agrees .ppc64v2 (scan.placing.layout 0 fun _ => 0)
          ((createRangeExtensionThunks (maxDistance .ppc64v2) exampleMembers
            fun _ => 16).2.layout 0x10000000 fun _ => 0)
          1 (exampleSym 0x1fffff0) exampleRel := by
  obtain ⟨scan, hscan, hb, hc⟩ : ∃ scan ∈
      (createRangeExtensionThunks (maxDistance .ppc64v2) exampleMembers fun _ => 16).1,
      scan.b ≤ 1 ∧ 1 < scan.c := by
    decide
  refine ⟨scan, hscan, hb, hc, ?_⟩
  refine ((scans_agree_iff .ppc64v2 exampleMembers (fun _ => 16) fits_exampleMembers 1
    (by decide)).2 scan hscan hb hc 0 0x10000000 (fun _ => 0) (fun _ => 0)
    (exampleSym 0x1fffff0) exampleRel).mpr fun l _ _ _ _ _ _ => ?_
  intro offset hoffset
  obtain rfl := Option.some.inj hoffset
  decide

/-- A call over 32 MiB - 4 bytes goes through a thunk that no scan has asked for. -/
theorem not_scans_agree_example :
    ¬ ∀ scan ∈ (createRangeExtensionThunks (maxDistance .ppc64v2) exampleMembers
        fun _ => 16).1,
      scan.b ≤ 1 → 1 < scan.c →
        Agrees .ppc64v2 (scan.placing.layout 0 fun _ => 0)
          ((createRangeExtensionThunks (maxDistance .ppc64v2) exampleMembers
            fun _ => 16).2.layout 0x10000000 fun _ => 0)
          1 (exampleSym 0x1fffffc) exampleRel := by
  intro h
  obtain ⟨scan, hscan, hb, hc, hreach⟩ : ∃ scan ∈
      (createRangeExtensionThunks (maxDistance .ppc64v2) exampleMembers fun _ => 16).1,
      scan.b ≤ 1 ∧ 1 < scan.c ∧ isReachable .ppc64v2 (scan.placing.layout 0 fun _ => 0) 1
        (exampleSym 0x1fffffc) exampleRel = true := by
    decide
  have hthunk := ((h scan hscan hb hc).thunk (by decide)).2
  rw [hreach] at hthunk
  cases hthunk

end Mold.Elf.Thunks
