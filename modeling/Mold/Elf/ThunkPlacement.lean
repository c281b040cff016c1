import Mold.Lib.Layout
import Mathlib.Algebra.Order.Ring.Nat

/-!
# Placing sections and thunks

`createRangeExtensionThunks` models the cursors B, C and D of `create_range_extension_thunks`
of `thunks.cc`, which place the input sections of an output section and the thunks between
them.  Relocations are scanned for each batch of sections from B to C while the sections
behind D have no place yet.  The sizes of the thunks are those that scanning makes.
-/

namespace Mold.Elf.Thunks

open Mold.Lib

structure Member where
  size : ℕ
  p2align : ℕ

/-- The offset of a section that has no place yet. -/
def unplaced : UInt32 := 0xffffffff

def maxThunkSize : ℕ := 102400

/-- `RangeExtensionThunk::alignment` -/
def thunkAlignment : ℕ := 4

/-- The offsets of the sections, the cursor D and the end of what has a place. -/
structure Placing where
  offsets : ℕ → UInt32
  d : ℕ
  offset : ℕ

def Placing.initial : Placing where
  offsets := fun i => if i = 0 then 0 else unplaced
  d := 0
  offset := 0

def Placing.place (st : Placing) (isec : Member) : Placing where
  offsets := Function.update st.offsets st.d (UInt32.ofNat (alignUp (2 ^ isec.p2align) st.offset))
  d := st.d + 1
  offset := alignUp (2 ^ isec.p2align) st.offset + isec.size

/-- D moves as far as B can jump to anywhere in a thunk there. -/
def moveD (maxDistance : ℕ) (m : List Member) (b : ℕ) : ℕ → Placing → Placing
  | 0, st => st
  | fuel + 1, st =>
    match m[st.d]? with
    | none => st
    | some isec =>
      if alignUp (2 ^ isec.p2align) st.offset + isec.size + maxThunkSize <
          (st.offsets b).toNat + maxDistance then
        moveD maxDistance m b fuel (st.place isec)
      else
        st

def moveC (batchSize : ℕ) (m : List Member) (offsets : ℕ → UInt32) (b : ℕ) : ℕ → ℕ → ℕ
  | 0, c => c
  | fuel + 1, c =>
    match m[c]? with
    | none => c
    | some isec =>
      if (offsets c).toNat + isec.size < (offsets b).toNat + batchSize then
        moveC batchSize m offsets b fuel (c + 1)
      else
        c

/-- A scan of the relocations in the sections from `b` to `c`, and what has a place then. -/
structure Scan where
  b : ℕ
  c : ℕ
  placing : Placing

def placeBatches (maxDistance : ℕ) (m : List Member) (thunkSize : ℕ → ℕ) :
    ℕ → ℕ → ℕ → Placing → List Scan × Placing
  | 0, _, _, st => ([], st)
  | fuel + 1, thunkIdx, b, st =>
    if b < m.length then
      let st₁ := moveD maxDistance m b m.length st
      let c := moveC (maxDistance / 10) m st₁.offsets b m.length (b + 1)
      let st₂ := { st₁ with
        offset := alignUp thunkAlignment st₁.offset + thunkSize thunkIdx }
      let rest := placeBatches maxDistance m thunkSize fuel (thunkIdx + 1) c st₂
      ({ b := b, c := c, placing := st₁ } :: rest.1, rest.2)
    else
      ([], st)

/-- `create_range_extension_thunks`: the scans and the last offsets. -/
def createRangeExtensionThunks (maxDistance : ℕ) (m : List Member) (thunkSize : ℕ → ℕ) :
    List Scan × Placing :=
  placeBatches maxDistance m thunkSize m.length 0 0 .initial

/-! ## What has a place -/

/-- Sections behind D have no place, but for the first one at the beginning, and those in
front of it begin before the end. -/
structure Placing.Front (st : Placing) : Prop where
  behind : ∀ i, st.d ≤ i → i ≠ 0 → st.offsets i = unplaced
  below : ∀ i < st.d, (st.offsets i).toNat ≤ st.offset
  first : st.d = 0 → st.offsets 0 = 0

/-- Sections in front of D keep their places, and those that D passes end before the end. -/
structure Grows (m : List Member) (st later : Placing) : Prop where
  d : st.d ≤ later.d
  kept : ∀ i < st.d, later.offsets i = st.offsets i
  offset : st.offset ≤ later.offset
  passed : ∀ isec, m[st.d]? = some isec → st.d < later.d →
    alignUp (2 ^ isec.p2align) st.offset + isec.size ≤ later.offset

theorem Placing.Front.initial : Placing.initial.Front where
  behind _ _ hi := if_neg hi
  below i hi := absurd hi (Nat.not_lt_zero i)
  first _ := rfl

variable {st : Placing}

theorem Placing.Front.place (h : st.Front) (isec : Member) : (st.place isec).Front where
  behind i hi hi0 := by
    have hne : i ≠ st.d := Nat.ne_of_gt hi
    exact (Function.update_of_ne hne _ _).trans (h.behind i (Nat.le_of_succ_le hi) hi0)
  below i hi := by
    rcases Nat.lt_succ_iff_lt_or_eq.mp hi with hlt | rfl
    · have hle : st.offset ≤ (st.place isec).offset :=
        Nat.le_add_right_of_le (le_alignUp (Nat.two_pow_pos _) _)
      have heq : (st.place isec).offsets i = st.offsets i :=
        Function.update_of_ne (Nat.ne_of_lt hlt) _ _
      rw [heq]
      exact Nat.le_trans (h.below i hlt) hle
    · have heq : (st.place isec).offsets st.d =
          UInt32.ofNat (alignUp (2 ^ isec.p2align) st.offset) := Function.update_self _ _ _
      rw [heq, UInt32.toNat_ofNat']
      exact Nat.le_add_right_of_le (Nat.mod_le _ _)
  first hd := absurd hd (Nat.succ_ne_zero st.d)

theorem Placing.Front.of_le (h : st.Front) {offset : ℕ}
    (hle : st.offset ≤ offset) : ({ st with offset := offset } : Placing).Front where
  behind := h.behind
  below i hi := Nat.le_trans (h.below i hi) hle
  first := h.first

section

variable {maxDistance : ℕ} {m : List Member} {thunkSize : ℕ → ℕ}

theorem Grows.refl (st : Placing) : Grows m st st where
  d := Nat.le_refl _
  kept _ _ := rfl
  offset := Nat.le_refl _
  passed _ _ h := absurd h (Nat.lt_irrefl _)

theorem Grows.trans {st₁ st₂ st₃ : Placing} (h₁ : Grows m st₁ st₂) (h₂ : Grows m st₂ st₃) :
    Grows m st₁ st₃ where
  d := Nat.le_trans h₁.d h₂.d
  kept i hi := (h₂.kept i (Nat.lt_of_lt_of_le hi h₁.d)).trans (h₁.kept i hi)
  offset := Nat.le_trans h₁.offset h₂.offset
  passed isec hisec hlt := by
    rcases Nat.eq_or_lt_of_le h₁.d with heq | hpass
    · have hle := h₂.passed isec (heq ▸ hisec) (heq ▸ hlt)
      have hmono : alignUp (2 ^ isec.p2align) st₁.offset ≤
          alignUp (2 ^ isec.p2align) st₂.offset := alignUp_mono _ h₁.offset
      exact Nat.le_trans (Nat.add_le_add_right hmono _) hle
    · exact Nat.le_trans (h₁.passed isec hisec hpass) h₂.offset

theorem grows_place {isec : Member} (hisec : m[st.d]? = some isec) :
    Grows m st (st.place isec) where
  d := Nat.le_succ _
  kept i hi := Function.update_of_ne (Nat.ne_of_lt hi) _ _
  offset := Nat.le_add_right_of_le (le_alignUp (Nat.two_pow_pos _) _)
  passed isec' hisec' _ := by
    obtain rfl := Option.some.inj (hisec.symm.trans hisec')
    exact Nat.le_refl _

theorem grows_of_le {offset : ℕ} (hle : st.offset ≤ offset) :
    Grows m st { st with offset := offset } where
  d := Nat.le_refl _
  kept _ _ := rfl
  offset := hle
  passed _ _ h := absurd h (Nat.lt_irrefl _)

theorem moveD_front (maxDistance : ℕ) (m : List Member) (b fuel : ℕ) (h : st.Front) :
    (moveD maxDistance m b fuel st).Front ∧ Grows m st (moveD maxDistance m b fuel st) := by
  induction fuel generalizing st with
  | zero => exact ⟨h, .refl st⟩
  | succ fuel ih =>
    rw [moveD]
    split
    · exact ⟨h, .refl st⟩
    case h_2 isec hisec =>
      split
      · obtain ⟨hfront, hgrows⟩ := ih (h.place isec)
        exact ⟨hfront, (grows_place hisec).trans hgrows⟩
      · exact ⟨h, .refl st⟩

theorem moveD_stops {b fuel : ℕ} (hfuel : m.length ≤ st.d + fuel) :
    ∀ isec, m[(moveD maxDistance m b fuel st).d]? = some isec →
      ((moveD maxDistance m b fuel st).offsets b).toNat + maxDistance ≤
        alignUp (2 ^ isec.p2align) (moveD maxDistance m b fuel st).offset + isec.size +
          maxThunkSize := by
  induction fuel generalizing st with
  | zero =>
    intro isec hisec
    have hlt := (List.getElem?_eq_some_iff.mp hisec).1
    exact absurd hfuel (Nat.not_le_of_lt hlt)
  | succ fuel ih =>
    intro isec' hisec'
    cases hisec : m[st.d]? with
    | none =>
      have hend : moveD maxDistance m b (fuel + 1) st = st := by rw [moveD, hisec]
      rw [hend, hisec] at hisec'
      cases hisec'
    | some isec =>
      by_cases hnear : alignUp (2 ^ isec.p2align) st.offset + isec.size + maxThunkSize <
          (st.offsets b).toNat + maxDistance
      · have hstep : moveD maxDistance m b (fuel + 1) st =
            moveD maxDistance m b fuel (st.place isec) := by
          rw [moveD, hisec]
          exact if_pos hnear
        have hd : st.d + (fuel + 1) = (st.place isec).d + fuel :=
          (Nat.succ_add_eq_add_succ _ _).symm
        rw [hd] at hfuel
        rw [hstep] at hisec' ⊢
        exact ih hfuel isec' hisec'
      · have hend : moveD maxDistance m b (fuel + 1) st = st := by
          rw [moveD, hisec]
          exact if_neg hnear
        rw [hend] at hisec' ⊢
        obtain rfl := Option.some.inj (hisec.symm.trans hisec')
        exact Nat.le_of_not_lt hnear

theorem lt_d_moveD {b : ℕ} {st final : Placing} (h : st.Front) (hb : b < m.length)
    (hb0 : b ≠ 0) (hmax : maxThunkSize ≤ maxDistance)
    (hgrows : Grows m (moveD maxDistance m b m.length st) final)
    (hall : m.length ≤ final.d) (hfits : final.offset + maxDistance < 2 ^ 32) :
    b < (moveD maxDistance m b m.length st).d := by
  by_contra hle
  have hd : (moveD maxDistance m b m.length st).d ≤ b := Nat.le_of_not_lt hle
  have hlen : (moveD maxDistance m b m.length st).d < m.length := Nat.lt_of_le_of_lt hd hb
  have hstop := moveD_stops (Nat.le_add_left _ _) _ (List.getElem?_eq_getElem hlen)
  have hend := hgrows.passed _ (List.getElem?_eq_getElem hlen) (Nat.lt_of_lt_of_le hlen hall)
  rw [(moveD_front _ _ _ _ h).1.behind b hd hb0] at hstop
  have hfar : unplaced.toNat = 4294967295 := rfl
  have hpos : 0 < maxThunkSize := Nat.succ_pos _
  omega

theorem lt_of_lt_moveC {batchSize b fuel : ℕ} {offsets : ℕ → UInt32} {c : ℕ} :
    ∀ k, c ≤ k → k < moveC batchSize m offsets b fuel c →
      (offsets k).toNat < (offsets b).toNat + batchSize := by
  induction fuel generalizing c with
  | zero => exact fun k hle hlt => absurd hlt (Nat.not_lt_of_le hle)
  | succ fuel ih =>
    intro k hle hlt
    rw [moveC] at hlt
    split at hlt
    · exact absurd hlt (Nat.not_lt_of_le hle)
    · split at hlt
      case isTrue hnear =>
        rcases Nat.eq_or_lt_of_le hle with rfl | hgt
        · exact Nat.lt_of_le_of_lt (Nat.le_add_right _ _) hnear
        · exact ih k hgt hlt
      · exact absurd hlt (Nat.not_lt_of_le hle)

theorem moveC_le {batchSize b fuel : ℕ} {offsets : ℕ → UInt32} {c : ℕ} (h : c ≤ m.length) :
    moveC batchSize m offsets b fuel c ≤ m.length := by
  induction fuel generalizing c with
  | zero => exact h
  | succ fuel ih =>
    rw [moveC]
    split
    · exact h
    case h_2 isec hisec =>
      split
      · exact ih (List.getElem?_eq_some_iff.mp hisec).1
      · exact h

theorem le_moveC (batchSize : ℕ) (m : List Member) (offsets : ℕ → UInt32) (b fuel c : ℕ) :
    c ≤ moveC batchSize m offsets b fuel c := by
  induction fuel generalizing c with
  | zero => exact Nat.le_refl c
  | succ fuel ih =>
    rw [moveC]
    split
    · exact Nat.le_refl c
    · split
      · exact Nat.le_trans (Nat.le_succ c) (ih (c + 1))
      · exact Nat.le_refl c

theorem lt_d_of_batch {b k : ℕ} {st final : Placing} (h : st.Front) (hb : b < m.length)
    (hmax : maxThunkSize ≤ maxDistance)
    (hgrows : Grows m (moveD maxDistance m b m.length st) final)
    (hall : 1 < m.length → m.length ≤ final.d) (hfits : final.offset + maxDistance < 2 ^ 32)
    (hbk : b ≤ k)
    (hkc : k < moveC (maxDistance / 10) m (moveD maxDistance m b m.length st).offsets b
      m.length (b + 1)) :
    k < (moveD maxDistance m b m.length st).d ∨ k = 0 := by
  have hfront := (moveD_front maxDistance m b m.length h).1
  have hkm : k < m.length := Nat.lt_of_lt_of_le hkc (moveC_le hb)
  have hbfront : b ≠ 0 → b < (moveD maxDistance m b m.length st).d := fun hb0 =>
    lt_d_moveD h hb hb0 hmax hgrows (hall (by omega)) hfits
  by_contra hk
  obtain ⟨hle, hk0⟩ := not_or.mp hk
  have hbk' : b ≠ k := by
    rintro rfl
    exact hle (hbfront hk0)
  have hnear := lt_of_lt_moveC k (Nat.lt_of_le_of_ne hbk hbk') hkc
  rw [hfront.behind k (Nat.le_of_not_lt hle) hk0] at hnear
  have hbelow : ((moveD maxDistance m b m.length st).offsets b).toNat ≤ final.offset := by
    by_cases hd : b < (moveD maxDistance m b m.length st).d
    · exact Nat.le_trans (hfront.below b hd) hgrows.offset
    · obtain rfl : b = 0 := by_contra fun hb0 => hd (hbfront hb0)
      rw [hfront.first (Nat.eq_zero_of_not_pos hd)]
      exact Nat.zero_le _
  have hfar : unplaced.toNat = 4294967295 := rfl
  omega

theorem grows_placeBatches (maxDistance : ℕ) (m : List Member) (thunkSize : ℕ → ℕ)
    (fuel thunkIdx b : ℕ) (h : st.Front) :
    (placeBatches maxDistance m thunkSize fuel thunkIdx b st).2.Front ∧
      Grows m st (placeBatches maxDistance m thunkSize fuel thunkIdx b st).2 := by
  induction fuel generalizing thunkIdx b st with
  | zero => exact ⟨h, .refl st⟩
  | succ fuel ih =>
    rw [placeBatches]
    split
    · obtain ⟨hfront, hgrows⟩ := moveD_front maxDistance m b m.length h
      have hle := Nat.le_add_right_of_le (k := thunkSize thunkIdx)
        (le_alignUp (a := thunkAlignment) (Nat.succ_pos 3)
          (moveD maxDistance m b m.length st).offset)
      obtain ⟨hlast, hrest⟩ := ih (thunkIdx + 1) (moveC (maxDistance / 10) m
        (moveD maxDistance m b m.length st).offsets b m.length (b + 1)) (hfront.of_le hle)
      exact ⟨hlast, (hgrows.trans (grows_of_le hle)).trans hrest⟩
    · exact ⟨h, .refl st⟩

theorem exists_scan {fuel thunkIdx b : ℕ} (hfuel : m.length ≤ b + fuel) :
    ∀ k, b ≤ k → k < m.length →
      ∃ scan ∈ (placeBatches maxDistance m thunkSize fuel thunkIdx b st).1,
        scan.b ≤ k ∧ k < scan.c := by
  induction fuel generalizing thunkIdx b st with
  | zero =>
    intro k hbk hk
    exact absurd (Nat.lt_of_lt_of_le hk hfuel) (Nat.not_lt_of_le hbk)
  | succ fuel ih =>
    intro k hbk hk
    rw [placeBatches, if_pos (Nat.lt_of_le_of_lt hbk hk)]
    have hc := le_moveC (maxDistance / 10) m (moveD maxDistance m b m.length st).offsets b
      m.length (b + 1)
    rcases Nat.lt_or_ge k (moveC (maxDistance / 10) m
      (moveD maxDistance m b m.length st).offsets b m.length (b + 1)) with hlt | hge
    · exact ⟨_, List.mem_cons_self, hbk, hlt⟩
    · obtain ⟨scan, hmem, hscan⟩ := ih (by omega) k hge hk
      exact ⟨scan, List.mem_cons_of_mem _ hmem, hscan⟩

structure Scan.Sees (m : List Member) (scan : Scan) (final : Placing) : Prop where
  front : scan.placing.Front
  grows : Grows m scan.placing final
  batch : ∀ k, scan.b ≤ k → k < scan.c → k < scan.placing.d ∨ k = 0

theorem sees_of_mem_scans (hmax : maxThunkSize ≤ maxDistance) {fuel thunkIdx b : ℕ} (h : st.Front)
    (hall : 1 < m.length →
      m.length ≤ (placeBatches maxDistance m thunkSize fuel thunkIdx b st).2.d)
    (hfits : (placeBatches maxDistance m thunkSize fuel thunkIdx b st).2.offset + maxDistance <
      2 ^ 32) :
    ∀ scan ∈ (placeBatches maxDistance m thunkSize fuel thunkIdx b st).1,
      scan.Sees m (placeBatches maxDistance m thunkSize fuel thunkIdx b st).2 := by
  induction fuel generalizing thunkIdx b st with
  | zero => exact fun scan hs => absurd hs List.not_mem_nil
  | succ fuel ih =>
    rw [placeBatches] at hall hfits ⊢
    split at hfits
    case isFalse hb =>
      rw [if_neg hb]
      exact fun scan hs => absurd hs List.not_mem_nil
    case isTrue hb =>
      rw [if_pos hb] at hall ⊢
      have hfront := (moveD_front maxDistance m b m.length h).1
      have hle := Nat.le_add_right_of_le (k := thunkSize thunkIdx)
        (le_alignUp (a := thunkAlignment) (Nat.succ_pos 3)
          (moveD maxDistance m b m.length st).offset)
      have hgrows := (grows_of_le (m := m) hle).trans
        (grows_placeBatches maxDistance m thunkSize fuel (thunkIdx + 1)
          (moveC (maxDistance / 10) m (moveD maxDistance m b m.length st).offsets b
            m.length (b + 1)) (hfront.of_le hle)).2
      exact List.forall_mem_cons.mpr ⟨⟨hfront, hgrows, fun k =>
        lt_d_of_batch h hb hmax hgrows hall hfits⟩, ih (hfront.of_le hle) hall hfits⟩

theorem Scan.Sees.distance {scan : Scan} {final : Placing} (h : scan.Sees m final) {k l : ℕ}
    (hbk : scan.b ≤ k) (hkc : k < scan.c) (hl : scan.placing.offsets l ≠ unplaced) :
    (final.offsets l).toNat + (scan.placing.offsets k).toNat =
      (scan.placing.offsets l).toNat + (final.offsets k).toNat := by
  have hl' : l < scan.placing.d ∨ l = 0 := by
    by_contra hne
    obtain ⟨hle, hl0⟩ := not_or.mp hne
    exact hl (h.front.behind l (Nat.le_of_not_lt hle) hl0)
  rcases Nat.eq_zero_or_pos scan.placing.d with hd | hd
  · have hk0 : k = 0 := (h.batch k hbk hkc).resolve_left fun hlt => by omega
    have hl0 : l = 0 := hl'.resolve_left fun hlt => by omega
    rw [hk0, hl0]
    exact Nat.add_comm _ _
  · have hkd : k < scan.placing.d := (h.batch k hbk hkc).elim id fun h0 => h0 ▸ hd
    have hld : l < scan.placing.d := hl'.elim id fun h0 => h0 ▸ hd
    rw [h.grows.kept l hld, h.grows.kept k hkd]

end

end Mold.Elf.Thunks
