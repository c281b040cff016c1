import Mold.MachO.SplitFile
import Mathlib.Algebra.Order.BigOperators.Group.List
import Mathlib.Algebra.Order.Ring.Nat
import Mathlib.Data.List.TakeWhile

/-!
# Pieces of literal sections

The pieces of a section of literals follow each other, and as subsections they tile the
section if their places and sizes have 32 bits.
-/

namespace Mold.MachO.Subsections

/-! ## Strings -/

variable {l : List (ℕ × ℕ)} {i n : ℕ}

theorem Consecutive.eq_sum (h : Consecutive i l n) : n = i + (l.map Prod.snd).sum := by
  induction l generalizing i with
  | nil => exact h.symm
  | cons span l ih =>
    rw [ih h.2, List.map_cons, List.sum_cons, Nat.add_assoc]

theorem Consecutive.bounds (h : Consecutive i l n) :
    ∀ span ∈ l, i ≤ span.1 ∧ span.1 + span.2 ≤ n := by
  induction l generalizing i with
  | nil => exact fun span hs => absurd hs List.not_mem_nil
  | cons span l ih =>
    obtain ⟨rfl, hl⟩ := h
    have hend := hl.eq_sum
    refine List.forall_mem_cons.mpr ⟨⟨Nat.le_refl _, by omega⟩, fun span' hs => ?_⟩
    obtain ⟨hlo, hhi⟩ := ih hl span' hs
    exact ⟨by omega, hhi⟩

theorem Consecutive.exists_last (h : Consecutive i l n) :
    i = n ∨ ∃ span ∈ l, span.1 + span.2 = n := by
  induction l generalizing i with
  | nil => exact .inl h
  | cons span l ih =>
    obtain ⟨rfl, hl⟩ := h
    rcases ih hl with heq | ⟨span', hs, heq⟩
    · exact .inr ⟨span, List.mem_cons_self, heq⟩
    · exact .inr ⟨span', List.mem_cons_of_mem _ hs, heq⟩

theorem Consecutive.le_of_lt (h : Consecutive i l n)
    {a b : ℕ × ℕ} (ha : a ∈ l) (hb : b ∈ l) (hlt : a.1 < b.1) : a.1 + a.2 ≤ b.1 := by
  induction l generalizing i with
  | nil => exact absurd ha List.not_mem_nil
  | cons span l ih =>
    obtain ⟨rfl, hl⟩ := h
    rcases List.mem_cons.mp ha with rfl | ha' <;> rcases List.mem_cons.mp hb with rfl | hb'
    · exact absurd hlt (Nat.lt_irrefl _)
    · exact (hl.bounds b hb').1
    · have hle := (hl.bounds a ha').1
      omega
    · exact ih hl ha' hb'

variable {str : List UInt8}

theorem cstringLength_bounds {n : ℕ} (h : cstringLength str = some n) :
    0 < n ∧ n ≤ str.length := by
  have hsplit := congrArg List.length
    (List.takeWhile_append_dropWhile (p := fun c : UInt8 => decide (c ≠ 0)) (l := str))
  have hhead := List.head?_dropWhile_not (fun c : UInt8 => decide (c ≠ 0)) str
  rw [cstringLength] at h
  rw [List.length_append] at hsplit
  cases hdrop : str.dropWhile fun c : UInt8 => decide (c ≠ 0) with
  | nil =>
    rw [hdrop] at h
    cases h
  | cons c rest =>
    rw [hdrop] at h hsplit hhead
    obtain rfl := Option.some.inj h
    obtain rfl : c = 0 := by simpa using hhead
    have hle : ((0 :: rest).takeWhile fun c : UInt8 => decide (c = 0)).length ≤
        (0 :: rest).length := (List.takeWhile_sublist _).length_le
    have hpos : 0 < ((0 :: rest).takeWhile fun c : UInt8 => decide (c = 0)).length := by
      rw [List.takeWhile_cons_of_pos rfl]
      exact Nat.succ_pos _
    omega

variable {pieces : List (ℕ × ℕ)}

theorem consecutive_cstringPieces {fuel pos : ℕ} (h : cstringPieces fuel pos str = some pieces) :
    Consecutive pos pieces (pos + str.length) ∧ ∀ piece ∈ pieces, 0 < piece.2 := by
  induction fuel generalizing pos str pieces with
  | zero =>
    cases str with
    | nil =>
      obtain rfl := Option.some.inj h
      exact ⟨rfl, fun piece hp => absurd hp List.not_mem_nil⟩
    | cons c str => cases h
  | succ fuel ih =>
    cases str with
    | nil =>
      obtain rfl := Option.some.inj h
      exact ⟨rfl, fun piece hp => absurd hp List.not_mem_nil⟩
    | cons c str =>
      obtain ⟨n, hn, h⟩ := Option.bind_eq_some_iff.mp h
      obtain ⟨rest, hrest, rfl⟩ := Option.map_eq_some_iff.mp h
      obtain ⟨hpos, hle⟩ := cstringLength_bounds hn
      obtain ⟨hcons, hsize⟩ := ih hrest
      have hend : pos + (c :: str).length = pos + n + ((c :: str).drop n).length := by
        rw [List.length_drop]
        omega
      rw [hend]
      exact ⟨⟨rfl, hcons⟩, List.forall_mem_cons.mpr ⟨hpos, hsize⟩⟩

def IsStart (contents : List UInt8) (p : ℕ) : Prop :=
  p < contents.length ∧ (p = 0 ∨ contents[p - 1]? = some 0 ∧ contents[p]? ≠ some 0)

theorem cstringLength_spec {n : ℕ} (h : cstringLength str = some n) :
    ∃ a < n, (∀ p < a, str[p]? ≠ some 0) ∧ (∀ p, a ≤ p → p < n → str[p]? = some 0) ∧
      str[n]? ≠ some 0 ∧ n ≤ str.length := by
  obtain ⟨hpos, hle⟩ := cstringLength_bounds h
  have hsplit := List.takeWhile_append_dropWhile (p := fun c : UInt8 => decide (c ≠ 0)) (l := str)
  have hchars := fun c => List.mem_takeWhile_imp (p := fun c : UInt8 => decide (c ≠ 0))
    (l := str) (x := c)
  have hhead := List.head?_dropWhile_not (fun c : UInt8 => decide (c ≠ 0)) str
  rw [cstringLength] at h
  generalize str.takeWhile (fun c : UInt8 => decide (c ≠ 0)) = chars at h hsplit hchars
  cases hdrop : str.dropWhile fun c : UInt8 => decide (c ≠ 0) with
  | nil =>
    rw [hdrop] at h
    cases h
  | cons c rest =>
    rw [hdrop] at h hsplit hhead
    obtain rfl : c = 0 := by simpa using hhead
    have hrest := List.takeWhile_append_dropWhile (p := fun c : UInt8 => decide (c = 0))
      (l := 0 :: rest)
    have hnulls := fun c => List.mem_takeWhile_imp (p := fun c : UInt8 => decide (c = 0))
      (l := 0 :: rest) (x := c)
    have hnext := List.head?_dropWhile_not (fun c : UInt8 => decide (c = 0)) (0 :: rest)
    have hone : 0 < ((0 :: rest).takeWhile fun c : UInt8 => decide (c = 0)).length := by
      rw [List.takeWhile_cons_of_pos rfl]
      exact Nat.succ_pos _
    obtain rfl := Option.some.inj h
    generalize (0 :: rest).takeWhile (fun c : UInt8 => decide (c = 0)) = nulls at *
    generalize (0 :: rest).dropWhile (fun c : UInt8 => decide (c = 0)) = behind at *
    rw [← hrest] at hsplit
    subst hsplit
    refine ⟨chars.length, Nat.lt_add_of_pos_right hone, fun p hp hget => ?_,
      fun p hlo hhi => ?_, fun hget => ?_, hle⟩
    · rw [List.getElem?_append_left hp] at hget
      simpa using hchars 0 (List.mem_of_getElem? hget)
    · have hlt : p - chars.length < nulls.length := by omega
      rw [List.getElem?_append_right hlo, List.getElem?_append_left hlt,
        List.getElem?_eq_getElem hlt]
      simpa using hnulls _ (List.getElem_mem hlt)
    · rw [List.getElem?_append_right (Nat.le_add_right _ _), Nat.add_sub_cancel_left,
        List.getElem?_append_right (Nat.le_refl _), Nat.sub_self,
        ← List.head?_eq_getElem?] at hget
      rw [hget] at hnext
      simp at hnext

theorem isStart_iff {n : ℕ} (h : cstringLength str = some n) (p : ℕ) :
    IsStart str p ↔ p = 0 ∨ ∃ q, p = n + q ∧ IsStart (str.drop n) q := by
  obtain ⟨a, ha, hchars, hnulls, hnext, hle⟩ := cstringLength_spec h
  constructor
  · rintro ⟨hlt, hzero | ⟨hbefore, hhere⟩⟩
    · exact .inl hzero
    · by_cases hp : p = 0
      · exact .inl hp
      · have hn : n ≤ p := by
          by_contra hpn
          by_cases hpa : p ≤ a
          · exact hchars (p - 1) (by omega) hbefore
          · exact hhere (hnulls p (by omega) (by omega))
        refine .inr ⟨p - n, by omega, ?_, ?_⟩
        · rw [List.length_drop]
          omega
        · by_cases hq : p = n
          · exact .inl (by omega)
          · refine .inr ⟨?_, ?_⟩
            · rw [List.getElem?_drop, show n + (p - n - 1) = p - 1 by omega]
              exact hbefore
            · rw [List.getElem?_drop, show n + (p - n) = p by omega]
              exact hhere
  · rintro (rfl | ⟨q, rfl, hlt, hq⟩)
    · exact ⟨by omega, .inl rfl⟩
    · rw [List.length_drop] at hlt
      refine ⟨by omega, .inr ?_⟩
      rcases hq with rfl | ⟨hbefore, hhere⟩
      · exact ⟨hnulls (n - 1) (by omega) (by omega), hnext⟩
      · rw [List.getElem?_drop] at hbefore hhere
        by_cases hq : q = 0
        · subst hq
          exact ⟨hnulls (n - 1) (by omega) (by omega), hnext⟩
        · rw [show n + q - 1 = n + (q - 1) by omega]
          exact ⟨hbefore, hhere⟩

theorem mem_cstringPieces_iff {fuel pos : ℕ}
    (h : cstringPieces fuel pos str = some pieces) (p : ℕ) :
    (∃ piece ∈ pieces, piece.1 = pos + p) ↔ IsStart str p := by
  induction fuel generalizing pos str pieces p with
  | zero =>
    cases str with
    | nil =>
      obtain rfl := Option.some.inj h
      exact iff_of_false (fun ⟨_, hp, _⟩ => List.not_mem_nil hp)
        fun hstart => Nat.not_lt_zero p hstart.1
    | cons c str => cases h
  | succ fuel ih =>
    cases str with
    | nil =>
      obtain rfl := Option.some.inj h
      exact iff_of_false (fun ⟨_, hp, _⟩ => List.not_mem_nil hp)
        fun hstart => Nat.not_lt_zero p hstart.1
    | cons c str =>
      obtain ⟨n, hn, h⟩ := Option.bind_eq_some_iff.mp h
      obtain ⟨rest, hrest, rfl⟩ := Option.map_eq_some_iff.mp h
      rw [isStart_iff hn, List.exists_mem_cons_iff]
      refine or_congr (by simp) ?_
      constructor
      · rintro ⟨piece, hp, heq⟩
        have hle : pos + n ≤ piece.1 :=
          ((consecutive_cstringPieces hrest).1.bounds piece hp).1
        refine ⟨p - n, by omega, (ih hrest (p - n)).mp ⟨piece, hp, by omega⟩⟩
      · rintro ⟨q, rfl, hq⟩
        obtain ⟨piece, hp, heq⟩ := (ih hrest q).mpr hq
        exact ⟨piece, hp, by omega⟩

theorem consecutive_range (size k n : ℕ) :
    Consecutive (k * size) ((List.range' k n).map fun i => (i * size, size)) ((k + n) * size) := by
  induction n generalizing k with
  | zero => exact rfl
  | succ n ih =>
    refine ⟨rfl, ?_⟩
    have hnext := ih (k + 1)
    rw [Nat.succ_mul, Nat.add_right_comm k 1 n] at hnext
    exact hnext

theorem consecutive_fixedPieces (size len : ℕ) :
    Consecutive 0 (fixedPieces size len) ((len + size - 1) / size * size) := by
  have h := consecutive_range size 0 ((len + size - 1) / size)
  rw [Nat.zero_mul, Nat.zero_add] at h
  rw [fixedPieces, List.range_eq_range']
  exact h

theorem size_of_mem_fixedPieces {size len : ℕ} :
    ∀ piece ∈ fixedPieces size len, piece.2 = size := by
  intro piece hp
  obtain ⟨k, -, rfl⟩ := List.mem_map.mp hp
  rfl

/-! ## Subsections -/

variable {idx : ℕ} {isec : InputSection}

theorem literalSpan_inputAddr (p2align : UInt8) (pos size : ℕ) :
    (literalSpan idx isec p2align pos size).inputAddr.toNat =
      (isec.addr.toNat + pos) % 2 ^ 32 := by
  rw [literalSpan]
  simp only
  rw [UInt64.toNat_toUInt32, UInt64.toNat_add, UInt64.toNat_ofNat']
  omega

theorem literalSpan_inputSize (p2align : UInt8) (pos size : ℕ) :
    (literalSpan idx isec p2align pos size).inputSize.toNat = size % 2 ^ 32 :=
  UInt32.toNat_ofNat'

def PieceFits (isec : InputSection) (piece : ℕ × ℕ) : Prop :=
  isec.addr.toNat + piece.1 < 2 ^ 32 ∧ piece.2 < 2 ^ 32

theorem Tiles.eq_sum {lo hi : ℕ} {l : List Span} (h : Tiles lo l hi) :
    hi = lo + (l.map fun s => s.inputSize.toNat).sum := by
  induction l generalizing lo with
  | nil => exact h.symm
  | cons s l ih =>
    rw [ih h.2, List.map_cons, List.sum_cons, Span.inputEnd, h.1, Nat.add_assoc]

variable {p2align : ℕ × ℕ → UInt8}

theorem tiles_of_piecesFit {pos total : ℕ} (hpieces : Consecutive pos pieces total)
    (hfits : ∀ piece ∈ pieces, PieceFits isec piece) :
    Tiles (isec.addr.toNat + pos)
      (pieces.map fun piece => literalSpan idx isec (p2align piece) piece.1 piece.2)
      (isec.addr.toNat + total) := by
  induction pieces generalizing pos with
  | nil => exact congrArg (isec.addr.toNat + ·) hpieces
  | cons piece pieces ih =>
    obtain ⟨⟨haddr, hsize⟩, hfits⟩ := List.forall_mem_cons.mp hfits
    obtain ⟨rfl, hpieces⟩ := hpieces
    refine ⟨?_, ?_⟩
    · rw [literalSpan_inputAddr, Nat.mod_eq_of_lt haddr]
    · rw [Span.inputEnd, literalSpan_inputAddr, literalSpan_inputSize,
        Nat.mod_eq_of_lt haddr, Nat.mod_eq_of_lt hsize, Nat.add_assoc]
      exact ih hpieces hfits

theorem addr_of_tiles {pos total hi : ℕ} (hpieces : Consecutive pos pieces total)
    (hsizes : ∀ piece ∈ pieces, piece.2 < 2 ^ 32)
    (h : Tiles (isec.addr.toNat + pos)
      (pieces.map fun piece => literalSpan idx isec (p2align piece) piece.1 piece.2) hi) :
    ∀ piece ∈ pieces, PieceFits isec piece := by
  induction pieces generalizing pos with
  | nil => exact fun piece hp => absurd hp List.not_mem_nil
  | cons piece pieces ih =>
    obtain ⟨hsize, hsizes⟩ := List.forall_mem_cons.mp hsizes
    obtain ⟨rfl, hpieces⟩ := hpieces
    obtain ⟨hstart, hrest⟩ := h
    rw [Span.inputEnd, hstart, literalSpan_inputSize, Nat.mod_eq_of_lt hsize,
      Nat.add_assoc] at hrest
    have haddr : isec.addr.toNat + piece.1 < 2 ^ 32 := by
      rw [← hstart]
      exact UInt32.toNat_lt _
    exact List.forall_mem_cons.mpr ⟨⟨haddr, hsize⟩, ih hpieces hsizes hrest⟩

theorem tiles_pieces_iff {total : ℕ} (hpieces : Consecutive 0 pieces total)
    (hbound : total ≤ isec.size.toNat ∨ ∀ piece ∈ pieces, piece.2 < 2 ^ 32) :
    Tiles isec.addr.toNat
        (pieces.map fun piece => literalSpan idx isec (p2align piece) piece.1 piece.2)
        (isec.addr.toNat + isec.size.toNat) ↔
      (∀ piece ∈ pieces, PieceFits isec piece) ∧ total = isec.size.toNat := by
  constructor
  · intro h
    have htotal := hpieces.eq_sum
    have hsum := h.eq_sum
    rw [List.map_map] at hsum
    have hsizes : ∀ piece ∈ pieces, piece.2 < 2 ^ 32 := by
      rcases hbound with hbound | hsizes
      · by_contra hno
        push Not at hno
        obtain ⟨piece, hp, hlarge⟩ := hno
        have hlt := List.sum_lt_sum (l := pieces)
          ((fun s : Span => s.inputSize.toNat) ∘ fun piece =>
            literalSpan idx isec (p2align piece) piece.1 piece.2) Prod.snd
          (fun piece _ => (literalSpan_inputSize _ _ _).trans_le (Nat.mod_le _ _))
          ⟨piece, hp, (literalSpan_inputSize _ _ _).trans_lt
            (Nat.lt_of_lt_of_le (Nat.mod_lt _ (Nat.two_pow_pos 32)) hlarge)⟩
        omega
      · exact hsizes
    refine ⟨addr_of_tiles hpieces hsizes h, ?_⟩
    have hmap : pieces.map ((fun s : Span => s.inputSize.toNat) ∘ fun piece =>
        literalSpan idx isec (p2align piece) piece.1 piece.2) = pieces.map Prod.snd :=
      List.map_congr_left fun piece hp =>
        (literalSpan_inputSize _ _ _).trans (Nat.mod_eq_of_lt (hsizes piece hp))
    rw [hmap] at hsum
    omega
  · rintro ⟨hfits, rfl⟩
    exact tiles_of_piecesFit hpieces hfits

end Mold.MachO.Subsections
