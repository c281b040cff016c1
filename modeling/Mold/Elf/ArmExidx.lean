import Mold.Lib.BinarySearch
import Mold.Lib.StoredBits

/-!
# The exception index of ARM

`fixup_arm_exidx_section` of `arch-arm32.cc`.  An entry has the distance to a function and a
word, which may be the distance to an unwinding table.  The entries are made relative to the
section, sorted by function, and made relative to themselves again.

All entries keep their functions and tables.  The distances from the section are compared
without their signs, so the functions in front of the section come after those behind it.
-/

namespace Mold.Elf.ArmExidx

open Mold.Lib

structure Entry where
  addr : BitVec 32
  val : BitVec 32
  deriving DecidableEq

def cantunwind : BitVec 32 := 1

def isRelative (val : BitVec 32) : Prop := val ≠ cantunwind ∧ val &&& 0x80000000 = 0

instance instDecidableIsRelative (val : BitVec 32) : Decidable (isRelative val) :=
  inferInstanceAs (Decidable (_ ∧ _))

/-- `sizeof(Entry) * i` -/
def offset (i : ℕ) : ℕ := 8 * i

def toSectionAt (i : ℕ) (e : Entry) : Entry where
  addr := (signExtend (e.addr.setWidth 64) 30 + BitVec.ofNat 64 (offset i)).setWidth 32
  val :=
    if isRelative e.val then
      (0x7fffffff &&& (e.val.setWidth 64 + BitVec.ofNat 64 (offset i))).setWidth 32
    else e.val

def toSelfAt (i : ℕ) (e : Entry) : Entry where
  addr := (0x7fffffff &&& (e.addr.setWidth 64 - BitVec.ofNat 64 (offset i))).setWidth 32
  val :=
    if isRelative e.val then
      (0x7fffffff &&& (e.val.setWidth 64 - BitVec.ofNat 64 (offset i))).setWidth 32
    else e.val

structure Sorted (ents ents' : List Entry) : Prop where
  perm : ents'.Perm ents
  le : ents'.Pairwise fun a b => ¬b.addr < a.addr

/-- `fixup_arm_exidx_section`: the entries of the section, and those that it may have then. -/
def Fixup (ents out : List Entry) : Prop :=
  ∃ mid, Sorted (ents.mapIdx toSectionAt) mid ∧ out = mid.mapIdx toSelfAt

/-! ## What a table says -/

def prel31 (word : BitVec 32) : ℤ := ((word.toNat : ℤ) + 2 ^ 30) % 2 ^ 31 - 2 ^ 30

/-- How a function is unwound: not at all, by the word, or by a table at some address. -/
inductive Unwind where
  | cantunwind
  | inline (word : BitVec 32)
  | extab (addr : ℕ)
  deriving DecidableEq

/-- What a word says if it stands for the table at an address in case it is a distance. -/
def unwind (val : BitVec 32) (table : ℕ) : Unwind :=
  if val = 1 then .cantunwind else if val.msb then .inline val else .extab table

def address (a : ℤ) : ℕ := (a % 2 ^ 32).toNat

def funcOffset (i : ℕ) (e : Entry) : ℤ := offset i + prel31 e.addr

/-- The table of the entry at a place, as a distance from the value of the first entry. -/
def extabOffset (i : ℕ) (e : Entry) : ℤ := offset i + prel31 e.val

/-- The entry at a place of a section: the address of a function, and how it is unwound. -/
def decode (base i : ℕ) (e : Entry) : ℕ × Unwind :=
  (address (base + funcOffset i e), unwind e.val (address (base + 4 + extabOffset i e)))

def decoded (base : ℕ) (ents : List Entry) : List (ℕ × Unwind) := ents.mapIdx (decode base)

def Fits31 (d : ℤ) : Prop := -2 ^ 30 ≤ d ∧ d < 2 ^ 30

instance instDecidableFits31 (d : ℤ) : Decidable (Fits31 d) :=
  inferInstanceAs (Decidable (_ ∧ _))

/-- Functions and tables are in reach of every entry.  The functions are in the address space,
and the tables are not in the section itself. -/
structure Valid (base : ℕ) (ents : List Entry) : Prop where
  func_fits : ∀ (i : ℕ) e, ents[i]? = some e →
    ∀ j < ents.length, Fits31 (funcOffset i e - offset j)
  func_space : ∀ (i : ℕ) e, ents[i]? = some e →
    0 ≤ base + funcOffset i e ∧ base + funcOffset i e < 2 ^ 32
  extab_fits : ∀ (i : ℕ) e, ents[i]? = some e → isRelative e.val →
    ∀ j < ents.length, Fits31 (extabOffset i e - offset j)
  extab_outside : ∀ (i : ℕ) e, ents[i]? = some e → isRelative e.val →
    4 + extabOffset i e < 0 ∨ (offset ents.length : ℤ) ≤ 4 + extabOffset i e

/-- The table names the same functions and unwinds them in the same way, in the order of their
addresses.  So a search for an address finds the last function up to it. -/
structure Fixed (base : ℕ) (ents out : List Entry) : Prop where
  perm : (decoded base out).Perm (decoded base ents)
  sorted : ((decoded base out).map Prod.fst).Pairwise (· ≤ ·)
  found : ∀ pc f, f ∈ (decoded base ents).map Prod.fst → f ≤ pc →
    (∀ g ∈ (decoded base ents).map Prod.fst, g ≤ pc → g ≤ f) →
    ∃ i, lastAtMost (fun k => ((decoded base out).map Prod.fst).getD k 0) pc
        ((decoded base out).map Prod.fst).length = some i ∧
      ((decoded base out).map Prod.fst)[i]? = some f

section Entry

variable {i : ℕ} {e : Entry}

theorem prel31_fits (word : BitVec 32) : Fits31 (prel31 word) := by
  rw [Fits31, prel31]
  omega

theorem signExtend_addr (word : BitVec 32) :
    signExtend (word.setWidth 64) 30 = BitVec.ofInt 64 (prel31 word) := by
  obtain ⟨hlow, hhigh⟩ := prel31_fits word
  rw [← BitVec.ofNat_toNat]
  refine signExtend_ofNat (by decide) hlow hhigh ?_
  rw [prel31]
  omega

theorem toNat_setWidth_ofInt (a : ℤ) :
    (((BitVec.ofInt 64 a).setWidth 32).toNat : ℤ) = a % 2 ^ 32 := by
  rw [BitVec.toNat_setWidth, toNat_ofInt_mod (by decide),
    Int.toNat_of_nonneg (Int.emod_nonneg a (by decide))]

theorem toNat_mask (x : BitVec 64) :
    ((0x7fffffff &&& x).setWidth 32).toNat = x.toNat % 2 ^ 31 := by
  have hand : (0x7fffffff &&& x : BitVec 64).toNat = x.toNat % 2 ^ 31 := by
    rw [BitVec.toNat_and, Nat.and_comm]
    exact Nat.and_two_pow_sub_one_eq_mod _ 31
  rw [BitVec.toNat_setWidth, hand]
  omega

theorem toNat_toSectionAt_addr : ((toSectionAt i e).addr.toNat : ℤ) = funcOffset i e % 2 ^ 32 := by
  have hsum : signExtend (e.addr.setWidth 64) 30 + BitVec.ofNat 64 (offset i) =
      BitVec.ofInt 64 (funcOffset i e) := by
    rw [signExtend_addr, funcOffset, Int.add_comm, BitVec.ofInt_add, BitVec.ofInt_natCast]
  rw [toSectionAt, hsum]
  exact toNat_setWidth_ofInt _

theorem msb_eq_false_iff (val : BitVec 32) : val &&& 0x80000000 = 0 ↔ val.toNat < 2 ^ 31 := by
  have hbit : (val &&& 0x80000000).toNat = val.toNat / 2 ^ 31 % 2 * 2 ^ 31 := by
    rw [BitVec.toNat_and, ← Nat.toNat_testBit]
    exact Nat.and_two_pow _ 31
  have hlt := val.isLt
  rw [← BitVec.toNat_inj, hbit]
  change _ = 0 ↔ _
  omega

theorem isRelative_iff (val : BitVec 32) :
    isRelative val ↔ val.toNat ≠ 1 ∧ val.toNat < 2 ^ 31 := by
  rw [isRelative, msb_eq_false_iff, ne_eq, ← BitVec.toNat_inj]
  rfl

variable {val : BitVec 32}

theorem unwind_of_isRelative (h : isRelative val) (table : ℕ) :
    unwind val table = .extab table := by
  have hmsb : val.msb = false := by
    rw [BitVec.msb_eq_decide, decide_eq_false_iff_not, Nat.not_le]
    exact ((isRelative_iff val).mp h).2
  have hne : ¬val = 1 := h.1
  rw [unwind, if_neg hne, hmsb, if_neg Bool.false_ne_true]

theorem unwind_of_not_isRelative (h : ¬isRelative val) (table table' : ℕ) :
    unwind val table = unwind val table' := by
  by_cases hone : val = 1
  · rw [unwind, unwind, if_pos hone, if_pos hone]
  · have hmsb : val.msb = true := by
      rw [isRelative_iff, not_and, Nat.not_lt] at h
      rw [BitVec.msb_eq_decide, decide_eq_true_iff]
      exact h fun hnat => hone (BitVec.toNat_inj.mp hnat)
    rw [unwind, unwind, if_neg hone, if_neg hone, hmsb, if_pos rfl, if_pos rfl]

theorem isRelative_of_prel31 {d : ℤ} (hlt : val.toNat < 2 ^ 31)
    (hd : prel31 val = d) (hne : d ≠ 1) : isRelative val := by
  rw [isRelative_iff]
  refine ⟨fun hone => hne ?_, hlt⟩
  rw [← hd, prel31, hone]
  rfl

/-! ## Entries relative to the section -/

def absolute (base : ℕ) (e : Entry) : ℕ × Unwind :=
  (address (base + e.addr.toInt), unwind e.val (address (base + 4 + prel31 e.val)))

theorem toInt_toSectionAt_addr (h : Fits31 (funcOffset i e)) :
    (toSectionAt i e).addr.toInt = funcOffset i e := by
  have hnat := @toNat_toSectionAt_addr i e
  obtain ⟨hlow, hhigh⟩ := h
  rw [BitVec.toInt_eq_toNat_cond]
  split <;> omega

theorem toSectionAt_val (h : isRelative e.val) :
    (toSectionAt i e).val.toNat < 2 ^ 31 ∧
      (Fits31 (extabOffset i e) → prel31 (toSectionAt i e).val = extabOffset i e) := by
  have hval : (toSectionAt i e).val.toNat = (e.val.toNat + offset i) % 2 ^ 31 := by
    rw [toSectionAt]
    simp only [if_pos h]
    rw [toNat_mask, BitVec.toNat_add, BitVec.toNat_setWidth, BitVec.toNat_ofNat]
    omega
  refine ⟨by omega, fun hfits => ?_⟩
  obtain ⟨hlow, hhigh⟩ := hfits
  rw [extabOffset, prel31] at hlow hhigh ⊢
  rw [prel31, hval]
  omega

theorem absolute_toSectionAt (base : ℕ) (hfunc : Fits31 (funcOffset i e))
    (hextab : isRelative e.val → Fits31 (extabOffset i e) ∧ extabOffset i e ≠ 1) :
    absolute base (toSectionAt i e) = decode base i e := by
  rw [absolute, decode, toInt_toSectionAt_addr hfunc]
  congr 1
  by_cases hrel : isRelative e.val
  · obtain ⟨hfits, hne⟩ := hextab hrel
    obtain ⟨hlt, hprel⟩ := @toSectionAt_val i e hrel
    rw [unwind_of_isRelative hrel, hprel hfits,
      unwind_of_isRelative (isRelative_of_prel31 hlt (hprel hfits) hne)]
  · have hval : (toSectionAt i e).val = e.val := if_neg hrel
    rw [hval]
    exact unwind_of_not_isRelative hrel _ _

structure Ready (i : ℕ) (e : Entry) : Prop where
  func : Fits31 (e.addr.toInt - offset i)
  extab : isRelative e.val → Fits31 (prel31 e.val - offset i) ∧ prel31 e.val - offset i ≠ 1

theorem prel31_toSelfAt_addr (h : Fits31 (e.addr.toInt - offset i)) :
    prel31 (toSelfAt i e).addr = e.addr.toInt - offset i := by
  have haddr : (toSelfAt i e).addr.toNat =
      (2 ^ 64 - offset i % 2 ^ 64 + e.addr.toNat % 2 ^ 64) % 2 ^ 64 % 2 ^ 31 := by
    rw [toSelfAt]
    rw [toNat_mask, BitVec.toNat_sub, BitVec.toNat_setWidth, BitVec.toNat_ofNat]
  have hint : (e.addr.toInt - e.addr.toNat) % 2 ^ 31 = 0 := by
    rw [BitVec.toInt_eq_toNat_cond]
    split <;> omega
  obtain ⟨hlow, hhigh⟩ := h
  rw [prel31, haddr]
  omega

theorem toSelfAt_val (h : isRelative e.val) :
    (toSelfAt i e).val.toNat < 2 ^ 31 ∧
      (Fits31 (prel31 e.val - offset i) →
        prel31 (toSelfAt i e).val = prel31 e.val - offset i) := by
  have hval : (toSelfAt i e).val.toNat =
      (2 ^ 64 - offset i % 2 ^ 64 + e.val.toNat % 2 ^ 64) % 2 ^ 64 % 2 ^ 31 := by
    rw [toSelfAt]
    simp only [if_pos h]
    rw [toNat_mask, BitVec.toNat_sub, BitVec.toNat_setWidth, BitVec.toNat_ofNat]
  refine ⟨by omega, fun hfits => ?_⟩
  obtain ⟨hlow, hhigh⟩ := hfits
  rw [prel31] at hlow hhigh ⊢
  rw [prel31, hval]
  omega

theorem decode_toSelfAt (base : ℕ) (h : Ready i e) :
    decode base i (toSelfAt i e) = absolute base e := by
  have hfunc : funcOffset i (toSelfAt i e) = e.addr.toInt := by
    rw [funcOffset, prel31_toSelfAt_addr h.func, add_sub_cancel]
  rw [absolute, decode, hfunc, Prod.mk.injEq]
  refine ⟨rfl, ?_⟩
  by_cases hrel : isRelative e.val
  · obtain ⟨hfits, hne⟩ := h.extab hrel
    obtain ⟨hlt, hprel⟩ := @toSelfAt_val i e hrel
    rw [unwind_of_isRelative hrel, extabOffset, hprel hfits, add_sub_cancel,
      unwind_of_isRelative (isRelative_of_prel31 hlt (hprel hfits) hne)]
  · have hval : (toSelfAt i e).val = e.val := if_neg hrel
    rw [hval]
    exact unwind_of_not_isRelative hrel _ _

end Entry

section Table

variable {base : ℕ} {ents mid out : List Entry}

theorem mem_mapIdx_toSectionAt {e' : Entry} :
    e' ∈ ents.mapIdx toSectionAt ↔ ∃ i e, ents[i]? = some e ∧ toSectionAt i e = e' := by
  rw [List.mem_iff_getElem?]
  simp only [List.getElem?_mapIdx, Option.map_eq_some_iff]

theorem Valid.toInt_addr (h : Valid base ents) {i : ℕ} {e : Entry} (he : ents[i]? = some e) :
    (toSectionAt i e).addr.toInt = funcOffset i e := by
  have hpos : 0 < ents.length :=
    Nat.zero_lt_of_lt (List.getElem?_eq_some_iff.mp he).1
  have hfits := h.func_fits i e he 0 hpos
  rw [offset, Nat.mul_zero, Nat.cast_zero, sub_zero] at hfits
  exact toInt_toSectionAt_addr hfits

theorem Valid.extab (h : Valid base ents) {i : ℕ} {e : Entry} (he : ents[i]? = some e)
    (hrel : isRelative e.val) {j : ℕ} (hj : j < ents.length) :
    Fits31 (extabOffset i e - offset j) ∧ extabOffset i e - offset j ≠ 1 := by
  have houtside := h.extab_outside i e he hrel
  refine ⟨h.extab_fits i e he hrel j hj, ?_⟩
  rw [offset] at houtside ⊢
  omega

theorem Valid.extab_zero (h : Valid base ents) {i : ℕ} {e : Entry} (he : ents[i]? = some e)
    (hrel : isRelative e.val) : Fits31 (extabOffset i e) ∧ extabOffset i e ≠ 1 := by
  have hpos : 0 < ents.length :=
    Nat.zero_lt_of_lt (List.getElem?_eq_some_iff.mp he).1
  have hextab := h.extab he hrel hpos
  rwa [offset, Nat.mul_zero, Nat.cast_zero, sub_zero] at hextab

theorem Valid.ready (h : Valid base ents) {e' : Entry} (he' : e' ∈ ents.mapIdx toSectionAt)
    {j : ℕ} (hj : j < ents.length) : Ready j e' := by
  obtain ⟨i, e, he, rfl⟩ := mem_mapIdx_toSectionAt.mp he'
  constructor
  · rw [h.toInt_addr he]
    exact h.func_fits i e he j hj
  · intro hrel'
    have hrel : isRelative e.val := by
      by_contra hrel
      have hval : (toSectionAt i e).val = e.val := if_neg hrel
      exact hrel (hval ▸ hrel')
    rw [(toSectionAt_val hrel).2 (h.extab_zero he hrel).1]
    exact h.extab he hrel hj

theorem Valid.map_absolute (h : Valid base ents) :
    (ents.mapIdx toSectionAt).map (absolute base) = decoded base ents := by
  apply List.ext_getElem?
  intro i
  rw [decoded, List.getElem?_map, List.getElem?_mapIdx, List.getElem?_mapIdx, Option.map_map]
  cases he : ents[i]? with
  | none => rw [Option.map_none, Option.map_none]
  | some e =>
    have hpos : 0 < ents.length :=
      Nat.zero_lt_of_lt (List.getElem?_eq_some_iff.mp he).1
    have hfits := h.func_fits i e he 0 hpos
    rw [offset, Nat.mul_zero, Nat.cast_zero, sub_zero] at hfits
    rw [Option.map_some, Option.map_some, Function.comp_apply,
      absolute_toSectionAt base hfits (h.extab_zero he)]

theorem decoded_toSelf (h : ∀ (j : ℕ) e, mid[j]? = some e → Ready j e) :
    decoded base (mid.mapIdx toSelfAt) = mid.map (absolute base) := by
  apply List.ext_getElem?
  intro j
  rw [decoded, List.getElem?_map, List.getElem?_mapIdx, List.getElem?_mapIdx, Option.map_map]
  cases he : mid[j]? with
  | none => rw [Option.map_none, Option.map_none]
  | some e =>
    rw [Option.map_some, Option.map_some, Function.comp_apply, decode_toSelfAt base (h j e he)]

theorem Valid.decoded_out (h : Valid base ents) (hsort : Sorted (ents.mapIdx toSectionAt) mid) :
    decoded base (mid.mapIdx toSelfAt) = mid.map (absolute base) := by
  apply decoded_toSelf
  intro j e he
  obtain ⟨hlt, rfl⟩ := List.getElem?_eq_some_iff.mp he
  have hlen : mid.length = ents.length := by
    rw [hsort.perm.length_eq, List.length_mapIdx]
  exact h.ready (hsort.perm.mem_iff.mp (List.getElem_mem hlt)) (hlen ▸ hlt)

theorem Valid.perm (h : Valid base ents) (hsort : Sorted (ents.mapIdx toSectionAt) mid) :
    (decoded base (mid.mapIdx toSelfAt)).Perm (decoded base ents) := by
  rw [h.decoded_out hsort, ← h.map_absolute]
  exact hsort.perm.map _

/-! ## The order -/

theorem address_of_space {a : ℤ} (h : 0 ≤ a ∧ a < 2 ^ 32) : (address a : ℤ) = a := by
  rw [address, Int.emod_eq_of_lt h.1 h.2, Int.toNat_of_nonneg h.1]

theorem Valid.pairwise_iff (h : Valid base ents) (hsort : Sorted (ents.mapIdx toSectionAt) mid) :
    ((decoded base (mid.mapIdx toSelfAt)).map Prod.fst).Pairwise (· ≤ ·) ↔
      mid.Pairwise fun a b => a.addr.toInt ≤ b.addr.toInt := by
  have hspace (e' : Entry) (he' : e' ∈ mid) :
      (address (base + e'.addr.toInt) : ℤ) = base + e'.addr.toInt := by
    obtain ⟨i, e, he, rfl⟩ := mem_mapIdx_toSectionAt.mp (hsort.perm.mem_iff.mp he')
    rw [h.toInt_addr he]
    exact address_of_space (h.func_space i e he)
  rw [h.decoded_out hsort, List.map_map, List.pairwise_map]
  apply List.Pairwise.iff_of_mem
  intro a b ha hb
  have hspaceA := hspace a ha
  have hspaceB := hspace b hb
  change address (base + a.addr.toInt) ≤ address (base + b.addr.toInt) ↔ _
  omega

theorem toInt_le_of_same_sign {a b : BitVec 32} (hle : ¬b < a)
    (hsign : 0 ≤ a.toInt ↔ 0 ≤ b.toInt) : a.toInt ≤ b.toInt := by
  rw [BitVec.lt_def] at hle
  rw [BitVec.toInt_eq_toNat_cond, BitVec.toInt_eq_toNat_cond] at hsign ⊢
  have ha := a.isLt
  have hb := b.isLt
  split at hsign <;> split at hsign <;> omega

theorem lt_of_signs {a b : BitVec 32} (ha : 0 ≤ a.toInt) (hb : b.toInt < 0) : a < b := by
  rw [BitVec.toInt_eq_toNat_cond] at ha hb
  rw [BitVec.lt_def]
  have hlt := a.isLt
  split at ha <;> split at hb <;> omega

theorem pairwise_toInt_iff (hle : mid.Pairwise fun a b => ¬b.addr < a.addr) :
    (mid.Pairwise fun a b => a.addr.toInt ≤ b.addr.toInt) ↔
      (∀ e ∈ mid, 0 ≤ e.addr.toInt) ∨ ∀ e ∈ mid, e.addr.toInt < 0 := by
  constructor
  · intro hint
    by_contra hmixed
    push Not at hmixed
    obtain ⟨⟨b, hb, hneg⟩, a, ha, hnonneg⟩ := hmixed
    -- of two such entries neither can be in front of the other
    have hpair := List.Pairwise.forall_of_forall_of_flip
      (R := fun x y : Entry => ¬(0 ≤ x.addr.toInt ∧ y.addr.toInt < 0))
      (fun x _ hx => absurd hx.1 (Int.not_le.mpr hx.2))
      (hint.imp fun hxy hx => by omega)
      (hle.imp fun hxy hx => hxy (lt_of_signs hx.1 hx.2))
    exact hpair ha hb ⟨hnonneg, hneg⟩
  · intro hsigns
    apply hle.imp_of_mem
    intro a b ha hb hab
    apply toInt_le_of_same_sign hab
    rcases hsigns with hnonneg | hneg
    · exact iff_of_true (hnonneg a ha) (hnonneg b hb)
    · exact iff_of_false (by have := hneg a ha; omega) (by have := hneg b hb; omega)

theorem Valid.forall_mid_iff (h : Valid base ents)
    (hsort : Sorted (ents.mapIdx toSectionAt) mid) (p : ℤ → Prop) :
    (∀ e ∈ mid, p e.addr.toInt) ↔ ∀ (i : ℕ) e, ents[i]? = some e → p (funcOffset i e) := by
  constructor
  · intro hmid i e he
    have hmem := hsort.perm.mem_iff.mpr (mem_mapIdx_toSectionAt.mpr ⟨i, e, he, rfl⟩)
    exact h.toInt_addr he ▸ hmid _ hmem
  · intro hents e' he'
    obtain ⟨i, e, he, rfl⟩ := mem_mapIdx_toSectionAt.mp (hsort.perm.mem_iff.mp he')
    rw [h.toInt_addr he]
    exact hents i e he

/-- All functions are kept, and they are in order exactly if all of them are behind the start
of the section, or all of them are in front of it. -/
theorem fixup_iff (hvalid : Valid base ents) (hfix : Fixup ents out) :
    Fixed base ents out ↔
      (∀ (i : ℕ) e, ents[i]? = some e → 0 ≤ funcOffset i e) ∨
        ∀ (i : ℕ) e, ents[i]? = some e → funcOffset i e < 0 := by
  obtain ⟨mid, hsort, rfl⟩ := hfix
  have hperm := hvalid.perm hsort
  have horder := (hvalid.pairwise_iff hsort).trans (pairwise_toInt_iff hsort.le)
  rw [hvalid.forall_mid_iff hsort fun a => 0 ≤ a,
    hvalid.forall_mid_iff hsort fun a => a < 0] at horder
  rw [← horder]
  constructor
  · exact Fixed.sorted
  · intro hsorted
    refine ⟨hperm, hsorted, fun pc f hf hle hmax => ?_⟩
    have hmem (g : ℕ) := (hperm.map Prod.fst).mem_iff (a := g)
    exact lastAtMost_of_sorted hsorted ((hmem f).mpr hf) hle
      fun g hg => hmax g ((hmem g).mp hg)

end Table

theorem forall_getElem?_two {α : Type*} {a b : α} {p : ℕ → α → Prop} :
    (∀ (i : ℕ) x, [a, b][i]? = some x → p i x) ↔ p 0 a ∧ p 1 b := by
  constructor
  · exact fun h => ⟨h 0 a rfl, h 1 b rfl⟩
  · rintro ⟨ha, hb⟩ i x hx
    match i with
    | 0 => exact Option.some.inj hx ▸ ha
    | 1 => exact Option.some.inj hx ▸ hb
    | _ + 2 => cases hx

/-- A function that cannot be unwound, and one with a table in front of the section. -/
def twoBehind : List Entry := [⟨0x2000, 1⟩, ⟨0x1000, 0x7ffffe00⟩]

theorem valid_twoBehind : Valid 0x10000 twoBehind :=
  ⟨forall_getElem?_two.mpr (by decide), forall_getElem?_two.mpr (by decide),
    forall_getElem?_two.mpr (by decide), forall_getElem?_two.mpr (by decide)⟩

theorem fixup_twoBehind : Fixup twoBehind [⟨0x1008, 0x7ffffe08⟩, ⟨0x1ff8, 1⟩] :=
  ⟨[⟨0x1008, 0x7ffffe08⟩, ⟨0x2000, 1⟩], ⟨by decide, by decide⟩, by decide⟩

theorem fixed_twoBehind : Fixed 0x10000 twoBehind [⟨0x1008, 0x7ffffe08⟩, ⟨0x1ff8, 1⟩] :=
  (fixup_iff valid_twoBehind fixup_twoBehind).mpr (.inl (forall_getElem?_two.mpr (by decide)))

/-- A function in front of the section and one behind it, which do not stay in order. -/
theorem not_fixed_mixed :
    ¬∀ (base : ℕ) (ents out : List Entry), Valid base ents → Fixup ents out →
      Fixed base ents out := by
  intro h
  have hvalid : Valid 0x10000 [⟨0x7ffff000, 1⟩, ⟨0x1000, 1⟩] :=
    ⟨forall_getElem?_two.mpr (by decide), forall_getElem?_two.mpr (by decide),
      forall_getElem?_two.mpr (by decide), forall_getElem?_two.mpr (by decide)⟩
  have hfix : Fixup [⟨0x7ffff000, 1⟩, ⟨0x1000, 1⟩] [⟨0x1008, 1⟩, ⟨0x7fffeff8, 1⟩] :=
    ⟨[⟨0x1008, 1⟩, ⟨0xfffff000, 1⟩], ⟨by decide, by decide⟩, by decide⟩
  exact absurd (h _ _ _ hvalid hfix).sorted (by decide)

end Mold.Elf.ArmExidx
