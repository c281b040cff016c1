import Mathlib.Data.BitVec
import Mold.Lib.Layout

/-!
# Sizes of output sections

`compute_section_sizes` of `passes.cc` gives the members of an output section their offsets.
The members are split into groups of 10000, which are laid out in parallel: first the size of
each group is computed as if it began at offset zero, then the groups are placed, and then the
members of each group are given offsets from its start on.

The start of a group is a multiple of all alignments in it, so the size of a group is the same
there.  Offsets are numbers of 32 bits and alignments are shifts of an `int`, which bounds the
output sections that are laid out correctly.  What raises `sh_addralign` afterwards, for thunks
and for `--section-align`, is left out.
-/

namespace Mold.Elf.SectionSizes

open Lib

/-- The members of `InputSection` that the layout reads. -/
structure InputSection where
  shSize : UInt64
  p2align : UInt8
deriving DecidableEq, Repr

/-- `1 << p2align`, an `int` that is converted to 64 bits.  A shift by 32 or more is
undefined. -/
def shiftOne (p2align : ℕ) : UInt64 := ⟨((1#32) <<< p2align).signExtend 64⟩

def alignTo (val align : UInt64) : UInt64 :=
  if align = 0 then val else (val + align - 1) &&& ~~~(align - 1)

def split (unit : ℕ) (input : List InputSection) : List (List InputSection) :=
  if 0 < unit ∧ unit ≤ input.length then input.take unit :: split unit (input.drop unit)
  else if input = [] then [] else [input]
termination_by input.length
decreasing_by
  rw [List.length_drop]
  omega

/-- `Group` with its size and its alignment. -/
structure Group where
  size : UInt64
  p2align : ℕ
  members : List InputSection

def computeGroup (members : List InputSection) : Group where
  size := members.foldl
    (fun size isec => alignTo size (shiftOne isec.p2align.toNat) + isec.shSize) 0
  p2align := members.foldl (fun p2align isec => max p2align isec.p2align.toNat) 0
  members := members

def placeAll : UInt64 → List Group → List (UInt64 × Group) × UInt64
  | offset, [] => ([], offset)
  | offset, g :: groups =>
    let offset := alignTo offset (shiftOne g.p2align)
    let r := placeAll (offset + g.size) groups
    ((offset, g) :: r.1, r.2)

/-- The last loop over the members of a group, with the offsets that are stored. -/
def assignOffsets : UInt64 → List InputSection → List (InputSection × UInt32)
  | _, [] => []
  | offset, isec :: members =>
    let offset := alignTo offset (shiftOne isec.p2align.toNat)
    (isec, offset.toUInt32) :: assignOffsets (offset + isec.shSize) members

structure Sizes where
  offsets : List (InputSection × UInt32)
  shSize : UInt64
  shAddralign : UInt64

/-- The body of `compute_section_sizes` for one output section. -/
def computeSectionSizes (members : List InputSection) : Sizes :=
  let groups := (split 10000 members).map computeGroup
  let placed := placeAll 0 groups
  { offsets := placed.1.flatMap fun g => assignOffsets g.1 g.2.members
    shSize := placed.2
    shAddralign := shiftOne (groups.foldl (fun p2align g => max p2align g.p2align) 0) }

/-! ## The layout without bounds -/

namespace InputSection

def align (isec : InputSection) : ℕ := 2 ^ isec.p2align.toNat

def size (isec : InputSection) : ℕ := isec.shSize.toNat

theorem align_pos (isec : InputSection) : 0 < isec.align := Nat.two_pow_pos _

end InputSection

open Mold.Elf.SectionSizes.InputSection

def maxP2align (members : List InputSection) : ℕ :=
  members.foldl (fun p2align isec => max p2align isec.p2align.toNat) 0

def groupAlign (members : List InputSection) : ℕ := 2 ^ maxP2align members

def layout (members : List InputSection) : List (InputSection × ℕ) :=
  placeGroups align size groupAlign 0 (split 10000 members)

def layoutEnd (members : List InputSection) : ℕ :=
  placeGroupsEnd align size groupAlign 0 (split 10000 members)

theorem toNat_shiftOne {k : ℕ} (h : k ≤ 30) : (shiftOne k).toNat = 2 ^ k := by
  have hall : ∀ k : Fin 31, (shiftOne k).toNat = 2 ^ k.val := by decide
  exact hall ⟨k, by omega⟩

theorem toNat_and_not (x : UInt64) {a : UInt64} {k : ℕ} (ha : a.toNat = 2 ^ k) (hk : k ≤ 30) :
    (x &&& ~~~(a - 1)).toNat = x.toNat / 2 ^ k * 2 ^ k := by
  have hlt : 2 ^ k < 2 ^ 64 := Nat.pow_lt_pow_right (by decide) (by omega)
  have hpos := Nat.two_pow_pos k
  have hsub : (a - 1).toNat = 2 ^ k - 1 := by
    rw [UInt64.toNat_sub_of_le _ _ (UInt64.le_iff_toNat_le.mpr (by rw [ha]; exact hpos)), ha]
    rfl
  have hnot : (~~~(a - 1)).toNat = 2 ^ 64 - (2 ^ k - 1 + 1) := by
    rw [UInt64.toNat_not, hsub, UInt64.size]
    omega
  rw [UInt64.toNat_and, hnot, ← Nat.shiftLeft_eq]
  apply Nat.eq_of_testBit_eq
  intro i
  rw [Nat.testBit_and, Nat.testBit_two_pow_sub_succ (by omega), Nat.testBit_two_pow_sub_one,
    Nat.testBit_shiftLeft, Nat.testBit_div_two_pow]
  by_cases hi : k ≤ i
  · rw [Nat.sub_add_cancel hi, decide_eq_true hi, decide_eq_false (Nat.not_lt.mpr hi)]
    by_cases hi' : i < 64
    · rw [decide_eq_true hi', Bool.true_and, Bool.not_false, Bool.and_true, Bool.true_and]
    · have hbit : x.toNat.testBit i = false :=
        Nat.testBit_lt_two_pow (x.toNat_lt.trans_le
          (Nat.pow_le_pow_right (by decide) (Nat.not_lt.mp hi')))
      rw [hbit, Bool.false_and, Bool.and_false]
  · rw [decide_eq_false hi, decide_eq_true (Nat.not_le.mp hi), Bool.not_true, Bool.and_false,
      Bool.and_false, Bool.false_and]

theorem toNat_alignTo {val : UInt64} {k : ℕ} (hk : k ≤ 30) (hval : val.toNat < 2 ^ 63) :
    (alignTo val (shiftOne k)).toNat = alignUp (2 ^ k) val.toNat := by
  have ha := toNat_shiftOne hk
  have hpos := Nat.two_pow_pos k
  have hpow : 2 ^ k ≤ 2 ^ 30 := Nat.pow_le_pow_right (by decide) hk
  have hne : shiftOne k ≠ 0 := by
    intro h
    rw [h] at ha
    exact absurd ha.symm (Nat.pos_iff_ne_zero.mp hpos)
  have hadd : (val + shiftOne k).toNat = val.toNat + 2 ^ k := by
    rw [UInt64.toNat_add, ha, Nat.mod_eq_of_lt (by omega)]
  have hsub : (val + shiftOne k - 1).toNat = val.toNat + 2 ^ k - 1 := by
    have hone : (1 : UInt64) ≤ val + shiftOne k := by
      rw [UInt64.le_iff_toNat_le, hadd]
      exact Nat.le_add_left_of_le hpos
    rw [UInt64.toNat_sub_of_le _ _ hone, hadd]
    rfl
  rw [alignTo, if_neg hne, toNat_and_not _ ha hk, hsub, alignUp]

theorem flatten_split (unit : ℕ) (input : List InputSection) :
    (split unit input).flatten = input := by
  induction input using split.induct unit with
  | case1 input h ih =>
    rw [split, if_pos h, List.flatten_cons, ih, List.take_append_drop]
  | case2 h =>
    rw [split, if_neg h, if_pos rfl, List.flatten_nil]
  | case3 input h hne =>
    rw [split, if_neg h, if_neg hne, List.flatten_singleton]

theorem ne_nil_of_mem_split {unit : ℕ} {input g : List InputSection}
    (h : g ∈ split unit input) : g ≠ [] := by
  induction input using split.induct unit with
  | case1 input hle ih =>
    rw [split, if_pos hle] at h
    rcases List.mem_cons.mp h with rfl | h
    · intro hnil
      have hlen := congrArg List.length hnil
      rw [List.length_take, List.length_nil] at hlen
      omega
    · exact ih h
  | case2 hle =>
    rw [split, if_neg hle, if_pos rfl] at h
    exact absurd h List.not_mem_nil
  | case3 input hle hne =>
    rw [split, if_neg hle, if_neg hne] at h
    rwa [List.mem_singleton.mp h]

variable {isec : InputSection}

theorem align_dvd_groupAlign {members : List InputSection}
    (h : isec ∈ members) : isec.align ∣ groupAlign members :=
  Nat.pow_dvd_pow 2 ((le_foldl_max (fun isec : InputSection => isec.p2align.toNat)
    members 0).2 isec h)

theorem foldl_max_eq (members : List InputSection) (init : ℕ) :
    members.foldl (fun p2align isec => max p2align isec.p2align.toNat) init =
      max init (maxP2align members) := by
  induction members generalizing init with
  | nil => exact (Nat.max_zero init).symm
  | cons isec members ih =>
    rw [maxP2align, List.foldl_cons, List.foldl_cons, ih, ih, Nat.zero_max, Nat.max_assoc]

theorem maxP2align_le {members : List InputSection} {bound : ℕ}
    (h : ∀ isec ∈ members, isec.p2align.toNat ≤ bound) : maxP2align members ≤ bound := by
  induction members with
  | nil => exact Nat.zero_le bound
  | cons isec members ih =>
    rw [maxP2align, List.foldl_cons, foldl_max_eq, Nat.zero_max]
    exact Nat.max_le.mpr ⟨h isec List.mem_cons_self,
      ih fun isec' h' => h isec' (List.mem_cons_of_mem isec h')⟩

theorem foldl_groups_eq (gs : List (List InputSection)) (init : ℕ) :
    (gs.map computeGroup).foldl (fun p2align g => max p2align g.p2align) init =
      max init (maxP2align gs.flatten) := by
  induction gs generalizing init with
  | nil => exact (Nat.max_zero init).symm
  | cons g gs ih =>
    have hflat : maxP2align (g ++ gs.flatten) = max (maxP2align g) (maxP2align gs.flatten) := by
      rw [maxP2align, List.foldl_append, foldl_max_eq, foldl_max_eq, Nat.zero_max]
    rw [List.map_cons, List.foldl_cons, ih, List.flatten_cons, hflat, Nat.max_assoc]
    rfl

/-! ## The loops -/

/-- An alignment that is a positive `int`. -/
def Shifts (members : List InputSection) : Prop := ∀ isec ∈ members, isec.p2align.toNat ≤ 30

section Loops

variable {members : List InputSection} {offset : UInt64}

theorem align_pos_all (members : List InputSection) : ∀ isec ∈ members, 0 < isec.align :=
  fun isec _ => isec.align_pos

theorem Shifts.tail (h : Shifts (isec :: members)) : Shifts members :=
  fun isec' h' => h isec' (List.mem_cons_of_mem isec h')

theorem toNat_step (hshift : Shifts (isec :: members))
    (hend : placeEnd align size offset.toNat (isec :: members) < 2 ^ 63) :
    (alignTo offset (shiftOne isec.p2align.toNat)).toNat = alignUp isec.align offset.toNat ∧
      (alignTo offset (shiftOne isec.p2align.toNat) + isec.shSize).toNat =
        alignUp isec.align offset.toNat + isec.size := by
  have hle : alignUp isec.align offset.toNat + isec.size ≤
      placeEnd align size offset.toNat (isec :: members) := le_placeEnd (align_pos_all members) _
  have hstart := le_alignUp isec.align_pos offset.toNat
  have halign : (alignTo offset (shiftOne isec.p2align.toNat)).toNat =
      alignUp isec.align offset.toNat := toNat_alignTo (hshift isec List.mem_cons_self) (by omega)
  refine ⟨halign, ?_⟩
  rw [UInt64.toNat_add, halign, Nat.mod_eq_of_lt]
  · rfl
  · rw [size] at hle
    omega

theorem toNat_foldl_group (hshift : Shifts members)
    (hend : placeEnd align size offset.toNat members < 2 ^ 63) :
    (members.foldl (fun size isec => alignTo size (shiftOne isec.p2align.toNat) + isec.shSize)
      offset).toNat = placeEnd align size offset.toNat members := by
  induction members generalizing offset with
  | nil => rfl
  | cons isec members ih =>
    obtain ⟨-, hstep⟩ := toNat_step hshift hend
    rw [placeEnd, ← hstep] at hend
    rw [List.foldl_cons, ih hshift.tail hend, hstep, placeEnd]

theorem assignOffsets_eq (hshift : Shifts members)
    (hend : placeEnd align size offset.toNat members < 2 ^ 63) :
    (assignOffsets offset members).map (fun x => (x.1, x.2.toNat)) =
      (place align size offset.toNat members).map fun x => (x.1, x.2 % 2 ^ 32) := by
  induction members generalizing offset with
  | nil => rfl
  | cons isec members ih =>
    obtain ⟨halign, hstep⟩ := toNat_step hshift hend
    rw [placeEnd, ← hstep] at hend
    rw [assignOffsets, List.map_cons, ih hshift.tail hend, UInt64.toNat_toUInt32, halign,
      hstep, place, List.map_cons]

end Loops

section Groups

variable {gs : List (List InputSection)} {offset : UInt64}

theorem groupAlign_pos (g : List InputSection) : 0 < groupAlign g := Nat.two_pow_pos _

theorem le_placeGroupsEnd (gs : List (List InputSection)) (start : ℕ) :
    start ≤ placeGroupsEnd align size groupAlign start gs := by
  induction gs generalizing start with
  | nil => exact Nat.le_refl start
  | cons g gs ih =>
    exact ((le_alignUp (groupAlign_pos g) start).trans (Nat.le_add_right _ _)).trans (ih _)

theorem placeAll_eq (hshift : ∀ g ∈ gs, Shifts g)
    (hend : placeGroupsEnd align size groupAlign offset.toNat gs < 2 ^ 63) :
    (placeAll offset (gs.map computeGroup)).2.toNat =
        placeGroupsEnd align size groupAlign offset.toNat gs ∧
      ((placeAll offset (gs.map computeGroup)).1.flatMap fun g =>
          assignOffsets g.1 g.2.members).map (fun x => (x.1, x.2.toNat)) =
        (placeGroups align size groupAlign offset.toNat gs).map
          fun x => (x.1, x.2 % 2 ^ 32) := by
  induction gs generalizing offset with
  | nil => exact ⟨rfl, rfl⟩
  | cons g gs ih =>
    have hg := hshift g List.mem_cons_self
    have hle := le_placeGroupsEnd gs
      (alignUp (groupAlign g) offset.toNat + placeEnd align size 0 g)
    have hstart := le_alignUp (groupAlign_pos g) offset.toNat
    rw [placeGroupsEnd] at hend
    have hmax : (computeGroup g).p2align ≤ 30 := maxP2align_le hg
    have halign : (alignTo offset (shiftOne (computeGroup g).p2align)).toNat =
        alignUp (groupAlign g) offset.toNat := toNat_alignTo hmax (by omega)
    have hsize : (computeGroup g).size.toNat = placeEnd align size (0 : UInt64).toNat g :=
      toNat_foldl_group hg ((Nat.le_add_left _ _).trans_lt (hle.trans_lt hend))
    have hnext : (alignTo offset (shiftOne (computeGroup g).p2align) +
        (computeGroup g).size).toNat =
          alignUp (groupAlign g) offset.toNat + placeEnd align size 0 g := by
      rw [UInt64.toNat_add, halign, hsize, Nat.mod_eq_of_lt]
      · rfl
      · exact (hle.trans_lt hend).trans (by decide)
    have hgroup : placeEnd align size (alignUp (groupAlign g) offset.toNat) g =
        alignUp (groupAlign g) offset.toNat + placeEnd align size 0 g :=
      placeEnd_group (align_pos_all g) (fun isec h => align_dvd_groupAlign h) offset.toNat
    have hfits : placeEnd align size
        (alignTo offset (shiftOne (computeGroup g).p2align)).toNat g < 2 ^ 63 := by
      rw [halign, hgroup]
      exact hle.trans_lt hend
    have hmembers := assignOffsets_eq hg hfits
    rw [← hnext] at hend
    obtain ⟨hend', hoffsets⟩ := ih (fun g' h => hshift g' (List.mem_cons_of_mem g h)) hend
    rw [List.map_cons, placeAll, placeGroupsEnd, placeGroups, List.flatMap_cons,
      List.map_append, List.map_append, ← hnext, ← halign]
    refine ⟨hend', ?_⟩
    rw [hoffsets, ← hmembers]
    rfl

end Groups

/-! ## The result -/

/-- A layout of the members of an output section.  Each offset is a multiple of the alignment
of its member, a member ends before the next one begins, and the section ends with the last
member.  The offsets are those of one loop over all members in which the offset is rounded up
to the alignment of a group in front of each group. -/
structure LaidOut (members : List InputSection) (sizes : Sizes) : Prop where
  members_eq : sizes.offsets.map Prod.fst = members
  aligned : ∀ x ∈ sizes.offsets, x.1.align ∣ x.2.toNat
  apart : sizes.offsets.Pairwise fun x y => x.2.toNat + x.1.size ≤ y.2.toNat
  shSize : sizes.shSize.toNat = (sizes.offsets.getLast?.map fun x => x.2.toNat + x.1.size).getD 0
  shAddralign : sizes.shAddralign.toNat = 2 ^ maxP2align members
  sequential : sizes.offsets.map (fun x => (x.1, x.2.toNat)) =
    (place (startAlign align) (startSize size) 0
      (withStarts groupAlign (split 10000 members))).filterMap itemOf

theorem shAddralign_eq (members : List InputSection) :
    (computeSectionSizes members).shAddralign = shiftOne (maxP2align members) := by
  have hmax := foldl_groups_eq (split 10000 members) 0
  rw [flatten_split, Nat.zero_max] at hmax
  exact congrArg shiftOne hmax

/-- Members whose offsets are numbers of 32 bits are laid out one after another, with padding
at the starts of groups. -/
theorem computeSectionSizes_laidOut {members : List InputSection}
    (hshift : ∀ isec ∈ members, isec.p2align.toNat ≤ 30)
    (hoffsets : ∀ x ∈ layout members, x.2 < 2 ^ 32) (hend : layoutEnd members < 2 ^ 63) :
    LaidOut members (computeSectionSizes members) := by
  have hflat := flatten_split 10000 members
  have hmem : ∀ g ∈ split 10000 members, ∀ isec ∈ g, isec ∈ members := by
    intro g hg isec h
    rw [← hflat]
    exact List.mem_flatten_of_mem hg h
  have hpos : ∀ g ∈ split 10000 members, ∀ isec ∈ g, 0 < isec.align :=
    fun g _ isec _ => isec.align_pos
  have hdvd : ∀ g ∈ split 10000 members, ∀ isec ∈ g, isec.align ∣ groupAlign g :=
    fun g _ isec h => align_dvd_groupAlign h
  have hshifts : ∀ g ∈ split 10000 members, Shifts g :=
    fun g hg isec h => hshift isec (hmem g hg isec h)
  obtain ⟨hsize, hstored⟩ := @placeAll_eq (split 10000 members) 0 hshifts hend
  have hmap : (computeSectionSizes members).offsets.map (fun x => (x.1, x.2.toNat)) =
      layout members := by
    refine hstored.trans ((List.map_congr_left fun x hx => ?_).trans (List.map_id _))
    rw [Nat.mod_eq_of_lt (hoffsets x hx), id]
  refine ⟨?_, ?_, ?_, ?_, ?_, ?_⟩
  · have hfst := congrArg (List.map Prod.fst) hmap
    rw [layout, placeGroups_map_fst, hflat, List.map_map] at hfst
    exact hfst
  · intro x hx
    have hmem' : (x.1, x.2.toNat) ∈ layout members := hmap ▸ List.mem_map_of_mem hx
    exact dvd_of_mem_placeGroups hpos hdvd hmem'
  · have hpair : (layout members).Pairwise fun x y => x.2 + x.1.size ≤ y.2 :=
      pairwise_placeGroups hpos (fun g _ => groupAlign_pos g) hdvd
    rw [← hmap, List.pairwise_map] at hpair
    exact hpair
  · have hlast : layoutEnd members =
        ((layout members).getLast?.map fun x => x.2 + x.1.size).getD 0 :=
      placeGroupsEnd_eq hpos hdvd (fun g hg => ne_nil_of_mem_split hg) 0
    rw [← hmap, List.getLast?_map, Option.map_map] at hlast
    exact hsize.trans hlast
  · rw [shAddralign_eq, toNat_shiftOne (maxP2align_le hshift)]
  · exact hmap.trans (placeGroups_eq hpos hdvd 0)

def word : InputSection := ⟨4, 2⟩

/-- A function, a literal and a larger object. -/
def smallMembers : List InputSection := [⟨5, 4⟩, ⟨8, 0⟩, ⟨3, 7⟩]

/-- A group of words, and one that begins behind padding. -/
def twoGroups : List InputSection := List.replicate 10000 word ++ smallMembers

theorem split_twoGroups : split 10000 twoGroups = [List.replicate 10000 word, smallMembers] := by
  have hlength : (List.replicate 10000 word).length = 10000 := List.length_replicate
  have hle : 10000 ≤ twoGroups.length := by
    rw [twoGroups, List.length_append, hlength]
    exact Nat.le_add_right _ _
  have hrest : split 10000 smallMembers = [smallMembers] := by
    rw [split, if_neg (by decide), if_neg (by decide)]
  rw [split, if_pos ⟨by decide, hle⟩, twoGroups, List.take_left' hlength,
    List.drop_left' hlength, hrest]

theorem placeEnd_replicate (n k : ℕ) :
    placeEnd align size (4 * k) (List.replicate n word) = 4 * (k + n) := by
  induction n generalizing k with
  | zero => rfl
  | succ n ih =>
    have halign : alignUp (align word) (4 * k) = 4 * k :=
      alignUp_eq_self (align_pos _) (Dvd.intro k rfl)
    have hsize : size word = 4 := rfl
    rw [List.replicate_succ, placeEnd, halign, hsize, ← Nat.mul_succ, ih]
    omega

theorem computeSectionSizes_laidOut_twoGroups :
    LaidOut twoGroups (computeSectionSizes twoGroups) := by
  have hend : placeEnd align size 0 (List.replicate 10000 word) = 40000 :=
    placeEnd_replicate 10000 0
  have hzero : alignUp (groupAlign (List.replicate 10000 word)) 0 = 0 :=
    alignUp_eq_self (groupAlign_pos _) (dvd_zero _)
  refine computeSectionSizes_laidOut ?_ ?_ ?_
  · intro isec h
    rcases List.mem_append.mp h with h | h
    · rw [List.eq_of_mem_replicate h]
      decide
    · exact (by decide : ∀ isec ∈ smallMembers, isec.p2align.toNat ≤ 30) isec h
  · intro x hx
    rw [layout, split_twoGroups, placeGroups, hzero, hend] at hx
    rcases List.mem_append.mp hx with hx | hx
    · have hle := (bounds_of_mem_place (align_pos_all _) hx).2
      omega
    · exact (by decide : ∀ x ∈ placeGroups align size groupAlign 40000 [smallMembers],
        x.2 < 2 ^ 32) x hx
  · rw [layoutEnd, split_twoGroups, placeGroupsEnd, hzero, hend]
    decide

/-- Objects of 4 GiB and of one byte, of which the second has the offset zero too, and an
object whose alignment is the sign of an `int`. -/
theorem not_laidOut_hugeMembers :
    ¬LaidOut [⟨0x100000000, 0⟩, ⟨1, 0⟩] (computeSectionSizes [⟨0x100000000, 0⟩, ⟨1, 0⟩]) ∧
      ¬LaidOut [⟨1, 31⟩] (computeSectionSizes [⟨1, 31⟩]) := by
  constructor
  · intro h
    have hmembers := h.members_eq
    have hapart := h.apart
    generalize (computeSectionSizes [⟨0x100000000, 0⟩, ⟨1, 0⟩]).offsets = offsets at hmembers hapart
    match offsets, hmembers with
    | [(_, first), (_, second)], rfl =>
      have hle := (List.pairwise_cons.mp hapart).1 _ List.mem_cons_self
      have hlt := second.toNat_lt
      have hsize : (⟨0x100000000, 0⟩ : InputSection).size = 0x100000000 := rfl
      simp only [hsize] at hle
      omega
  · intro h
    have haddr := h.shAddralign
    rw [shAddralign_eq] at haddr
    exact absurd haddr (by decide)

end Mold.Elf.SectionSizes
