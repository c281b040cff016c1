import Mathlib.Data.Prod.Lex
import Mold.Lib.KeyedList
import Mold.Lib.Layout
import Mold.Lib.Interleaving
import Mold.Lib.StableSort

/-!
# The layout of a merged section

`MergedSection::assign_offsets` sorts the live fragments of each shard and lays them out,
first from offset 0 of their shard.  The shards follow each other at multiples of the largest
alignment.  Offsets have 32 bits.  `write_to` fills the shards with zeros and copies the pieces
to their offsets, a worker for each shard.

The offsets do not depend on the order of the fragments in the slots.
-/

namespace Mold.Elf.MergedSection

open Mold.Lib

structure Fragment where
  key : List UInt8
  p2align : UInt8
  deriving DecidableEq, Repr

namespace Fragment

/-- `1 << frag.p2align` -/
def align (frag : Fragment) : ℕ := 2 ^ frag.p2align.toNat

def size (frag : Fragment) : ℕ := frag.key.length

def sortKey (frag : Fragment) : ℕ ×ₗ ℕ ×ₗ List ℕ :=
  toLex (frag.p2align.toNat, toLex (frag.key.length, frag.key.map UInt8.toNat))

theorem sortKey_injective : Function.Injective sortKey := by
  intro a b h
  obtain ⟨halign, hrest⟩ := Prod.mk.inj (toLex.injective h)
  obtain ⟨-, hkey⟩ := Prod.mk.inj (toLex.injective hrest)
  have hkey' := List.map_injective_iff.mpr (fun _ _ => UInt8.toNat_inj.mp) hkey
  have halign' := UInt8.toNat_inj.mp halign
  cases a
  cases b
  congr

theorem align_pos (frag : Fragment) : 0 < frag.align := Nat.two_pow_pos _

end Fragment

/-! ## A shard -/

/-- The fragments of a shard in the order of `parallel_sort`. -/
def sorted (frags : List Fragment) : List Fragment :=
  frags.mergeSort fun a b => decide (a.sortKey ≤ b.sortKey)

def placed (frags : List Fragment) : List (Fragment × ℕ) :=
  place Fragment.align Fragment.size 0 (sorted frags)

/-- The element of `sizes` for a shard. -/
def sizes (frags : List Fragment) : ℕ :=
  placeEnd Fragment.align Fragment.size 0 (sorted frags)

/-- The element of `max_p2aligns` for a shard. -/
def maxP2align (frags : List Fragment) : ℕ :=
  (sorted frags).foldl (fun m frag => max m frag.p2align.toNat) 0

theorem sorted_eq_of_perm {frags frags' : List Fragment} (h : frags.Perm frags') :
    sorted frags = sorted frags' := by
  have hperm : (sorted frags).Perm (sorted frags') :=
    ((List.mergeSort_perm frags _).trans h).trans (List.mergeSort_perm frags' _).symm
  apply hperm.eq_of_pairwise
  · intro a b _ _ hab hba
    exact Fragment.sortKey_injective (le_antisymm hab hba)
  · exact pairwise_mergeSort_key Fragment.sortKey frags
  · exact pairwise_mergeSort_key Fragment.sortKey frags'

theorem map_fst_placed (frags : List Fragment) : ((placed frags).map Prod.fst).Perm frags := by
  rw [placed, place_map_fst]
  exact List.mergeSort_perm frags _

variable {x : Fragment × ℕ} {frags : List Fragment}

theorem mem_of_mem_placed (hx : x ∈ placed frags) : x.1 ∈ frags :=
  (map_fst_placed frags).mem_iff.mp (List.mem_map_of_mem hx)

variable {frag : Fragment}

theorem le_maxP2align (hfrag : frag ∈ frags) : frag.p2align.toNat ≤ maxP2align frags :=
  (le_foldl_max (fun frag : Fragment => frag.p2align.toNat) (sorted frags) 0).2 frag
    ((List.mergeSort_perm frags _).mem_iff.mpr hfrag)

/-! ## All shards -/

abbrev Shards := ℕ → List Fragment

namespace Shards

variable (shards : Shards)

/-- `p2align`, the largest of `max_p2aligns` -/
def p2align : ℕ := (List.range 16).foldl (fun m i => max m (maxP2align (shards i))) 0

def shardOffset : ℕ → ℕ
  | 0 => 0
  | i + 1 => alignUp (2 ^ shards.p2align) (shardOffset i + sizes (shards i))

def shSize : ℕ := shards.shardOffset 16

def wideOffsets : List (Fragment × ℕ) :=
  (List.range 16).flatMap fun i =>
    (placed (shards i)).map fun x => (x.1, x.2 + shards.shardOffset i)

/-- The fragments with the offsets that `assign_offsets` stores. -/
def offsets : List (Fragment × ℕ) :=
  (List.range 16).flatMap fun i =>
    (placed (shards i)).map fun x => (x.1, (x.2 % 2 ^ 32 + shards.shardOffset i) % 2 ^ 32)

def offsetOf (piece : List UInt8) : Option ℕ :=
  (shards.offsets.find? fun x => x.1.key = piece).map Prod.snd

/-- The `memcpy` of `write_to` for a fragment. -/
def pieceWrites (frag : Fragment) : List (ℕ × UInt8) :=
  match shards.offsetOf frag.key with
  | some offset => copyWrites offset frag.key
  | none => []

/-- What the worker of `write_to` for a shard writes. -/
def shardWrites (i : ℕ) : List (ℕ × UInt8) :=
  copyWrites (shards.shardOffset i)
      (List.replicate (shards.shardOffset (i + 1) - shards.shardOffset i) 0) ++
    (shards i).flatMap shards.pieceWrites

def fragments : List Fragment := (List.range 16).flatMap shards

variable {shards}

/-! ### Offsets -/

theorem offsets_eq_map : shards.offsets = shards.wideOffsets.map fun x => (x.1, x.2 % 2 ^ 32) := by
  rw [offsets, wideOffsets, List.map_flatMap]
  congr 1
  funext i
  rw [List.map_map]
  apply List.map_congr_left
  intro x _
  rw [Function.comp_apply, Nat.mod_add_mod]

theorem map_fst_offsets : (shards.offsets.map Prod.fst).Perm shards.fragments := by
  rw [offsets, List.map_flatMap, fragments]
  apply List.Perm.flatMap_left
  intro i _
  rw [List.map_map]
  exact map_fst_placed (shards i)

theorem mem_wideOffsets (hx : x ∈ shards.wideOffsets) :
    ∃ i < 16, ∃ offset, (x.1, offset) ∈ placed (shards i) ∧
      x.2 = offset + shards.shardOffset i := by
  obtain ⟨i, hi, hx⟩ := List.mem_flatMap.mp hx
  obtain ⟨y, hy, rfl⟩ := List.mem_map.mp hx
  exact ⟨i, List.mem_range.mp hi, y.2, hy, rfl⟩

theorem p2align_pos : 0 < 2 ^ shards.p2align := Nat.two_pow_pos _

theorem shardOffset_add_sizes_le (i : ℕ) :
    shards.shardOffset i + sizes (shards i) ≤ shards.shardOffset (i + 1) :=
  le_alignUp p2align_pos _

theorem shardOffset_mono : Monotone shards.shardOffset :=
  monotone_nat_of_le_succ fun i =>
    (Nat.le_add_right _ _).trans (shardOffset_add_sizes_le i)

theorem dvd_shardOffset (i : ℕ) : 2 ^ shards.p2align ∣ shards.shardOffset i := by
  cases i with
  | zero => exact Nat.dvd_zero _
  | succ i => exact dvd_alignUp _ _

theorem bounds_of_mem_placed (hx : x ∈ placed frags) : x.2 + x.1.size ≤ sizes frags :=
  (bounds_of_mem_place (fun frag _ => frag.align_pos) hx).2

variable {i : ℕ} {offset : ℕ}

theorem bounds_of_mem_shard (hx : (frag, offset) ∈ placed (shards i)) :
    offset + shards.shardOffset i + frag.size ≤ shards.shardOffset (i + 1) := by
  have hbounds := bounds_of_mem_placed hx
  have hnext := shards.shardOffset_add_sizes_le i
  dsimp only at hbounds
  omega

theorem le_shSize (hx : x ∈ shards.wideOffsets) : x.2 + x.1.size ≤ shards.shSize := by
  obtain ⟨i, hi, offset, hplaced, hoffset⟩ := mem_wideOffsets hx
  rw [hoffset]
  exact (bounds_of_mem_shard hplaced).trans (shardOffset_mono hi)

theorem align_dvd_wide (hx : x ∈ shards.wideOffsets) : x.1.align ∣ x.2 := by
  obtain ⟨i, hi, offset, hplaced, hoffset⟩ := mem_wideOffsets hx
  have hshard : maxP2align (shards i) ≤ shards.p2align :=
    (le_foldl_max (fun i => maxP2align (shards i)) _ 0).2 i (List.mem_range.mpr hi)
  have hle : x.1.p2align.toNat ≤ shards.p2align :=
    (le_maxP2align (mem_of_mem_placed hplaced)).trans hshard
  rw [hoffset]
  apply Nat.dvd_add
  · exact dvd_of_mem_place hplaced
  · exact (Nat.pow_dvd_pow 2 hle).trans (dvd_shardOffset i)

theorem pairwise_wideOffsets : shards.wideOffsets.Pairwise fun x y => x.2 + x.1.size ≤ y.2 := by
  rw [wideOffsets, List.pairwise_flatMap]
  constructor
  · intro i _
    rw [List.pairwise_map]
    have hplace : (placed (shards i)).Pairwise fun x y => x.2 + x.1.size ≤ y.2 :=
      pairwise_place fun frag _ => frag.align_pos
    apply hplace.imp
    intro x y hxy
    dsimp only
    omega
  · apply List.pairwise_lt_range.imp
    intro i j hij x hx y hy
    obtain ⟨x', hx', rfl⟩ := List.mem_map.mp hx
    obtain ⟨y', -, rfl⟩ := List.mem_map.mp hy
    have hend := bounds_of_mem_shard hx'
    have hnext : shards.shardOffset (i + 1) ≤ shards.shardOffset j := shardOffset_mono hij
    dsimp only
    omega

theorem offset_lt (hx : x ∈ shards.offsets) : x.2 < 2 ^ 32 := by
  rw [offsets_eq_map] at hx
  obtain ⟨y, -, rfl⟩ := List.mem_map.mp hx
  exact Nat.mod_lt _ (by decide)

theorem offsetOf_lt {piece : List UInt8}
    (h : shards.offsetOf piece = some offset) : offset < 2 ^ 32 := by
  obtain ⟨x, hfind, rfl⟩ := Option.map_eq_some_iff.mp h
  exact offset_lt (List.mem_of_find?_eq_some hfind)

/-! ### Slots in another order -/

section Congr

variable {shards' : Shards} (hperm : ∀ i < 16, (shards i).Perm (shards' i))

include hperm

theorem p2align_congr : shards.p2align = shards'.p2align := by
  rw [p2align, p2align]
  apply List.foldl_ext
  intro m i hi
  rw [maxP2align, maxP2align, sorted_eq_of_perm (hperm i (List.mem_range.mp hi))]

theorem shardOffset_congr (hi : i ≤ 16) : shards.shardOffset i = shards'.shardOffset i := by
  induction i with
  | zero => rfl
  | succ i ih =>
    rw [shardOffset, shardOffset, ih (Nat.le_of_succ_le hi), p2align_congr hperm, sizes, sizes,
      sorted_eq_of_perm (hperm i hi)]

theorem offsets_congr : shards.offsets = shards'.offsets := by
  rw [offsets, offsets]
  apply List.flatMap_congr
  intro i hi
  have hi' := List.mem_range.mp hi
  rw [placed, placed, sorted_eq_of_perm (hperm i hi'), shardOffset_congr hperm hi'.le]

end Congr

/-! ### Offsets of 32 bits -/

section Narrow

variable (hsize : shards.shSize ≤ 2 ^ 32)

include hsize

theorem offset_cases (hx : x ∈ shards.wideOffsets) :
    x.2 % 2 ^ 32 = x.2 ∨ x.2 % 2 ^ 32 = 0 ∧ x.1.size = 0 := by
  have hle := (le_shSize hx).trans hsize
  rcases Nat.lt_or_ge x.2 (2 ^ 32) with hlt | hge
  · exact Or.inl (Nat.mod_eq_of_lt hlt)
  · have hoffset : x.2 = 2 ^ 32 := by omega
    rw [hoffset]
    exact Or.inr ⟨Nat.mod_self _, by omega⟩

theorem offset_add_size_le (hx : x ∈ shards.offsets) : x.2 + x.1.size ≤ shards.shSize := by
  rw [offsets_eq_map] at hx
  obtain ⟨y, hy, rfl⟩ := List.mem_map.mp hx
  have hle := le_shSize hy
  dsimp only
  rcases offset_cases hsize hy with hsame | ⟨hzero, hempty⟩
  · rwa [hsame]
  · rw [hzero, hempty]
    exact Nat.zero_le _

theorem pairwise_offsets :
    shards.offsets.Pairwise fun x y => x.2 + x.1.size ≤ y.2 ∨ y.2 + y.1.size ≤ x.2 := by
  rw [offsets_eq_map, List.pairwise_map]
  apply (@pairwise_wideOffsets shards).imp_of_mem
  intro x y hx hy hxy
  dsimp only
  rcases offset_cases hsize hx with hxsame | ⟨hxzero, hxempty⟩
  · rcases offset_cases hsize hy with hysame | ⟨hyzero, hyempty⟩
    · rw [hxsame, hysame]
      exact Or.inl hxy
    · rw [hyzero, hyempty]
      exact Or.inr (Nat.zero_le _)
  · rw [hxzero, hxempty]
    exact Or.inl (Nat.zero_le _)

omit hsize in
theorem align_dvd (halign : x.1.p2align.toNat ≤ 32)
    (hx : x ∈ shards.offsets) : x.1.align ∣ x.2 := by
  rw [offsets_eq_map] at hx
  obtain ⟨y, hy, rfl⟩ := List.mem_map.mp hx
  have hbits : y.1.align ∣ 2 ^ 32 := Nat.pow_dvd_pow 2 halign
  exact (Nat.dvd_mod_iff hbits).mpr (align_dvd_wide hy)

end Narrow

/-! ### Pieces -/

section Distinct

variable (hdistinct : (shards.fragments.map Fragment.key).Nodup)

include hdistinct

theorem nodup_keys_offsets : (shards.offsets.map fun x => x.1.key).Nodup := by
  have hperm := (@map_fst_offsets shards).map Fragment.key
  rw [List.map_map] at hperm
  exact hperm.nodup_iff.mpr hdistinct

theorem offsetOf_eq_some_iff {piece : List UInt8} :
    shards.offsetOf piece = some offset ↔
      ∃ frag, (frag, offset) ∈ shards.offsets ∧ frag.key = piece := by
  rw [offsetOf, Option.map_eq_some_iff]
  constructor
  · rintro ⟨x, hfind, rfl⟩
    have hkey := List.find?_some hfind
    exact ⟨x.1, List.mem_of_find?_eq_some hfind, of_decide_eq_true hkey⟩
  · rintro ⟨frag, hmem, rfl⟩
    exact ⟨(frag, offset), find?_of_nodup_map (nodup_keys_offsets hdistinct) hmem, rfl⟩

omit hdistinct in
theorem exists_offset (hfrag : frag ∈ shards.fragments) :
    ∃ offset, (frag, offset) ∈ shards.offsets := by
  obtain ⟨x, hx, rfl⟩ := List.mem_map.mp (map_fst_offsets.mem_iff.mpr hfrag)
  exact ⟨x.2, hx⟩

end Distinct

/-! ### Writes -/

def Covers (x : Fragment × ℕ) (a : ℕ) : Prop := x.2 ≤ a ∧ a < x.2 + x.1.size

theorem exists_shard {a n : ℕ} (ha : a < shards.shardOffset n) :
    ∃ i < n, shards.shardOffset i ≤ a ∧ a < shards.shardOffset (i + 1) := by
  induction n with
  | zero => exact absurd ha (Nat.not_lt_zero a)
  | succ n ih =>
    rcases Nat.lt_or_ge a (shards.shardOffset n) with hlt | hge
    · obtain ⟨i, hi, hrange⟩ := ih hlt
      exact ⟨i, hi.trans (Nat.lt_succ_self n), hrange⟩
    · exact ⟨n, Nat.lt_succ_self n, hge, ha⟩

theorem shard_unique {a i j : ℕ} (hi : shards.shardOffset i ≤ a)
    (hi' : a < shards.shardOffset (i + 1)) (hj : shards.shardOffset j ≤ a)
    (hj' : a < shards.shardOffset (j + 1)) : i = j := by
  rcases Nat.lt_trichotomy i j with hlt | heq | hgt
  · have hmono : shards.shardOffset (i + 1) ≤ shards.shardOffset j := shardOffset_mono hlt
    omega
  · exact heq
  · have hmono : shards.shardOffset (j + 1) ≤ shards.shardOffset i := shardOffset_mono hgt
    omega

theorem lastWrite_zeros (a i : ℕ) :
    lastWrite a (copyWrites (shards.shardOffset i)
        (List.replicate (shards.shardOffset (i + 1) - shards.shardOffset i) (0 : UInt8))) =
      if shards.shardOffset i ≤ a ∧ a < shards.shardOffset (i + 1) then some 0 else none := by
  rw [lastWrite_copyWrites, List.getElem?_replicate]
  by_cases hle : shards.shardOffset i ≤ a
  · rw [if_pos hle]
    apply if_congr _ rfl rfl
    omega
  · rw [if_neg hle, if_neg fun h => hle h.1]

section Writes

variable (hdistinct : (shards.fragments.map Fragment.key).Nodup) (hsize : shards.shSize ≤ 2 ^ 32)

include hdistinct in
theorem lastWrite_pieceWrites (hx : x ∈ shards.offsets) (a : ℕ) :
    lastWrite a (shards.pieceWrites x.1) = if x.2 ≤ a then x.1.key[a - x.2]? else none := by
  have hoffset : shards.offsetOf x.1.key = some x.2 :=
    (offsetOf_eq_some_iff hdistinct).mpr ⟨x.1, hx, rfl⟩
  rw [pieceWrites, hoffset]
  exact lastWrite_copyWrites a x.2 x.1.key

variable {a : ℕ}

include hdistinct in
theorem lastWrite_pieceWrites_of_not_covers (hx : x ∈ shards.offsets)
    (hcovers : ¬ Covers x a) : lastWrite a (shards.pieceWrites x.1) = none := by
  rw [lastWrite_pieceWrites hdistinct hx]
  by_cases hle : x.2 ≤ a
  · rw [if_pos hle, List.getElem?_eq_none_iff]
    have hend : ¬ a < x.2 + x.1.key.length := fun hlt => hcovers ⟨hle, hlt⟩
    omega
  · exact if_neg hle

theorem exists_placed (hi : i < 16) (hfrag : frag ∈ shards i) :
    ∃ offset, (frag, offset) ∈ placed (shards i) ∧
      (frag, (offset % 2 ^ 32 + shards.shardOffset i) % 2 ^ 32) ∈ shards.offsets := by
  obtain ⟨x, hx, rfl⟩ := List.mem_map.mp ((map_fst_placed (shards i)).mem_iff.mpr hfrag)
  exact ⟨x.2, hx, List.mem_flatMap.mpr
    ⟨i, List.mem_range.mpr hi, List.mem_map.mpr ⟨x, hx, rfl⟩⟩⟩

include hsize

theorem eq_of_covers {x y : Fragment × ℕ} (hx : x ∈ shards.offsets)
    (hy : y ∈ shards.offsets) (hcovers : Covers x a) (hcovers' : Covers y a) : x = y := by
  by_contra hne
  obtain ⟨hle, hlt⟩ := hcovers
  obtain ⟨hle', hlt'⟩ := hcovers'
  rcases rel_or_rel_of_mem (pairwise_offsets hsize) hx hy hne with h | h
  · omega
  · omega

theorem shard_of_covers (hi : i < 16) {offset a : ℕ} (hplaced : (frag, offset) ∈ placed (shards i))
    (hcovers : Covers (frag, (offset % 2 ^ 32 + shards.shardOffset i) % 2 ^ 32) a) :
    shards.shardOffset i ≤ a ∧ a < shards.shardOffset (i + 1) := by
  have hbounds := bounds_of_mem_shard hplaced
  have hnext : shards.shardOffset (i + 1) ≤ 2 ^ 32 := (shardOffset_mono hi).trans hsize
  obtain ⟨hle, hlt⟩ := hcovers
  rw [Nat.mod_add_mod] at hle hlt
  dsimp only at hle hlt
  omega

include hdistinct

theorem lastWrite_piece (hx : x ∈ shards.offsets) (hcovers : Covers x a) (hi : i < 16) :
    lastWrite a (shards.shardWrites i) =
      if x.1 ∈ shards i then x.1.key[a - x.2]? else none := by
  have hbyte : lastWrite a (shards.pieceWrites x.1) = x.1.key[a - x.2]? := by
    rw [lastWrite_pieceWrites hdistinct hx, if_pos hcovers.1]
  have hothers : ∀ frag ∈ shards i, frag ≠ x.1 → lastWrite a (shards.pieceWrites frag) = none := by
    intro frag hfrag hne
    obtain ⟨offset, -, hmem⟩ := exists_placed hi hfrag
    apply lastWrite_pieceWrites_of_not_covers hdistinct hmem
    intro hcovers'
    exact hne (congrArg Prod.fst (eq_of_covers hsize hmem hx hcovers' hcovers))
  have hinter := Interleaving.flatten ((shards i).map shards.pieceWrites)
  rw [shardWrites, lastWrite_append, lastWrite_zeros, List.flatMap_def]
  by_cases hmem : x.1 ∈ shards i
  · have hlt : a - x.2 < x.1.key.length := Nat.sub_lt_left_of_lt_add hcovers.1 hcovers.2
    have hpieces := lastWrite_eq_some hinter (List.forall_mem_map.mpr fun frag hfrag => by
      by_cases heq : frag = x.1
      · rw [heq, hbyte]
        exact Or.inr (List.getElem?_eq_getElem hlt)
      · exact Or.inl (hothers frag hfrag heq))
      ⟨_, List.mem_map_of_mem hmem, hbyte.trans (List.getElem?_eq_getElem hlt)⟩
    rw [hpieces, if_pos hmem, Option.some_or, List.getElem?_eq_getElem hlt]
  · have hpieces := lastWrite_eq_none hinter (List.forall_mem_map.mpr fun frag hfrag =>
      hothers frag hfrag fun heq => hmem (heq ▸ hfrag))
    rw [hpieces, if_neg hmem, Option.none_or]
    apply if_neg
    -- The byte is in the range of the shard that the piece is in.
    rintro ⟨hle, hlt⟩
    obtain ⟨j, hj, hxj⟩ := List.mem_flatMap.mp hx
    obtain ⟨y, hy, rfl⟩ := List.mem_map.mp hxj
    obtain ⟨hle', hlt'⟩ := shard_of_covers hsize (List.mem_range.mp hj) hy hcovers
    obtain rfl := shard_unique hle hlt hle' hlt'
    have hyi := mem_of_mem_placed hy
    exact hmem hyi

omit hsize in
theorem lastWrite_gap (hgap : ∀ x ∈ shards.offsets, ¬ Covers x a) (hi : i < 16) :
    lastWrite a (shards.shardWrites i) =
      if shards.shardOffset i ≤ a ∧ a < shards.shardOffset (i + 1) then some 0 else none := by
  have hpieces := lastWrite_eq_none (Interleaving.flatten ((shards i).map shards.pieceWrites))
    (List.forall_mem_map.mpr fun frag hfrag => by
      obtain ⟨offset, -, hmem⟩ := exists_placed hi hfrag
      exact lastWrite_pieceWrites_of_not_covers hdistinct hmem (hgap _ hmem))
  rw [shardWrites, lastWrite_append, lastWrite_zeros, List.flatMap_def, hpieces, Option.none_or]

variable {ws : List (ℕ × UInt8)}
  (hws : Interleaving ((List.range 16).map shards.shardWrites) ws) (mem : ℕ → UInt8)

include hws

theorem applyWrites_piece (hx : x ∈ shards.offsets) {k : ℕ}
    (hk : k < x.1.key.length) : applyWrites mem ws (x.2 + k) = x.1.key[k] := by
  have hcovers : Covers x (x.2 + k) := ⟨Nat.le_add_right _ _, Nat.add_lt_add_left hk _⟩
  have hbyte : x.1.key[x.2 + k - x.2]? = some x.1.key[k] := by
    rw [Nat.add_sub_cancel_left, List.getElem?_eq_getElem hk]
  have hlast : lastWrite (x.2 + k) ws = some x.1.key[k] := by
    apply lastWrite_eq_some hws
    · intro l hl
      obtain ⟨i, hi, rfl⟩ := List.mem_map.mp hl
      rw [lastWrite_piece hdistinct hsize hx hcovers (List.mem_range.mp hi), hbyte]
      split
      case isTrue => exact Or.inr rfl
      case isFalse => exact Or.inl rfl
    · obtain ⟨i, hi, hxi⟩ := List.mem_flatMap.mp hx
      obtain ⟨y, hy, rfl⟩ := List.mem_map.mp hxi
      refine ⟨_, List.mem_map_of_mem hi, ?_⟩
      rw [lastWrite_piece hdistinct hsize hx hcovers (List.mem_range.mp hi), hbyte]
      exact if_pos (mem_of_mem_placed hy)
  rw [applyWrites_apply, hlast]
  rfl

omit hsize in
theorem applyWrites_gap (ha : a < shards.shSize)
    (hgap : ∀ x ∈ shards.offsets, ¬ Covers x a) : applyWrites mem ws a = 0 := by
  have hlast : lastWrite a ws = some 0 := by
    apply lastWrite_eq_some hws
    · intro l hl
      obtain ⟨i, hi, rfl⟩ := List.mem_map.mp hl
      rw [lastWrite_gap hdistinct hgap (List.mem_range.mp hi)]
      split
      case isTrue => exact Or.inr rfl
      case isFalse => exact Or.inl rfl
    · obtain ⟨i, hi, hrange⟩ := exists_shard ha
      refine ⟨_, List.mem_map_of_mem (List.mem_range.mpr hi), ?_⟩
      rw [lastWrite_gap hdistinct hgap hi]
      exact if_pos hrange
  rw [applyWrites_apply, hlast]
  rfl

end Writes

end Shards

end Mold.Elf.MergedSection
