import Mathlib.Data.Fintype.Pigeonhole
import Mold.Elf.MergedInsert
import Mold.Elf.MergedLayout

/-!
# Merged sections are deterministic

The calls of `insert` for a merged section decide the layout of the section, the order in which
they go on does not.  The shard of a piece is that of its hash value, and its alignment is the
largest that is asked for.  So all runs have the same fragments in each shard, if in different
slots, and `assign_offsets` sorts these.

Offsets have 32 bits: in a section of more than 4 GiB they are cut, and pieces lie over each
other.
-/

namespace Mold.Elf.MergedSection

open Mold.ConcurrentMap Mold.Lib

namespace Inserts

variable {τ π : Type*}

/-! ## The fragments of a shard -/

/-- `map.nbuckets / map.NUM_SHARDS` -/
def shardSize (ins : Inserts τ π) : ℕ := ins.calls.nbuckets.toNat / 16

def liveAt (ins : Inserts τ π) (live : List UInt8 → Bool) (st : State τ π) (idx : ℕ) :
    Option Fragment :=
  match ins.fragmentAt st (UInt64.ofNat idx) with
  | some (key, p2align) => if live key then some ⟨key, p2align⟩ else none
  | none => none

/-- The fragments that `assign_offsets` and `write_to` find in the slots of each shard. -/
def shards (ins : Inserts τ π) (live : List UInt8 → Bool) (st : State τ π) : Shards := fun i =>
  (List.range' (ins.shardSize * i) ins.shardSize).filterMap (ins.liveAt live st)

/-- Calls for the same pieces and alignments, of the same hash function and for a table of the
same size. -/
structure Same (ins ins' : Inserts τ π) : Prop where
  nbuckets : ins.calls.nbuckets = ins'.calls.nbuckets
  hash : ins.calls.hash = ins'.calls.hash
  requested : ∀ piece, ins.requested piece = ins'.requested piece

variable {ins ins' : Inserts τ π} {live : List UInt8 → Bool} {st st' : State τ π}

theorem Same.shardOf_eq (h : Same ins ins') (piece : List UInt8) :
    ins.calls.shardOf piece = ins'.calls.shardOf piece := by
  rw [Calls.shardOf, Calls.shardOf, Calls.firstIdx, Calls.firstIdx, h.hash, h.nbuckets]

variable {frag : Fragment}

theorem liveAt_eq_some_iff {idx : ℕ} :
    ins.liveAt live st idx = some frag ↔
      ins.fragmentAt st (UInt64.ofNat idx) = some (frag.key, frag.p2align) ∧
        live frag.key = true := by
  rw [liveAt]
  cases ins.fragmentAt st (UInt64.ofNat idx) with
  | none => simp
  | some x =>
    by_cases hlive : live x.1 = true
    · simp only [hlive, if_true, Option.some.injEq]
      constructor
      · rintro rfl
        exact ⟨rfl, hlive⟩
      · rintro ⟨rfl, -⟩
        rfl
    · simp only [hlive, Bool.false_eq_true, if_false, reduceCtorEq, Option.some.injEq, false_iff]
      rintro ⟨rfl, hfrag⟩
      exact hlive hfrag

theorem shardSize_pos (ins : Inserts τ π) : 0 < ins.shardSize := by
  obtain ⟨k, hk, -, hbuckets⟩ := ins.nbuckets
  rw [shardSize, hbuckets]
  exact Nat.div_pos (Nat.pow_le_pow_right Nat.two_pos (by omega : 4 ≤ k)) (by decide)

theorem slot_lt {idx : ℕ} (h : idx / ins.shardSize < 16) : idx < 2 ^ 64 := by
  have hmul : ins.shardSize * 16 ≤ ins.calls.nbuckets.toNat := Nat.div_mul_le_self _ _
  have hlt : idx < ins.shardSize * 16 := by
    rw [Nat.mul_comm]
    exact (Nat.div_lt_iff_lt_mul ins.shardSize_pos).mp h
  exact hlt.trans (hmul.trans_lt (UInt64.toNat_lt _))

theorem mem_slots {i idx : ℕ} :
    idx ∈ List.range' (ins.shardSize * i) ins.shardSize ↔ idx / ins.shardSize = i := by
  rw [List.mem_range'_1]
  constructor
  · rintro ⟨hle, hlt⟩
    apply Nat.div_eq_of_lt_le
    · rwa [Nat.mul_comm]
    · rwa [Nat.add_mul, Nat.one_mul, Nat.mul_comm]
  · rintro rfl
    exact ⟨Nat.mul_div_le idx _, Nat.lt_mul_div_succ idx ins.shardSize_pos⟩

variable {i : ℕ}

theorem mem_shards :
    frag ∈ ins.shards live st i ↔
      ∃ idx, idx / ins.shardSize = i ∧ ins.liveAt live st idx = some frag := by
  rw [shards, List.mem_filterMap]
  apply exists_congr
  intro idx
  rw [mem_slots]

section Complete

variable [DecidableEq τ] (hshort : ∀ i, (ins.calls.key i).size < 2 ^ 32)

include hshort

theorem shard_of_fragment (h : ins.Complete st) {idx : UInt64} {piece : List UInt8} {v : UInt8}
    (hfrag : ins.fragmentAt st idx = some (piece, v)) :
    idx.toNat / ins.shardSize = ins.calls.shardOf piece ∧ ins.calls.shardOf piece < 16 := by
  obtain ⟨k, hk, hk', hbuckets⟩ := ins.nbuckets
  have hshard : ins.shardSize = 2 ^ (k - 4) := by
    rw [shardSize, hbuckets]
    exact Nat.pow_div (by omega : 4 ≤ k) Nat.two_pos
  obtain ⟨hholds, -⟩ := fragmentAt_eq_some_iff.mp hfrag
  obtain ⟨-, -, -, n, hpath⟩ := Calls.exists_done_of_holds hshort (inv_of_complete h).map hholds
  have hdiv : idx.toNat / ins.shardSize = ins.calls.shardOf piece := by
    rw [hpath.eq, hshard]
    exact Calls.path_div (by omega) hk' hbuckets piece n
  have hlt : idx.toNat < 2 ^ (k - 4) * 16 := by
    have hsplit : 2 ^ (k - 4) * 16 = 2 ^ k := by
      rw [show 16 = 2 ^ 4 from rfl, ← Nat.pow_add, Nat.sub_add_cancel (by omega)]
    rw [hsplit, hpath.eq]
    exact Calls.path_lt (by omega) hbuckets piece n
  refine ⟨hdiv, ?_⟩
  rw [← hdiv, hshard]
  exact Nat.div_lt_of_lt_mul hlt

theorem mem_shards_iff (h : ins.Complete st) (hi : i < 16) :
    frag ∈ ins.shards live st i ↔
      live frag.key = true ∧ ins.calls.shardOf frag.key = i ∧
        IsGreatest (ins.requested frag.key) frag.p2align := by
  rw [mem_shards]
  constructor
  · rintro ⟨idx, hidx, hlive⟩
    obtain ⟨hfrag, hlive⟩ := liveAt_eq_some_iff.mp hlive
    have hshard := (shard_of_fragment hshort h hfrag).1
    rw [UInt64.toNat_ofNat_of_lt' (slot_lt (hidx ▸ hi)), hidx] at hshard
    exact ⟨hlive, hshard.symm, isGreatest_of_fragment hshort h hfrag⟩
  · rintro ⟨hlive, hshard, hgreatest⟩
    obtain ⟨j, hbytes, -⟩ := hgreatest.1
    obtain ⟨idx, v, hfrag⟩ := exists_fragment hshort h j
    rw [hbytes] at hfrag
    have hgreatest' := isGreatest_of_fragment hshort h hfrag
    obtain rfl := UInt8.le_antisymm (hgreatest.2 hgreatest'.1) (hgreatest'.2 hgreatest.1)
    refine ⟨idx.toNat, ?_, liveAt_eq_some_iff.mpr ⟨?_, hlive⟩⟩
    · rw [← hshard]
      exact (shard_of_fragment hshort h hfrag).1
    · rwa [UInt64.ofNat_toNat]

theorem nodup_keys (live : List UInt8 → Bool) (h : ins.Complete st) :
    ((ins.shards live st).fragments.map Fragment.key).Nodup := by
  rw [Shards.fragments, List.Nodup, List.pairwise_map, List.pairwise_flatMap]
  constructor
  · intro i hi
    rw [shards, List.pairwise_filterMap]
    apply (List.pairwise_lt_range' 1 Nat.one_pos).imp_of_mem
    intro idx idx' hidx hidx' hlt frag hfrag frag' hfrag' hkey
    obtain ⟨hat, -⟩ := liveAt_eq_some_iff.mp hfrag
    obtain ⟨hat', -⟩ := liveAt_eq_some_iff.mp hfrag'
    rw [hkey] at hat
    have hsmall := slot_lt ((mem_slots.mp hidx).trans_lt (List.mem_range.mp hi))
    have hsmall' := slot_lt ((mem_slots.mp hidx').trans_lt (List.mem_range.mp hi))
    have heq := congrArg UInt64.toNat (slot_unique hshort h hat hat')
    rw [UInt64.toNat_ofNat_of_lt' hsmall, UInt64.toNat_ofNat_of_lt' hsmall'] at heq
    exact hlt.ne heq
  · apply List.pairwise_lt_range.imp_of_mem
    intro i j hi hj hij frag hfrag frag' hfrag' hkey
    obtain ⟨-, hshard, -⟩ := (mem_shards_iff hshort h (List.mem_range.mp hi)).mp hfrag
    obtain ⟨-, hshard', -⟩ := (mem_shards_iff hshort h (List.mem_range.mp hj)).mp hfrag'
    rw [hkey] at hshard
    exact hij.ne (hshard.symm.trans hshard')

theorem nodup_shard (h : ins.Complete st) (hi : i < 16) : (ins.shards live st i).Nodup :=
  (List.nodup_flatMap.mp (List.Nodup.of_map _ (nodup_keys hshort live h))).1 i
    (List.mem_range.mpr hi)

theorem shards_perm (h : ins.Complete st) (hsame : Same ins ins')
    (hshort' : ∀ i, (ins'.calls.key i).size < 2 ^ 32) (h' : ins'.Complete st')
    (hi : i < 16) : (ins.shards live st i).Perm (ins'.shards live st' i) := by
  apply (List.perm_ext_iff_of_nodup (nodup_shard hshort h hi) (nodup_shard hshort' h' hi)).mpr
  intro frag
  rw [mem_shards_iff hshort h hi, mem_shards_iff hshort' h' hi, hsame.shardOf_eq, hsame.requested]

end Complete

/-! ## The layout of the section -/

/-- However the calls are interleaved, `assign_offsets` gives each live piece the same offset,
a multiple of the alignments that are asked for it.  The pieces are apart and below `sh_size`,
and `write_to` puts them there, with zeros between them. -/
structure LaidOut [DecidableEq τ] (ins : Inserts τ π) (live : List UInt8 → Bool) : Prop where
  exists_offset : ∀ st, ins.Complete st → ∀ i, live (ins.calls.bytes i) = true →
    ∃ offset, (ins.shards live st).offsetOf (ins.calls.bytes i) = some offset
  deterministic : ∀ (ins' : Inserts τ π) (st st' : State τ π), Same ins ins' →
    ins.Complete st → ins'.Complete st' →
      ∀ piece, (ins.shards live st).offsetOf piece = (ins'.shards live st').offsetOf piece
  aligned : ∀ st, ins.Complete st → ∀ i offset,
    (ins.shards live st).offsetOf (ins.calls.bytes i) = some offset →
      2 ^ (ins.p2align i).toNat ∣ offset
  apart : ∀ st, ins.Complete st → ∀ piece piece' offset offset', piece ≠ piece' →
    (ins.shards live st).offsetOf piece = some offset →
      (ins.shards live st).offsetOf piece' = some offset' →
        offset + piece.length ≤ offset' ∨ offset' + piece'.length ≤ offset
  below : ∀ st, ins.Complete st → ∀ piece offset,
    (ins.shards live st).offsetOf piece = some offset →
      offset + piece.length ≤ (ins.shards live st).shSize
  written : ∀ st, ins.Complete st → ∀ ws mem,
    Interleaving ((List.range 16).map (ins.shards live st).shardWrites) ws →
      ∀ piece offset, (ins.shards live st).offsetOf piece = some offset →
        ∀ k (hk : k < piece.length), applyWrites mem ws (offset + k) = piece[k]
  zeros : ∀ st, ins.Complete st → ∀ ws mem,
    Interleaving ((List.range 16).map (ins.shards live st).shardWrites) ws →
      ∀ a < (ins.shards live st).shSize,
        (∀ piece offset, (ins.shards live st).offsetOf piece = some offset →
          ¬ (offset ≤ a ∧ a < offset + piece.length)) → applyWrites mem ws a = 0

theorem Same.short (h : Same ins ins') (hshort : ∀ i, (ins.calls.key i).size < 2 ^ 32) (i : τ) :
    (ins'.calls.key i).size < 2 ^ 32 := by
  have hlength : ∀ (ins : Inserts τ π) (i : τ),
      (ins.calls.bytes i).length = (ins.calls.key i).size := by
    intro ins i
    rw [Calls.bytes, Calls.bytesAt, List.length_map, List.length_range]
  have hmem : ins'.p2align i ∈ ins.requested (ins'.calls.bytes i) := by
    rw [h.requested]
    exact ⟨i, rfl, rfl⟩
  obtain ⟨j, hbytes, -⟩ := hmem
  rw [← hlength, ← hbytes, hlength]
  exact hshort j

/-- A merged section of at most 4 GiB is laid out right, whatever the interleaving is, if
`1 << p2align` is an `int` for all alignments and the sizes of the pieces have 32 bits. -/
theorem laidOut [DecidableEq τ] (hshort : ∀ i, (ins.calls.key i).size < 2 ^ 32)
    (halign : ∀ i, ins.p2align i ≤ 30)
    (hsize : ∀ st, ins.Complete st → (ins.shards live st).shSize ≤ 2 ^ 32) :
    ins.LaidOut live where
  exists_offset st h i hlive := by
    obtain ⟨idx, v, hfrag⟩ := exists_fragment hshort h i
    have hshard := (shard_of_fragment hshort h hfrag).2
    have hmem : ⟨ins.calls.bytes i, v⟩ ∈ (ins.shards live st).fragments := by
      refine List.mem_flatMap.mpr ⟨_, List.mem_range.mpr hshard, ?_⟩
      exact (mem_shards_iff hshort h hshard).mpr
        ⟨hlive, rfl, isGreatest_of_fragment hshort h hfrag⟩
    obtain ⟨offset, hoffset⟩ := Shards.exists_offset hmem
    exact ⟨offset, (Shards.offsetOf_eq_some_iff (nodup_keys hshort live h)).mpr ⟨_, hoffset, rfl⟩⟩
  deterministic ins' st st' hsame h h' piece := by
    rw [Shards.offsetOf, Shards.offsetOf,
      Shards.offsets_congr fun i hi => shards_perm hshort h hsame (hsame.short hshort) h' hi]
  aligned st h i offset hoffset := by
    obtain ⟨frag, hmem, hkey⟩ :=
      (Shards.offsetOf_eq_some_iff (nodup_keys hshort live h)).mp hoffset
    obtain ⟨j, hj, hfrag⟩ := List.mem_flatMap.mp
      (Shards.map_fst_offsets.mem_iff.mp (List.mem_map_of_mem hmem))
    obtain ⟨-, -, ⟨i', -, hrequested⟩, hupper⟩ :=
      (mem_shards_iff hshort h (List.mem_range.mp hj)).mp hfrag
    have hle : ins.p2align i ≤ frag.p2align := hupper ⟨i, hkey.symm, rfl⟩
    have hle' : frag.p2align ≤ 30 := hrequested ▸ halign i'
    have hbits : frag.p2align.toNat ≤ 32 := (UInt8.le_iff_toNat_le.mp hle').trans (by decide)
    exact (Nat.pow_dvd_pow 2 (UInt8.le_iff_toNat_le.mp hle)).trans (Shards.align_dvd hbits hmem)
  apart st h piece piece' offset offset' hne hoffset hoffset' := by
    have hdistinct := nodup_keys hshort live h
    obtain ⟨frag, hmem, rfl⟩ := (Shards.offsetOf_eq_some_iff hdistinct).mp hoffset
    obtain ⟨frag', hmem', rfl⟩ := (Shards.offsetOf_eq_some_iff hdistinct).mp hoffset'
    have hapart : (frag, offset) ≠ (frag', offset') := by
      rintro heq
      exact hne (congrArg Fragment.key (Prod.mk.inj heq).1)
    rcases rel_or_rel_of_mem (Shards.pairwise_offsets (hsize st h)) hmem hmem' hapart with hor | hor
    · exact hor
    · exact hor.symm
  below st h piece offset hoffset := by
    obtain ⟨frag, hmem, rfl⟩ := (Shards.offsetOf_eq_some_iff (nodup_keys hshort live h)).mp hoffset
    exact Shards.offset_add_size_le (hsize st h) hmem
  written st h ws mem hws piece offset hoffset k hk := by
    have hdistinct := nodup_keys hshort live h
    obtain ⟨frag, hmem, rfl⟩ := (Shards.offsetOf_eq_some_iff hdistinct).mp hoffset
    exact Shards.applyWrites_piece hdistinct (hsize st h) hws mem hmem hk
  zeros st h ws mem hws a ha hgap := by
    have hdistinct := nodup_keys hshort live h
    apply Shards.applyWrites_gap hdistinct hws mem ha
    intro x hx
    exact hgap x.1.key x.2 ((Shards.offsetOf_eq_some_iff hdistinct).mpr ⟨x.1, hx, rfl⟩)

/-- A string that is inserted with two alignments, and one in the next shard. -/
def twoStrings : Inserts (Fin 3) Bool where
  calls :=
    { nbuckets := minNbuckets
      mem := fun p k => if k = 0 then (if p then 200 else 97) else 0
      hash := fun l => (l.headD 0).toUInt64
      key := fun i => ⟨i.val == 2, 2⟩
      val := fun _ => 0 }
  p2align i := if i.val = 0 then 1 else if i.val = 1 then 3 else 0
  constructed _ := rfl
  nbuckets := ⟨11, by decide, by decide, rfl⟩

def twoStringsShards : Shards := fun i =>
  if i = 0 then [⟨[97, 0], 3⟩] else if i = 1 then [⟨[200, 0], 0⟩] else []

theorem isGreatest_twoStrings {piece : List UInt8} {v : UInt8} :
    IsGreatest (twoStrings.requested piece) v ↔
      piece = [97, 0] ∧ v = 3 ∨ piece = [200, 0] ∧ v = 0 := by
  constructor
  · rintro ⟨⟨i, hkey, hp2align⟩, hupper⟩
    obtain rfl | rfl | rfl := (by decide : ∀ i : Fin 3, i = 0 ∨ i = 1 ∨ i = 2) i
    · have hle : (3 : UInt8) ≤ v := hupper ⟨1, hkey, rfl⟩
      rw [← hp2align] at hle
      exact absurd hle (by decide)
    · exact Or.inl ⟨hkey.symm, hp2align.symm⟩
    · exact Or.inr ⟨hkey.symm, hp2align.symm⟩
  · rintro (⟨rfl, rfl⟩ | ⟨rfl, rfl⟩)
    · refine ⟨⟨1, by decide, rfl⟩, ?_⟩
      rintro _ ⟨i, -, rfl⟩
      revert i
      decide
    · refine ⟨⟨2, by decide, rfl⟩, ?_⟩
      rintro _ ⟨i, hkey, rfl⟩
      revert i
      decide

theorem twoStrings_shards_perm {st : State (Fin 3) Bool} (h : twoStrings.Complete st)
    (hi : i < 16) : (twoStrings.shards (fun _ => true) st i).Perm (twoStringsShards i) := by
  have hshort : ∀ i, (twoStrings.calls.key i).size < 2 ^ 32 := by decide
  have hnodup : (twoStringsShards i).Nodup := by
    rw [twoStringsShards]
    split_ifs <;> simp
  apply (List.perm_ext_iff_of_nodup (nodup_shard hshort h hi) hnodup).mpr
  rintro ⟨key, v⟩
  have hfirst : twoStrings.calls.shardOf [97, 0] = 0 := by decide
  have hsecond : twoStrings.calls.shardOf [200, 0] = 1 := by decide
  rw [mem_shards_iff hshort h hi, isGreatest_twoStrings, twoStringsShards]
  constructor
  · rintro ⟨-, rfl, ⟨rfl, rfl⟩ | ⟨rfl, rfl⟩⟩
    · rw [if_pos hfirst]
      exact List.mem_singleton_self _
    · rw [hsecond]
      exact List.mem_singleton_self _
  · intro hmem
    split_ifs at hmem with hzero hone
    · obtain ⟨rfl, rfl⟩ := Fragment.mk.inj (List.mem_singleton.mp hmem)
      exact ⟨rfl, hfirst.trans hzero.symm, Or.inl ⟨rfl, rfl⟩⟩
    · obtain ⟨rfl, rfl⟩ := Fragment.mk.inj (List.mem_singleton.mp hmem)
      exact ⟨rfl, hsecond.trans hone.symm, Or.inr ⟨rfl, rfl⟩⟩
    · exact absurd hmem List.not_mem_nil

theorem twoStringsShards_shSize : twoStringsShards.shSize = 16 := by
  have hsorted : ∀ i, sorted (twoStringsShards i) = twoStringsShards i := by
    intro i
    rw [sorted, twoStringsShards]
    split_ifs
    case neg => exact List.mergeSort_nil
    all_goals exact List.mergeSort_singleton _
  have hp2align : twoStringsShards.p2align = 3 := by
    simp only [Shards.p2align, maxP2align, hsorted]
    rfl
  have hnext : ∀ i, twoStringsShards.shardOffset (i + 2) = 16 := by
    intro i
    induction i with
    | zero =>
      rw [Shards.shardOffset, Shards.shardOffset, hp2align, sizes, sizes, hsorted, hsorted]
      rfl
    | succ i ih =>
      have hnil : twoStringsShards (i + 2) = [] := rfl
      rw [Shards.shardOffset, hp2align, sizes, hsorted, ih, hnil]
      rfl
  exact hnext 14

theorem laidOut_twoStrings :
    (∀ i, (twoStrings.calls.key i).size < 2 ^ 32) ∧ (∀ i, twoStrings.p2align i ≤ 30) ∧
      (∀ st, twoStrings.Complete st → (twoStrings.shards (fun _ => true) st).shSize ≤ 2 ^ 32) ∧
        twoStrings.LaidOut fun _ => true := by
  have hshort : ∀ i, (twoStrings.calls.key i).size < 2 ^ 32 := by decide
  have halign : ∀ i, twoStrings.p2align i ≤ 30 := by decide
  have hsize : ∀ st, twoStrings.Complete st →
      (twoStrings.shards (fun _ => true) st).shSize ≤ 2 ^ 32 := by
    intro st h
    rw [Shards.shSize, Shards.shardOffset_congr (fun i hi => twoStrings_shards_perm h hi)
      (le_refl 16), ← Shards.shSize, twoStringsShards_shSize]
    decide
  exact ⟨hshort, halign, hsize, laidOut hshort halign hsize⟩

/-- Five calls, for strings that are to be aligned to 1 GiB. -/
def gigabytes : Inserts (Fin 5) (Fin 5) where
  calls :=
    { nbuckets := minNbuckets
      mem := fun p k => if k = 0 then 97 + UInt8.ofNat p else 0
      hash := fun l => (l.headD 0).toUInt64
      key := fun i => ⟨i, 2⟩
      val := fun _ => 0 }
  p2align _ := 30
  constructed _ := rfl
  nbuckets := ⟨11, by decide, by decide, rfl⟩

/-- There are only four places for them. -/
theorem not_laidOut_gigabytes : ¬ gigabytes.LaidOut fun _ => true := by
  intro h
  have hapart : Function.Injective fun i =>
      gigabytes.calls.firstIdx (gigabytes.calls.bytes i) := by decide
  obtain ⟨st, hst⟩ := exists_complete (List.nodup_finRange 5) List.mem_finRange hapart
  have hplaces : ∀ i, ∃ n : Fin 4, (gigabytes.shards (fun _ => true) st).offsetOf
      (gigabytes.calls.bytes i) = some (2 ^ 30 * n.val) := by
    intro i
    obtain ⟨offset, hoffset⟩ := h.exists_offset st hst i rfl
    obtain ⟨n, rfl⟩ := h.aligned st hst i offset hoffset
    have hlt : 2 ^ 30 * n < 2 ^ 32 := Shards.offsetOf_lt hoffset
    exact ⟨⟨n, by omega⟩, hoffset⟩
  choose n hn using hplaces
  obtain ⟨i, j, hij, heq⟩ := Fintype.exists_ne_map_eq_of_card_lt n (by decide)
  have hbytes : gigabytes.calls.bytes i ≠ gigabytes.calls.bytes j := by
    intro hbytes
    exact hij (hapart (congrArg gigabytes.calls.firstIdx hbytes))
  have hor := h.apart st hst _ _ _ _ hbytes (hn i) (hn j)
  rw [heq] at hor
  have hlength : ∀ i, (gigabytes.calls.bytes i).length = 2 := by decide
  rw [hlength, hlength] at hor
  omega

end Inserts

end Mold.Elf.MergedSection
