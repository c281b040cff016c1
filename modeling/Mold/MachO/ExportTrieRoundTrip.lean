import Mold.Lib.StableSort
import Mold.MachO.ExportTrieLayout

/-!
# Reading the export trie back

If every node is found at its offset, a walk from a node finds the entries of
its subtrie.  Together with the layout this gives the round trip for addresses
below `2 ^ 63`.  From there on `uleb_size` is one byte short, and the round
trip fails as soon as such an address belongs to a name that no other name
extends.
-/

namespace Mold.MachO.ExportTrie

open Mold.Lib Mold.Common

theorem readString_append {label : List Byte} (h : 0 ∉ label) (rest : List Byte) :
    readString (label ++ 0 :: rest) = some (label, rest) := by
  have hne : ∀ b ∈ label, decide (b ≠ 0) = true := by
    intro b hb
    simp only [decide_eq_true_eq]
    rintro rfl
    exact h hb
  rw [readString, List.dropWhile_append_of_pos hne, List.takeWhile_append_of_pos hne]
  simp

theorem uint32_ofNat_eq {v : ℕ} {x : UInt32}
    (h : v % 2 ^ 32 = x.toNat % 2 ^ 32) : UInt32.ofNat v = x := by
  have hlt := x.toNat_lt
  apply UInt32.toNat_inj.mp
  rw [UInt32.toNat_ofNat', h]
  omega

theorem readLeaf_leafBytes {leaf : Option Leaf}
    (hplain : ∀ l ∈ leaf, isReexport l.flags = false ∧
      isStubAndResolver l.flags = false) (pre rest : List Byte) :
    readLeaf pre (leafBytes leaf ++ rest) =
      some ((leaf.map fun l => ⟨pre, l.flags, some l.addr⟩).toList, rest) := by
  cases leaf with
  | none => simp [leafBytes, readLeaf]
  | some l =>
    obtain ⟨hreexport, hstub⟩ := hplain l rfl
    have hsize := terminalSize_lt l
    have hpos := ulebSize_pos l.flags.toNat
    obtain ⟨v, hread, hmod⟩ := readUleb_writeUleb_mod l.flags.toNat
      (writeUleb l.addr.toNat ++ rest)
    have hflags := uint32_ofNat_eq hmod
    have hterminal := readUleb_writeUleb (hsize.trans (by decide : 128 < 2 ^ 31))
      (writeUleb l.flags.toNat ++ (writeUleb l.addr.toNat ++ rest))
    have hbytes := Uleb.encode_of_lt hsize
    have hfirst : Fin.ofNat 256 (ulebSize l.flags.toNat + ulebSize l.addr.toNat) ≠ 0 := by
      intro hzero
      have hval := congrArg Fin.val hzero
      rw [Fin.val_ofNat] at hval
      have hzero' : (0 : Byte).val = 0 := rfl
      omega
    rw [writeUleb, hbytes, List.singleton_append] at hterminal
    have haddr : Uleb.decode (writeUleb l.addr.toNat ++ rest) = some (l.addr.toNat, rest) :=
      Uleb.decode_encode_append l.addr.toNat rest
    simp only [leafBytes, List.append_assoc]
    rw [writeUleb, hbytes, List.singleton_append, readLeaf]
    simp only [hfirst, if_false, hterminal, hread, hflags, hreexport, hstub,
      Bool.false_eq_true, Option.bind_eq_bind, Option.bind_some,
      haddr, UInt64.ofNat_toNat, Option.map_some, Option.toList_some,
      Option.pure_def]

variable {children : List TrieNode}

theorem readChildren_flatMap {visit : ℕ → List Byte → Option (List Export)}
    {offset : ℕ} {pre : List Byte}
    (hnul : ∀ c ∈ children, 0 ∉ c.label)
    (hoffset : ∀ c ∈ children, c.offset.toNat < 2 ^ 31 ∧ c.offset.toNat ≠ offset)
    (hvisit : ∀ c ∈ children, visit c.offset.toNat (pre ++ c.label) =
      some ((contents c (pre ++ c.label)).map Entry.toExport))
    (rest : List Byte) :
    readChildren visit offset pre children.length (children.flatMap childBytes ++ rest) =
      some ((contentsAll children pre).map Entry.toExport) := by
  induction children with
  | nil => rfl
  | cons c children ih =>
    obtain ⟨hlt, hne⟩ := hoffset c List.mem_cons_self
    have htail := ih (fun d hd => hnul d (List.mem_cons_of_mem c hd))
      (fun d hd => hoffset d (List.mem_cons_of_mem c hd))
      (fun d hd => hvisit d (List.mem_cons_of_mem c hd))
    rw [List.length_cons, List.flatMap_cons, childBytes, List.append_assoc,
      List.append_assoc, List.cons_append, readChildren]
    simp only [readString_append (hnul c List.mem_cons_self),
      readUleb_writeUleb hlt, hne, if_false, hvisit c List.mem_cons_self,
      htail, contentsAll, List.map_append, Option.bind_eq_bind,
      Option.bind_some, Option.pure_def]

theorem mem_writeTries {c : TrieNode}
    (hc : c ∈ children) : (writeTrie c).Sublist (writeTries children) := by
  induction children with
  | nil => simp at hc
  | cons d children ih =>
    rw [writeTries]
    rcases List.mem_cons.mp hc with rfl | hc
    · exact List.sublist_append_left _ _
    · exact (ih hc).trans (List.sublist_append_right _ _)

theorem exists_offset_segment (node : TrieNode) :
    ∃ bytes, bytes ≠ [] ∧ ⟨node.offset.toNat, bytes⟩ ∈ writeTrie node := by
  cases node with
  | mk label children leaf offset =>
    rw [writeTrie]
    exact ⟨_, nodeBytes_ne_nil leaf children, List.mem_cons_self⟩

theorem exists_fuel_forall_mem
    {P : ℕ → TrieNode → Prop}
    (h : ∀ c ∈ children, ∃ k, ∀ fuel, k ≤ fuel → P fuel c) :
    ∃ k, ∀ fuel, k ≤ fuel → ∀ c ∈ children, P fuel c := by
  induction children with
  | nil => exact ⟨0, by simp⟩
  | cons c children ih =>
    obtain ⟨k₁, hhead⟩ := h c List.mem_cons_self
    obtain ⟨k₂, htail⟩ := ih fun d hd => h d (List.mem_cons_of_mem c hd)
    refine ⟨max k₁ k₂, ?_⟩
    intro fuel hfuel d hd
    rcases List.mem_cons.mp hd with rfl | hd
    · exact hhead fuel (le_of_max_le_left hfuel)
    · exact htail fuel (le_of_max_le_right hfuel) d hd

theorem readTrie_eq {buf : List Byte} {node : TrieNode} (h : WellFormed node)
    (hsegments : ∀ s ∈ writeTrie node, s.bytes <+: buf.drop s.start ∧ s.start < 2 ^ 31)
    (hdisjoint : (writeTrie node).Pairwise Segment.Disjoint)
    (pre : List Byte) :
    ∃ k, ∀ fuel, k ≤ fuel → readTrie fuel buf node.offset.toNat pre =
      some ((contents node pre).map Entry.toExport) := by
  induction h generalizing pre with
  | @mk label children leaf offset count nulFree plain _ ih =>
    rw [writeTrie, List.pairwise_cons] at hdisjoint
    rw [writeTrie] at hsegments
    have hsub : ∀ c ∈ children, (writeTrie c).Sublist (writeTries children) :=
      fun c hc => mem_writeTries hc
    have hchild : ∀ c ∈ children, ∃ k, ∀ fuel, k ≤ fuel →
        readTrie fuel buf c.offset.toNat (pre ++ c.label) =
          some ((contents c (pre ++ c.label)).map Entry.toExport) := by
      intro c hc
      apply ih c hc
      · intro s hs
        exact hsegments s (List.mem_cons_of_mem _ ((hsub c hc).subset hs))
      · exact hdisjoint.2.sublist (hsub c hc)
    have hoffset : ∀ c ∈ children, c.offset.toNat < 2 ^ 31 ∧ c.offset.toNat ≠ offset.toNat := by
      intro c hc
      obtain ⟨bytes, hne, hmem⟩ := exists_offset_segment c
      have hmem' := (hsub c hc).subset hmem
      refine ⟨(hsegments _ (List.mem_cons_of_mem _ hmem')).2, ?_⟩
      intro heq
      have hpos := List.length_pos_iff.mpr hne
      have hpos' := List.length_pos_iff.mpr (nodeBytes_ne_nil leaf children)
      rcases hdisjoint.1 _ hmem' with hle | hle
      · simp only [Segment.stop] at hle
        omega
      · simp only [Segment.stop] at hle
        omega
    obtain ⟨k, hk⟩ := exists_fuel_forall_mem hchild
    obtain ⟨tail, htail⟩ := (hsegments _ List.mem_cons_self).1
    refine ⟨k + 1, ?_⟩
    intro fuel hfuel
    cases fuel with
    | zero => omega
    | succ fuel =>
      have hcount : (Fin.ofNat 256 children.length).val = children.length := by
        rw [Fin.val_ofNat]
        omega
      have hchildren := readChildren_flatMap nulFree hoffset (hk fuel (by omega)) tail
      dsimp only at htail
      rw [nodeBytes, List.append_assoc, List.cons_append] at htail
      rw [TrieNode.offset, readTrie, ← htail, readLeaf_leafBytes plain]
      simp only [Option.bind_eq_bind, Option.bind_some, hcount, hchildren,
        Option.pure_def, contents, List.map_append]
      cases leaf <;> rfl

/-! ## The root -/

namespace ExportSet

variable (E : ExportSet)

def sorted : List Entry := sortEntries E.entries

def trie : TrieNode := constructRoot E.sorted

theorem finish_eq : finish E.entries = setOffset (setOffset E.trie 0).1 0 := rfl

theorem sorted_perm : E.sorted.Perm E.entries :=
  List.mergeSort_perm _ _

theorem sorted_isGroup : IsGroup E.sorted 0 where
  ne_nil := by
    intro hnil
    have hlen := E.sorted_perm.length_eq
    rw [hnil] at hlen
    exact E.entries_ne_nil (List.length_eq_zero_iff.mp hlen.symm)
  sorted := by
    have hle : E.sorted.Pairwise fun a b => a.name ≤ b.name :=
      pairwise_mergeSort_key Entry.name E.entries
    have hnodup : (E.sorted.map Entry.name).Nodup :=
      (E.sorted_perm.map Entry.name).nodup_iff.mpr E.names_nodup
    rw [List.Nodup, List.pairwise_map] at hnodup
    exact (hle.and hnodup).imp fun h => lt_of_le_of_ne h.1 h.2
  shared := fun a _ b _ => rfl
  longer := fun e he => List.length_pos_iff.mpr (E.name_ne_nil e (E.sorted_perm.mem_iff.mp he))

theorem contents_trie : contents E.trie [] = E.sorted := by
  obtain ⟨e, he⟩ := List.exists_mem_of_ne_nil _ E.sorted_isGroup.ne_nil
  have hnode := contents_constructTrie E.sorted_isGroup (le_refl _) e he
  rw [List.take_zero, List.nil_append] at hnode
  rw [trie, constructRoot]
  split
  · next hlabel => rwa [List.isEmpty_iff.mp hlabel] at hnode
  · rw [contents, contentsAll, contentsAll, List.nil_append, List.append_nil]
    exact hnode

theorem wellFormed_trie : WellFormed E.trie := by
  have hnode := wellFormed_constructTrie E.sorted_isGroup (le_refl _)
    (fun e he => E.name_nul_free e (E.sorted_perm.mem_iff.mp he))
    (fun e he => ⟨E.not_reexport e (E.sorted_perm.mem_iff.mp he),
      E.not_stub e (E.sorted_perm.mem_iff.mp he)⟩)
  rw [trie, constructRoot]
  split
  · exact hnode.1
  · constructor
    · simp
    · simpa using hnode.2
    · simp
    · simpa using hnode.1

theorem fresh_trie : Fresh E.trie := by
  have hnode := fresh_constructTrie E.sorted.length E.sorted 0
  rw [trie, constructRoot]
  split
  · exact hnode.1
  · constructor
    · simpa using hnode.2
    · simpa using hnode.1

theorem hasBottomLeaf_trie {e : Entry} (he : e ∈ E.entries)
    (halone : ∀ e' ∈ E.entries, e.name <+: e'.name → e' = e) :
    HasBottomLeaf e.addr E.trie := by
  have hnode := hasBottomLeaf_constructTrie E.sorted_isGroup (le_refl _)
    (E.sorted_perm.mem_iff.mpr he)
    fun e' he' => halone e' (E.sorted_perm.mem_iff.mp he')
  rw [trie, constructRoot]
  split
  · exact hnode
  · exact HasBottomLeaf.inChild (List.mem_singleton_self _) hnode

theorem size_trie_le (offset : ℕ) : (setOffset E.trie offset).2 ≤ E.sizeBound := by
  have hsize := setOffset_size_le E.trie offset
  have hweight := weight_constructTrie_le E.sorted_isGroup (le_refl _)
  have hbound : groupBound 0 E.sorted = E.sizeBound := by
    have hperm := E.sorted_perm.map fun e => e.name.length - 0 + 44
    exact hperm.sum_eq
  have htrie : weight E.trie ≤ 22 + weight (constructTrie E.sorted.length E.sorted 0) := by
    rw [trie, constructRoot]
    split
    · omega
    · simp [weight, weightAll]
  omega

variable {E}

theorem writeTrie_finish (hsize : E.sizeBound < 2 ^ 31) :
    writeTrie (finish E.entries).1 =
      (placements (setOffset E.trie 0).1 0).map Placement.toSegment := by
  have hfirst := E.size_trie_le 0
  have hsecond := setOffset_twice_le E.fresh_trie (le_refl 0)
  rw [finish_eq]
  exact writeTrie_setOffset _ (by omega)

theorem roundTrips_of_lowAddr (hsize : E.sizeBound < 2 ^ 31)
    (haddr : ∀ e ∈ E.entries, e.addr.toNat < 2 ^ 63) : E.RoundTrips := by
  have hfirst := E.size_trie_le 0
  have hsecond := setOffset_twice_le E.fresh_trie (le_refl 0)
  have hwrite := writeTrie_finish hsize
  have htiles := tiles_placements (setOffset E.trie 0).1 0
  rw [← finish_eq] at htiles hsecond
  have hlow : LowAddr E.trie := by
    refine @lowAddr_of_contents E.trie [] ?_
    rw [E.contents_trie]
    exact fun e he => haddr e (E.sorted_perm.mem_iff.mp he)
  have hkeep := placements_keep hlow E.fresh_trie (le_refl 0) (by omega)
  have hdisjoint : (writeTrie (finish E.entries).1).Pairwise
      Segment.Disjoint := by
    rw [hwrite, List.pairwise_map]
    exact htiles.pairwise_disjoint hkeep
  have hfits : ∀ s ∈ writeTrie (finish E.entries).1, s.stop ≤ (finish E.entries).2 := by
    rw [hwrite]
    intro s hs
    obtain ⟨p, hp, rfl⟩ := List.mem_map.mp hs
    have hend := htiles.start_add_reserved_le hp
    have hlen := hkeep p hp
    rw [Segment.stop]
    omega
  have hbuffer : ∀ s ∈ writeTrie (finish E.entries).1,
      s.bytes <+: (copyBuf (finish E.entries).1 (finish E.entries).2).drop
        s.start ∧ s.start < 2 ^ 31 := by
    intro s hs
    have hstop := hfits s hs
    constructor
    · apply Segment.prefix_drop_foldl_write hdisjoint _ hs
      intro t ht
      have hle := hfits t ht
      rw [List.length_replicate]
      omega
    · rw [Segment.stop] at hstop
      omega
  have hwell : WellFormed (finish E.entries).1 := by
    rw [finish_eq]
    exact (E.wellFormed_trie.setOffset 0).setOffset 0
  obtain ⟨k, hk⟩ := readTrie_eq hwell hbuffer hdisjoint []
  have hroot : (finish E.entries).1.offset.toNat = 0 := by
    rw [finish_eq, offset_setOffset]
    rfl
  have hcontents : contents (finish E.entries).1 [] = E.sorted := by
    rw [finish_eq, contents_setOffset, contents_setOffset, E.contents_trie]
  refine ⟨hfits, hdisjoint, k, E.sorted.map Entry.toExport, ?_, ?_⟩
  · rw [← hroot, hk k (le_refl k), hcontents]
  · exact E.sorted_perm.map _

theorem not_roundTrips_of_highAddr (hsize : E.sizeBound < 2 ^ 31) {e : Entry}
    (he : e ∈ E.entries) (haddr : 2 ^ 63 ≤ e.addr.toNat)
    (halone : ∀ e' ∈ E.entries, e.name <+: e'.name → e' = e) :
    ¬ E.RoundTrips := by
  rintro ⟨hfits, hdisjoint, -⟩
  have hwrite := writeTrie_finish hsize
  have htiles := tiles_placements (setOffset E.trie 0).1 0
  rw [← finish_eq, Nat.zero_add] at htiles
  rw [hwrite] at hfits hdisjoint
  rw [List.pairwise_map] at hdisjoint
  obtain ⟨p, hp, hlt⟩ :=
    ((E.hasBottomLeaf_trie he halone).setOffset 0).exists_overflow haddr 0
  have hle := htiles.length_le_reserved (placements_bytes_ne_nil (setOffset E.trie 0).1 0)
    (fun q hq => hfits _ (List.mem_map_of_mem hq)) hdisjoint hp
  omega

/-- The round trip of a trie of less than `2 ^ 31` bytes: it holds if every
address is below `2 ^ 63`, and it fails if an address from `2 ^ 63` on belongs
to a name that no other name extends. -/
theorem roundTrips_spec (hsize : E.sizeBound < 2 ^ 31) :
    ((∀ e ∈ E.entries, e.addr.toNat < 2 ^ 63) → E.RoundTrips) ∧
      ∀ e ∈ E.entries, 2 ^ 63 ≤ e.addr.toNat →
        (∀ e' ∈ E.entries, e.name <+: e'.name → e' = e) → ¬ E.RoundTrips :=
  ⟨roundTrips_of_lowAddr hsize,
    fun _ he haddr halone => not_roundTrips_of_highAddr hsize he haddr halone⟩

end ExportSet

/-- Two names with the first letter in common, the second with the given address. -/
def twoEntries (addr : UInt64) : ExportSet where
  entries := [⟨[65, 66], 0, 4096⟩, ⟨[65, 67], 0, addr⟩]
  entries_ne_nil := by simp
  names_nodup := by simp
  name_ne_nil := by simp
  name_nul_free := by simp
  not_reexport := by simp [isReexport]
  not_stub := by simp [isStubAndResolver]

/-- An ordinary address survives the round trip, and the greatest one does
not. -/
theorem roundTrips_twoEntries :
    (twoEntries 8192).RoundTrips ∧ ¬ (twoEntries (UInt64.ofNat (2 ^ 64 - 1))).RoundTrips :=
  ⟨(ExportSet.roundTrips_spec (E := twoEntries 8192) (by decide)).1 (by simp [twoEntries]),
    (ExportSet.roundTrips_spec (E := twoEntries (UInt64.ofNat (2 ^ 64 - 1))) (by decide)).2
      ⟨[65, 67], 0, UInt64.ofNat (2 ^ 64 - 1)⟩ (by simp [twoEntries]) (by decide)
      (by simp [twoEntries])⟩

/-- The address `-1` of an absolute symbol just below the image base takes ten
bytes, one more than `uleb_size` reserves. -/
theorem not_roundTrips_twoEntries : ¬ (twoEntries (UInt64.ofNat (2 ^ 64 - 1))).RoundTrips :=
  ExportSet.not_roundTrips_of_highAddr (by decide)
    (e := ⟨[65, 67], 0, UInt64.ofNat (2 ^ 64 - 1)⟩) (by simp [twoEntries])
    (by decide) (by simp [twoEntries])

end Mold.MachO.ExportTrie
