import Mold.MachO.ExportTrieConstruct

/-!
# The layout of the export trie

`placements` lists, for a pass of `set_offset`, the space that is reserved for
every node together with the bytes that will be written there.  The
reservations tile the trie.  In the second pass no node is longer than its
reservation, since the offsets only decrease from pass to pass, provided that
`uleb_size` is right about the address of the node.
-/

namespace Mold.MachO.ExportTrie

open Mold.Lib Mold.Common

mutual

def placements : TrieNode → ℕ → List (Placement Byte)
  | .mk _ children leaf _, offset =>
    { start := offset
      bytes := nodeBytes leaf (setOffsets children offset (nodeSize leaf children)).1
      reserved := nodeSize leaf children } ::
    placementsAll children offset (nodeSize leaf children)

def placementsAll : List TrieNode → ℕ → ℕ → List (Placement Byte)
  | [], _, _ => []
  | child :: children, offset, size =>
    placements child (offset + size) ++
      placementsAll children offset (size + (setOffset child (offset + size)).2)

end

/-! ## What a pass leaves alone -/

theorem offset_setOffset (node : TrieNode) (offset : ℕ) :
    (setOffset node offset).1.offset = UInt32.ofNat offset := by
  cases node
  rw [setOffset]
  rfl

variable {children : List TrieNode}

theorem mem_setOffsets {offset size : ℕ}
    {c' : TrieNode} (h : c' ∈ (setOffsets children offset size).1) :
    ∃ c ∈ children, ∃ o, c' = (setOffset c o).1 := by
  induction children generalizing size with
  | nil => simp [setOffsets] at h
  | cons c children ih =>
    rw [setOffsets, List.mem_cons] at h
    rcases h with rfl | h
    · exact ⟨c, List.mem_cons_self, offset + size, rfl⟩
    · obtain ⟨d, hd, o, rfl⟩ := ih h
      exact ⟨d, List.mem_cons_of_mem c hd, o, rfl⟩

variable {c : TrieNode}

theorem setOffset_mem_setOffsets (hc : c ∈ children) (offset size : ℕ) :
    ∃ o, (setOffset c o).1 ∈ (setOffsets children offset size).1 := by
  induction children generalizing size with
  | nil => simp at hc
  | cons d children ih =>
    rw [setOffsets]
    rcases List.mem_cons.mp hc with rfl | hc
    · exact ⟨_, List.mem_cons_self⟩
    · obtain ⟨o, ho⟩ := ih hc (size + (setOffset d (offset + size)).2)
      exact ⟨o, List.mem_cons_of_mem _ ho⟩

theorem contentsAll_setOffsets
    (h : ∀ c ∈ children, ∀ o pre, contents (setOffset c o).1 pre = contents c pre)
    (offset size : ℕ) (pre : List Byte) :
    contentsAll (setOffsets children offset size).1 pre = contentsAll children pre := by
  induction children generalizing size with
  | nil => rw [setOffsets]
  | cons c children ih =>
    rw [setOffsets, contentsAll, contentsAll, label_setOffset, h c List.mem_cons_self,
      ih fun d hd => h d (List.mem_cons_of_mem c hd)]

theorem contents_setOffset (node : TrieNode) (offset : ℕ) (pre : List Byte) :
    contents (setOffset node offset).1 pre = contents node pre := by
  induction node using TrieNode.induct generalizing offset pre with
  | mk label children leaf _ ih =>
    rw [setOffset, contents, contents, contentsAll_setOffsets ih]

variable {node : TrieNode}

theorem WellFormed.setOffset (h : WellFormed node)
    (offset : ℕ) : WellFormed (setOffset node offset).1 := by
  induction h generalizing offset with
  | mk count nulFree plain below ih =>
    rw [ExportTrie.setOffset]
    constructor
    · rwa [length_setOffsets]
    · intro c hc
      obtain ⟨d, hd, o, rfl⟩ := mem_setOffsets hc
      rw [label_setOffset]
      exact nulFree d hd
    · exact plain
    · intro c hc
      obtain ⟨d, hd, o, rfl⟩ := mem_setOffsets hc
      exact ih d hd o

theorem HasBottomLeaf.setOffset {addr : UInt64} (h : HasBottomLeaf addr node) (offset : ℕ) :
    HasBottomLeaf addr (setOffset node offset).1 := by
  induction h generalizing offset with
  | here =>
    rw [ExportTrie.setOffset, setOffsets]
    exact HasBottomLeaf.here
  | inChild hmem _ ih =>
    rw [ExportTrie.setOffset]
    obtain ⟨o, ho⟩ := setOffset_mem_setOffsets hmem _ _
    exact HasBottomLeaf.inChild ho (ih o)

theorem tiles_placementsAll
    (h : ∀ c ∈ children, ∀ o, Tiles (placements c o) o (o + (setOffset c o).2))
    (offset size : ℕ) :
    Tiles (placementsAll children offset size) (offset + size)
      (offset + (setOffsets children offset size).2) := by
  induction children generalizing size with
  | nil =>
    rw [placementsAll, setOffsets]
    exact rfl
  | cons c children ih =>
    rw [placementsAll, setOffsets]
    have htail := ih (fun d hd => h d (List.mem_cons_of_mem c hd))
      (size + (setOffset c (offset + size)).2)
    rw [← Nat.add_assoc] at htail
    exact (h c List.mem_cons_self (offset + size)).append htail

theorem tiles_placements (node : TrieNode) (offset : ℕ) :
    Tiles (placements node offset) offset (offset + (setOffset node offset).2) := by
  induction node using TrieNode.induct generalizing offset with
  | mk label children leaf _ ih =>
    rw [placements, setOffset]
    exact ⟨rfl, tiles_placementsAll ih offset (nodeSize leaf children)⟩

theorem setOffsets_size_ge (children : List TrieNode) (offset size : ℕ) :
    size ≤ (setOffsets children offset size).2 := by
  have htiles : ∀ c ∈ children, ∀ o, Tiles (placements c o) o (o + (setOffset c o).2) :=
    fun c _ o => tiles_placements c o
  have h := (tiles_placementsAll htiles offset size).le
  omega

theorem setOffset_size_pos (node : TrieNode) (offset : ℕ) : 0 < (setOffset node offset).2 := by
  cases node with
  | mk label children leaf _ =>
    have h := setOffsets_size_ge children offset (nodeSize leaf children)
    rw [setOffset]
    rw [nodeSize] at h ⊢
    omega

theorem writeTries_setOffsets
    (h : ∀ c ∈ children, ∀ o, o + (setOffset c o).2 ≤ 2 ^ 32 →
      writeTrie (setOffset c o).1 = (placements c o).map Placement.toSegment)
    {offset size : ℕ}
    (hfits : offset + (setOffsets children offset size).2 ≤ 2 ^ 32) :
    writeTries (setOffsets children offset size).1 =
      (placementsAll children offset size).map Placement.toSegment := by
  induction children generalizing size with
  | nil => rw [setOffsets, writeTries, placementsAll, List.map_nil]
  | cons c children ih =>
    rw [setOffsets] at hfits ⊢
    have hge := setOffsets_size_ge children offset (size + (setOffset c (offset + size)).2)
    rw [writeTries, placementsAll, List.map_append, h c List.mem_cons_self _ (by omega),
      ih (fun d hd => h d (List.mem_cons_of_mem c hd)) hfits]

theorem writeTrie_setOffset (node : TrieNode) {offset : ℕ}
    (hfits : offset + (setOffset node offset).2 ≤ 2 ^ 32) :
    writeTrie (setOffset node offset).1 = (placements node offset).map Placement.toSegment := by
  induction node using TrieNode.induct generalizing offset with
  | mk label children leaf old ih =>
    have hpos := setOffset_size_pos (.mk label children leaf old) offset
    have hoffset : (UInt32.ofNat offset).toNat = offset := by
      rw [UInt32.toNat_ofNat']
      omega
    rw [setOffset] at hfits ⊢
    rw [writeTrie, placements, List.map_cons, hoffset, writeTries_setOffsets ih hfits]

/-! ## From the first pass to the second -/

inductive Fresh : TrieNode → Prop where
  | mk {label : List Byte} {children : List TrieNode} {leaf : Option Leaf}
      {offset : UInt32} (fresh : ∀ c ∈ children, c.offset = freshOffset)
      (deeper : ∀ c ∈ children, Fresh c) :
      Fresh (.mk label children leaf offset)

theorem fresh_constructTrie (fuel : ℕ) (entries : List Entry) (len : ℕ) :
    Fresh (constructTrie fuel entries len) ∧
      (constructTrie fuel entries len).offset = freshOffset := by
  induction fuel generalizing entries len with
  | zero =>
    rw [constructTrie]
    · exact ⟨Fresh.mk (by simp) (by simp), rfl⟩
    · simp
  | succ fuel ih =>
    cases entries with
    | nil =>
      rw [constructTrie]
      · exact ⟨Fresh.mk (by simp) (by simp), rfl⟩
      · simp
    | cons first rest =>
      rw [constructTrie_cons]
      refine ⟨Fresh.mk ?_ ?_, rfl⟩
      · intro c hc
        obtain ⟨run, -, rfl⟩ := List.mem_map.mp hc
        exact (ih run _).2
      · intro c hc
        obtain ⟨run, -, rfl⟩ := List.mem_map.mp hc
        exact (ih run _).1

theorem childSize_setOffset_le (hc : c.offset = freshOffset)
    (offset : ℕ) : childSize (setOffset c offset).1 ≤ childSize c := by
  have hle : (setOffset c offset).1.offset.toNat ≤ c.offset.toNat := by
    have hlt := (setOffset c offset).1.offset.toNat_lt
    have hfresh : freshOffset.toNat = 2 ^ 32 - 1 := by decide
    rw [hc, hfresh]
    omega
  have hmono := ulebSize_mono hle
  rw [childSize, childSize, label_setOffset]
  omega

theorem sum_childSize_setOffsets_le
    (h : ∀ c ∈ children, c.offset = freshOffset) (offset size : ℕ) :
    ((setOffsets children offset size).1.map childSize).sum ≤ (children.map childSize).sum := by
  induction children generalizing size with
  | nil => rw [setOffsets]
  | cons c children ih =>
    have hhead := childSize_setOffset_le (h c List.mem_cons_self) (offset + size)
    have htail := ih (fun d hd => h d (List.mem_cons_of_mem c hd))
      (size + (setOffset c (offset + size)).2)
    rw [setOffsets, List.map_cons, List.map_cons, List.sum_cons, List.sum_cons]
    omega

variable {offset₁ offset₂ size₁ size₂ : ℕ}

theorem setOffsets_twice_le
    (h : ∀ c ∈ children, ∀ o₁ o₂, o₂ ≤ o₁ →
      (setOffset (setOffset c o₁).1 o₂).2 ≤ (setOffset c o₁).2)
    (hoffset : offset₂ ≤ offset₁)
    (hsize : size₂ ≤ size₁) :
    (setOffsets (setOffsets children offset₁ size₁).1 offset₂ size₂).2 ≤
      (setOffsets children offset₁ size₁).2 := by
  induction children generalizing size₁ size₂ with
  | nil =>
    rw [setOffsets, setOffsets]
    exact hsize
  | cons c children ih =>
    have hhead := h c List.mem_cons_self (offset₁ + size₁) (offset₂ + size₂) (by omega)
    rw [setOffsets, setOffsets]
    exact ih (fun d hd => h d (List.mem_cons_of_mem c hd)) (by omega)

theorem setOffset_twice_le (h : Fresh node)
    {offset₁ offset₂ : ℕ} (hoffset : offset₂ ≤ offset₁) :
    (setOffset (setOffset node offset₁).1 offset₂).2 ≤ (setOffset node offset₁).2 := by
  induction h generalizing offset₁ offset₂ with
  | @mk label children leaf old fresh _ ih =>
    rw [setOffset, setOffset]
    apply setOffsets_twice_le (fun c hc o₁ o₂ ho => ih c hc ho) hoffset
    have hsum := sum_childSize_setOffsets_le fresh offset₁ (nodeSize leaf children)
    rw [nodeSize, nodeSize] at *
    omega

theorem length_childBytes :
    (childBytes c).length = c.label.length + 1 + ulebSize c.offset.toNat := by
  have hlt := c.offset.toNat_lt
  rw [childBytes, List.length_append, List.length_cons, length_writeUleb (hlt.trans (by decide))]
  omega

theorem length_flatMap_childBytes_le (h : ∀ c ∈ children, Fresh c)
    (hoffset : offset₂ ≤ offset₁) (hsize : size₂ ≤ size₁)
    (hfits : offset₁ + (setOffsets children offset₁ size₁).2 ≤ 2 ^ 32) :
    ((setOffsets (setOffsets children offset₁ size₁).1 offset₂ size₂).1.flatMap
        childBytes).length ≤
      ((setOffsets children offset₁ size₁).1.map childSize).sum := by
  induction children generalizing size₁ size₂ with
  | nil => simp [setOffsets]
  | cons c children ih =>
    have hhead := setOffset_twice_le (h c List.mem_cons_self)
      (show offset₂ + size₂ ≤ offset₁ + size₁ by omega)
    have hpos := setOffset_size_pos c (offset₁ + size₁)
    have hge := setOffsets_size_ge children offset₁ (size₁ + (setOffset c (offset₁ + size₁)).2)
    rw [setOffsets] at hfits ⊢
    have hsize' : size₂ +
        (setOffset (setOffset c (offset₁ + size₁)).1 (offset₂ + size₂)).2 ≤
          size₁ + (setOffset c (offset₁ + size₁)).2 := by omega
    have htail := ih (fun d hd => h d (List.mem_cons_of_mem c hd)) hsize' hfits
    have hmono : ulebSize (UInt32.ofNat (offset₂ + size₂)).toNat ≤
        ulebSize (UInt32.ofNat (offset₁ + size₁)).toNat := by
      apply ulebSize_mono
      rw [UInt32.toNat_ofNat', UInt32.toNat_ofNat']
      omega
    rw [setOffsets, List.flatMap_cons, List.length_append, List.map_cons,
      List.sum_cons, length_childBytes, childSize]
    simp only [label_setOffset, offset_setOffset]
    omega

/-! ## Nodes and their reservations -/

theorem length_nodeBytes (leaf : Option Leaf) (children : List TrieNode) :
    (nodeBytes leaf children).length =
      (leafBytes leaf).length + 1 + (children.flatMap childBytes).length := by
  rw [nodeBytes, List.length_append, List.length_cons]
  omega

theorem terminalSize_lt (leaf : Leaf) :
    ulebSize leaf.flags.toNat + ulebSize leaf.addr.toNat < 128 := by
  have h₁ := ulebSize_le leaf.flags.toNat
  have h₂ := ulebSize_le leaf.addr.toNat
  omega

theorem length_leafBytes_some (leaf : Leaf) :
    (leafBytes (some leaf)).length =
      ulebSize (ulebSize leaf.flags.toNat + ulebSize leaf.addr.toNat) +
        ulebSize leaf.flags.toNat + (writeUleb leaf.addr.toNat).length := by
  have hsize := terminalSize_lt leaf
  have hflags := leaf.flags.toNat_lt
  rw [leafBytes, List.length_append, List.length_append,
    length_writeUleb (hflags.trans (by decide)),
    length_writeUleb (hsize.trans (by decide))]

theorem length_leafBytes {leaf : Option Leaf} (h : ∀ l ∈ leaf, l.addr.toNat < 2 ^ 63) :
    (leafBytes leaf).length = leafSize leaf := by
  cases leaf with
  | none => rfl
  | some l =>
    rw [length_leafBytes_some, length_writeUleb (h l rfl), leafSize]
    omega

theorem leafSize_lt_length_leafBytes {l : Leaf} (h : 2 ^ 63 ≤ l.addr.toNat) :
    leafSize (some l) < (leafBytes (some l)).length := by
  have hlt := ulebSize_lt_length_writeUleb h
  rw [length_leafBytes_some, leafSize]
  omega

/-- The addresses of all leaves of a subtrie are below `2 ^ 63`. -/
inductive LowAddr : TrieNode → Prop where
  | mk {label : List Byte} {children : List TrieNode} {leaf : Option Leaf}
      {offset : UInt32} (low : ∀ l ∈ leaf, l.addr.toNat < 2 ^ 63)
      (deeper : ∀ c ∈ children, LowAddr c) :
      LowAddr (.mk label children leaf offset)

theorem lowAddr_of_contents {pre : List Byte}
    (h : ∀ e ∈ contents node pre, e.addr.toNat < 2 ^ 63) : LowAddr node := by
  induction node using TrieNode.induct generalizing pre with
  | mk label children leaf _ ih =>
    rw [contents] at h
    constructor
    · rintro l hl
      apply h ⟨pre, l.flags, l.addr⟩
      apply List.mem_append_left
      rw [Option.mem_def.mp hl]
      exact List.mem_singleton_self _
    · intro c hc
      refine @ih c hc (pre ++ c.label) ?_
      intro e he
      apply h e
      apply List.mem_append_right
      clear ih h
      induction children with
      | nil => simp at hc
      | cons d children ih =>
        rw [contentsAll]
        rcases List.mem_cons.mp hc with rfl | hc
        · exact List.mem_append_left _ he
        · exact List.mem_append_right _ (ih hc)

theorem placementsAll_keep
    (h : ∀ c ∈ children, ∀ o₁ o₂, o₂ ≤ o₁ → o₁ + (setOffset c o₁).2 ≤ 2 ^ 32 →
      ∀ p ∈ placements (setOffset c o₁).1 o₂, p.bytes.length ≤ p.reserved)
    (hfresh : ∀ c ∈ children, Fresh c)
    (hoffset : offset₂ ≤ offset₁)
    (hsize : size₂ ≤ size₁)
    (hfits : offset₁ + (setOffsets children offset₁ size₁).2 ≤ 2 ^ 32) :
    ∀ p ∈ placementsAll (setOffsets children offset₁ size₁).1 offset₂ size₂,
      p.bytes.length ≤ p.reserved := by
  induction children generalizing size₁ size₂ with
  | nil => simp [setOffsets, placementsAll]
  | cons c children ih =>
    have hhead := setOffset_twice_le (hfresh c List.mem_cons_self)
      (show offset₂ + size₂ ≤ offset₁ + size₁ by omega)
    have hge := setOffsets_size_ge children offset₁ (size₁ + (setOffset c (offset₁ + size₁)).2)
    rw [setOffsets] at hfits ⊢
    rw [placementsAll]
    intro p hp
    rcases List.mem_append.mp hp with hp | hp
    · exact h c List.mem_cons_self _ _ (by omega) (by omega) p hp
    · exact ih (fun d hd => h d (List.mem_cons_of_mem c hd))
        (fun d hd => hfresh d (List.mem_cons_of_mem c hd)) (by omega) hfits p hp

theorem placements_keep (h : LowAddr node)
    (hfresh : Fresh node) {offset₁ offset₂ : ℕ} (hoffset : offset₂ ≤ offset₁)
    (hfits : offset₁ + (setOffset node offset₁).2 ≤ 2 ^ 32) :
    ∀ p ∈ placements (setOffset node offset₁).1 offset₂, p.bytes.length ≤ p.reserved := by
  induction h generalizing offset₁ offset₂ with
  | @mk label children leaf old low _ ih =>
    obtain ⟨fresh, deeper⟩ := hfresh
    have hsum := sum_childSize_setOffsets_le fresh offset₁ (nodeSize leaf children)
    have hsize : nodeSize leaf
        (setOffsets children offset₁ (nodeSize leaf children)).1 ≤ nodeSize leaf children := by
      rw [nodeSize, nodeSize] at *
      omega
    rw [setOffset] at hfits ⊢
    rw [placements]
    intro p hp
    rcases List.mem_cons.mp hp with rfl | hp
    · have hchildren := length_flatMap_childBytes_le deeper hoffset hsize hfits
      have hleaf := length_leafBytes low
      dsimp only
      rw [length_nodeBytes]
      conv_rhs => rw [nodeSize]
      omega
    · exact placementsAll_keep (fun c hc o₁ o₂ => ih c hc (deeper c hc)) deeper
        hoffset hsize hfits p hp

theorem nodeBytes_ne_nil (leaf : Option Leaf) (children : List TrieNode) :
    nodeBytes leaf children ≠ [] := by
  simp [nodeBytes]

theorem placementsAll_bytes_ne_nil (h : ∀ c ∈ children, ∀ o, ∀ p ∈ placements c o, p.bytes ≠ [])
    (offset size : ℕ) :
    ∀ p ∈ placementsAll children offset size, p.bytes ≠ [] := by
  induction children generalizing size with
  | nil => simp [placementsAll]
  | cons c children ih =>
    rw [placementsAll]
    intro p hp
    rcases List.mem_append.mp hp with hp | hp
    · exact h c List.mem_cons_self _ p hp
    · exact ih (fun d hd => h d (List.mem_cons_of_mem c hd)) _ p hp

theorem placements_bytes_ne_nil (node : TrieNode) (offset : ℕ) :
    ∀ p ∈ placements node offset, p.bytes ≠ [] := by
  induction node using TrieNode.induct generalizing offset with
  | mk label children leaf _ ih =>
    rw [placements]
    intro p hp
    rcases List.mem_cons.mp hp with rfl | hp
    · exact nodeBytes_ne_nil _ _
    · exact placementsAll_bytes_ne_nil ih _ _ p hp

theorem placements_subset (hc : c ∈ children) (offset size : ℕ) :
    ∃ o, placements c o ⊆ placementsAll children offset size := by
  induction children generalizing size with
  | nil => simp at hc
  | cons d children ih =>
    rw [placementsAll]
    rcases List.mem_cons.mp hc with rfl | hc
    · exact ⟨_, List.subset_append_left _ _⟩
    · obtain ⟨o, ho⟩ := ih hc (size + (setOffset d (offset + size)).2)
      exact ⟨o, fun p hp => List.mem_append_right _ (ho hp)⟩

theorem HasBottomLeaf.exists_overflow {addr : UInt64}
    (h : HasBottomLeaf addr node) (haddr : 2 ^ 63 ≤ addr.toNat) (offset : ℕ) :
    ∃ p ∈ placements node offset, p.reserved < p.bytes.length := by
  induction h generalizing offset with
  | @here label flags old =>
    refine ⟨_, List.mem_cons_self, ?_⟩
    have hleaf := leafSize_lt_length_leafBytes (l := ⟨flags, addr⟩) haddr
    dsimp only
    rw [setOffsets, length_nodeBytes, nodeSize]
    simp only [List.map_nil, List.sum_nil, List.flatMap_nil, List.length_nil]
    omega
  | @inChild label children leaf old child hmem _ ih =>
    obtain ⟨o, ho⟩ := placements_subset hmem offset (nodeSize leaf children)
    obtain ⟨p, hp, hlt⟩ := ih o
    exact ⟨p, List.mem_cons_of_mem _ (ho hp), hlt⟩

theorem leafSize_le (leaf : Option Leaf) : leafSize leaf ≤ 15 := by
  cases leaf with
  | none => decide
  | some l =>
    have h₁ := ulebSize_le_five l.flags.toNat_lt
    have h₂ := ulebSize_le l.addr.toNat
    have h₃ : ulebSize (ulebSize l.flags.toNat + ulebSize l.addr.toNat) ≤ 1 := by
      have hmono := ulebSize_mono
        (show ulebSize l.flags.toNat + ulebSize l.addr.toNat ≤ 127 by omega)
      exact hmono.trans (by decide)
    rw [leafSize]
    omega

theorem setOffsets_size_le
    (h : ∀ c ∈ children, ∀ o,
      (setOffset c o).2 + c.label.length + 6 ≤ weight c) (offset size : ℕ) :
    (setOffsets children offset size).2 + (children.map childSize).sum ≤
      size + weightAll children := by
  induction children generalizing size with
  | nil => simp [setOffsets, weightAll]
  | cons c children ih =>
    have hhead := h c List.mem_cons_self (offset + size)
    have htail := ih (fun d hd => h d (List.mem_cons_of_mem c hd))
      (size + (setOffset c (offset + size)).2)
    have huleb := ulebSize_le_five c.offset.toNat_lt
    rw [setOffsets, weightAll, List.map_cons, List.sum_cons, childSize]
    omega

theorem setOffset_size_le (node : TrieNode) (offset : ℕ) :
    (setOffset node offset).2 + node.label.length + 6 ≤ weight node := by
  induction node using TrieNode.induct generalizing offset with
  | mk label children leaf _ ih =>
    have hsize := setOffsets_size_le ih offset (nodeSize leaf children)
    have hleaf := leafSize_le leaf
    rw [setOffset, weight, TrieNode.label]
    rw [nodeSize] at hsize ⊢
    omega

end Mold.MachO.ExportTrie
