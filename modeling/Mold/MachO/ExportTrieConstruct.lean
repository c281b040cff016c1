import Mold.MachO.ExportTrie
import Mathlib.Data.Fintype.Card
import Mathlib.Algebra.BigOperators.Group.List.Basic

/-!
# The constructed trie

A call of `construct_trie` receives a sorted group of entries that share a
prefix and are longer than it.  This file shows that the subtrie holds exactly
the entries of the group, that it is well formed for the serializer, and that
its size is bounded in terms of the names.
-/

namespace Mold.MachO.ExportTrie

open Mold.Lib Mold.Common

/-! ## Trees -/

theorem TrieNode.induct {P : TrieNode → Prop}
    (mk : ∀ label children leaf offset, (∀ c ∈ children, P c) →
      P (.mk label children leaf offset)) :
    ∀ node, P node
  | .mk label children leaf offset =>
    mk label children leaf offset fun c _ => TrieNode.induct mk c

mutual

/-- The entries of a subtrie whose root has the name `pre`. -/
def contents : TrieNode → List Byte → List Entry
  | .mk _ children leaf _, pre =>
    (leaf.map fun l => ⟨pre, l.flags, l.addr⟩).toList ++ contentsAll children pre

/-- The entries of the subtries below a node with the name `pre`. -/
def contentsAll : List TrieNode → List Byte → List Entry
  | [], _ => []
  | child :: children, pre =>
    contents child (pre ++ child.label) ++ contentsAll children pre

end

/-- What the serializer and the reader rely on: the number of children fits in
a byte, prefixes are C strings, and leaves hold an address. -/
inductive WellFormed : TrieNode → Prop where
  | mk {label : List Byte} {children : List TrieNode} {leaf : Option Leaf}
      {offset : UInt32}
      (count : children.length < 256)
      (nulFree : ∀ c ∈ children, 0 ∉ c.label)
      (plain : ∀ l ∈ leaf, isReexport l.flags = false ∧ isStubAndResolver l.flags = false)
      (below : ∀ c ∈ children, WellFormed c) :
      WellFormed (.mk label children leaf offset)

mutual

/-- A bound on the size of a subtrie, with the space that a parent reserves
for the prefix and the offset. -/
def weight : TrieNode → ℕ
  | .mk label children _ _ => label.length + 22 + weightAll children

def weightAll : List TrieNode → ℕ
  | [] => 0
  | child :: children => weight child + weightAll children

end

/-- Is some node of a subtrie a leaf without children whose address is `addr`? -/
inductive HasBottomLeaf (addr : UInt64) : TrieNode → Prop where
  | here {label : List Byte} {flags : UInt32} {offset : UInt32} :
      HasBottomLeaf addr (.mk label [] (some ⟨flags, addr⟩) offset)
  | inChild {label : List Byte} {children : List TrieNode} {leaf : Option Leaf}
      {offset : UInt32} {child : TrieNode} (hmem : child ∈ children)
      (h : HasBottomLeaf addr child) :
      HasBottomLeaf addr (.mk label children leaf offset)

/-! ## Groups of entries -/

/-- The entries that a call of `construct_trie` receives. -/
structure IsGroup (entries : List Entry) (len : ℕ) : Prop where
  ne_nil : entries ≠ []
  sorted : entries.Pairwise fun a b => a.name < b.name
  shared : ∀ a ∈ entries, ∀ b ∈ entries, a.name.take len = b.name.take len
  longer : ∀ e ∈ entries, len < e.name.length

namespace IsGroup

variable {first : Entry} {rest : List Entry} {len : ℕ}

def newLen (first : Entry) (rest : List Entry) : ℕ :=
  commonPrefixLen first.name ((first :: rest).getLast (List.cons_ne_nil first rest)).name

variable {e : Entry}

theorem first_le (h : IsGroup (first :: rest) len)
    (he : e ∈ first :: rest) : first.name ≤ e.name := by
  rcases List.mem_cons.mp he with rfl | he
  · exact le_refl _
  · exact (List.rel_of_pairwise_cons h.sorted he).le

theorem le_last (h : IsGroup (first :: rest) len) (he : e ∈ first :: rest) :
    e.name ≤ ((first :: rest).getLast (List.cons_ne_nil first rest)).name := by
  obtain ⟨front, hfront⟩ : ∃ front, front ++
      [(first :: rest).getLast (List.cons_ne_nil first rest)] = first :: rest :=
    ⟨_, List.dropLast_append_getLast _⟩
  have hsorted := h.sorted
  rw [← hfront] at he hsorted
  rcases List.mem_append.mp he with he | he
  · exact ((List.pairwise_append.mp hsorted).2.2 e he _ (List.mem_singleton_self _)).le
  · rw [List.mem_singleton.mp he]

theorem take_newLen (h : IsGroup (first :: rest) len) (he : e ∈ first :: rest) :
    e.name.take (newLen first rest) = first.name.take (newLen first rest) :=
  take_eq_of_le_of_le (h.first_le he) (h.le_last he)
    (commonPrefixLen_le_left _ _) (take_commonPrefixLen _ _)

theorem le_newLen (h : IsGroup (first :: rest) len) : len ≤ newLen first rest :=
  le_commonPrefixLen (h.longer _ List.mem_cons_self).le (h.longer _ (List.getLast_mem _)).le
    (h.shared _ List.mem_cons_self _ (List.getLast_mem _))

theorem newLen_le_first : newLen first rest ≤ first.name.length :=
  commonPrefixLen_le_left _ _

theorem newLen_lt_of_mem_rest (h : IsGroup (first :: rest) len)
    (he : e ∈ rest) : newLen first rest < e.name.length := by
  by_contra hshort
  have htake := h.take_newLen (List.mem_cons_of_mem first he)
  rw [List.take_of_length_le (not_lt.mp hshort)] at htake
  have hle : e.name ≤ first.name := le_of_prefix
    (htake ▸ List.take_prefix (newLen first rest) first.name)
  exact absurd (List.rel_of_pairwise_cons h.sorted he) (not_lt.mpr hle)

/-- The entries that are left once a leaf is taken from the front. -/
def remaining (first : Entry) (rest : List Entry) (len : ℕ) : List Entry :=
  if decide (len < newLen first rest) &&
      first.name.length == newLen first rest
  then rest else first :: rest

theorem isLeaf_iff (h : IsGroup (first :: rest) len) :
    (decide (len < newLen first rest) &&
      first.name.length == newLen first rest) = true ↔
        first.name.length = newLen first rest := by
  rw [Bool.and_eq_true, decide_eq_true_eq, beq_iff_eq, and_iff_right_iff_imp]
  intro heq
  rw [← heq]
  exact h.longer first List.mem_cons_self

theorem remaining_subset (he : e ∈ remaining first rest len) : e ∈ first :: rest := by
  rw [remaining] at he
  split at he
  · exact List.mem_cons_of_mem first he
  · exact he

theorem newLen_lt_of_mem_remaining (h : IsGroup (first :: rest) len)
    (he : e ∈ remaining first rest len) :
    newLen first rest < e.name.length := by
  rw [remaining] at he
  split at he
  · exact h.newLen_lt_of_mem_rest he
  · next hleaf =>
      rcases List.mem_cons.mp he with rfl | he
      · have hne := mt h.isLeaf_iff.mpr hleaf
        have hle : newLen e rest ≤ e.name.length := newLen_le_first
        omega
      · exact h.newLen_lt_of_mem_rest he

theorem remaining_sorted (h : IsGroup (first :: rest) len) :
    (remaining first rest len).Pairwise fun a b => a.name < b.name := by
  rw [remaining]
  split
  · exact h.sorted.of_cons
  · exact h.sorted

/-! ## Runs -/

variable {n : ℕ} {entries run : List Entry}

theorem run_sublist (hrun : run ∈ runs n entries) : run.Sublist entries := by
  have hflat := List.sublist_flatten_of_mem hrun
  rwa [runs, List.flatten_splitBy] at hflat

theorem run_ne_nil (hrun : run ∈ runs n entries) : run ≠ [] :=
  List.ne_nil_of_mem_splitBy hrun

theorem run_isGroup (h : IsGroup (first :: rest) len) {run : List Entry}
    (hrun : run ∈ runs (newLen first rest) (remaining first rest len)) :
    IsGroup run (newLen first rest) where
  ne_nil := run_ne_nil hrun
  sorted := h.remaining_sorted.sublist (run_sublist hrun)
  shared := by
    intro a ha b hb
    rw [h.take_newLen (remaining_subset ((run_sublist hrun).subset ha)),
      h.take_newLen (remaining_subset ((run_sublist hrun).subset hb))]
  longer := fun e he =>
    h.newLen_lt_of_mem_remaining ((run_sublist hrun).subset he)

theorem getElem?_eq_of_mem_run
    (hrun : run ∈ runs n entries) {a b : Entry} (ha : a ∈ run) (hb : b ∈ run) :
    a.name[n]? = b.name[n]? := by
  have hchain := List.isChain_of_mem_splitBy hrun
  simp only [decide_eq_true_eq] at hchain
  have hpair : run.Pairwise fun a b => a.name[n]? = b.name[n]? := by
    have htrans : IsTrans Entry fun a b => a.name[n]? = b.name[n]? :=
      ⟨fun _ _ _ => Eq.trans⟩
    exact List.isChain_iff_pairwise.mp hchain
  have hsymm : Std.Symm fun a b : Entry => a.name[n]? = b.name[n]? :=
    ⟨fun _ _ => Eq.symm⟩
  exact List.Pairwise.forall_of_forall (R := fun a b : Entry => a.name[n]? = b.name[n]?)
    (fun _ _ => rfl) hpair ha hb

theorem getElem?_first_ne_last (h : IsGroup (first :: rest) len)
    (hleaf : first.name.length ≠ newLen first rest) :
    first.name[newLen first rest]? ≠
      ((first :: rest).getLast (List.cons_ne_nil first rest)).name[ newLen first rest]? := by
  have hfirst : newLen first rest < first.name.length := by
    have hle : newLen first rest ≤ first.name.length := newLen_le_first
    omega
  apply getElem?_commonPrefixLen_ne hfirst
  cases rest with
  | nil => exact hfirst
  | cons second rest =>
    apply h.newLen_lt_of_mem_rest
    rw [List.getLast_cons (List.cons_ne_nil second rest)]
    exact List.getLast_mem _

theorem run_length_lt (h : IsGroup (first :: rest) len) {run : List Entry}
    (hrun : run ∈ runs (newLen first rest) (remaining first rest len)) :
    run.length < (first :: rest).length := by
  have hsub := run_sublist hrun
  by_cases hleaf : first.name.length = newLen first rest
  · rw [remaining, if_pos (h.isLeaf_iff.mpr hleaf)] at hsub
    exact Nat.lt_succ_of_le hsub.length_le
  · have hrest : remaining first rest len = first :: rest :=
      if_neg (mt h.isLeaf_iff.mp hleaf)
    rw [hrest] at hrun hsub
    refine lt_of_le_of_ne hsub.length_le ?_
    intro hlen
    obtain rfl := hsub.eq_of_length hlen
    exact h.getElem?_first_ne_last hleaf (getElem?_eq_of_mem_run hrun
      List.mem_cons_self (List.getLast_mem _))

theorem two_le_length_runs (h : IsGroup (first :: rest) len)
    (hleaf : first.name.length ≠ newLen first rest) :
    2 ≤ (runs (newLen first rest) (remaining first rest len)).length := by
  have hrest : remaining first rest len = first :: rest :=
    if_neg (mt h.isLeaf_iff.mp hleaf)
  have hflat : (runs (newLen first rest) (remaining first rest len)).flatten =
      first :: rest := by
    rw [runs, List.flatten_splitBy, hrest]
  match hruns : runs (newLen first rest) (remaining first rest len) with
  | [] => simp [hruns] at hflat
  | [run] =>
    have hlt : run.length < (first :: rest).length :=
      h.run_length_lt (by simp [hruns])
    rw [hruns, List.flatten_singleton] at hflat
    rw [hflat] at hlt
    exact absurd hlt (lt_irrefl _)
  | _ :: _ :: _ => simp

def runKey (n : ℕ) : List Entry → ℕ
  | [] => 0
  | e :: _ => (e.name.getD n 0).val

theorem runKey_eq (hrun : run ∈ runs n entries)
    (he : e ∈ run) : runKey n run = (e.name.getD n 0).val := by
  cases run with
  | nil => simp at he
  | cons e' run =>
    have heq := getElem?_eq_of_mem_run hrun List.mem_cons_self he
    rw [runKey, List.getD_eq_getElem?_getD, List.getD_eq_getElem?_getD, heq]

theorem runKey_pairwise (h : IsGroup (first :: rest) len) :
    ((runs (newLen first rest) (remaining first rest len)).map
      (runKey (newLen first rest))).Pairwise (· < ·) := by
  rw [← List.isChain_iff_pairwise, List.isChain_map,
    List.isChain_iff_forall_rel_of_append_cons_cons]
  intro a b before after heq
  have hboundary := List.isChain_iff_forall_rel_of_append_cons_cons.mp
    (List.isChain_getLast_head_splitBy _ _) heq
  obtain ⟨ha, hb, hne⟩ := hboundary
  rw [decide_eq_false_iff_not] at hne
  have hmema : a ∈ runs (newLen first rest) (remaining first rest len) := by
    simp [heq]
  have hmemb : b ∈ runs (newLen first rest) (remaining first rest len) := by
    simp [heq]
  have hlasta := List.getLast_mem ha
  have hheadb := List.head_mem hb
  have hrema := (run_sublist hmema).subset hlasta
  have hremb := (run_sublist hmemb).subset hheadb
  have hlt : (a.getLast ha).name < (b.head hb).name := by
    have hsorted := h.remaining_sorted
    rw [← List.flatten_splitBy (fun a b => decide
      (a.name[newLen first rest]? = b.name[newLen first rest]?))
      (remaining first rest len), ← runs, heq, List.pairwise_flatten] at hsorted
    have hruns := (List.pairwise_append.mp hsorted.2).2.1
    exact (List.pairwise_cons.mp hruns).1 b List.mem_cons_self _ hlasta _ hheadb
  have hshort := h.newLen_lt_of_mem_remaining hrema
  have hshort' := h.newLen_lt_of_mem_remaining hremb
  have hle := getElem_le_of_le hlt.le (by
    rw [h.take_newLen (remaining_subset hrema),
      h.take_newLen (remaining_subset hremb)]) hshort hshort'
  rw [runKey_eq hmema hlasta, runKey_eq hmemb hheadb,
    List.getD_eq_getElem _ _ hshort, List.getD_eq_getElem _ _ hshort']
  rw [List.getElem?_eq_getElem hshort, List.getElem?_eq_getElem hshort'] at hne
  exact lt_of_le_of_ne hle fun heq => hne (by rw [Fin.ext heq])

theorem length_runs_lt (h : IsGroup (first :: rest) len) (hnul : ∀ e ∈ first :: rest, 0 ∉ e.name) :
    (runs (newLen first rest) (remaining first rest len)).length < 256 := by
  have hnodup : ((runs (newLen first rest) (remaining first rest len)).map
      (runKey (newLen first rest))).Nodup :=
    h.runKey_pairwise.imp fun hlt => hlt.ne
  have hsubset : ((runs (newLen first rest) (remaining first rest len)).map
      (runKey (newLen first rest))) ⊆ List.range' 1 255 := by
    intro key hkey
    obtain ⟨run, hrun, rfl⟩ := List.mem_map.mp hkey
    obtain ⟨e, he⟩ := List.exists_mem_of_ne_nil run (run_ne_nil hrun)
    have hrem := (run_sublist hrun).subset he
    have hshort := h.newLen_lt_of_mem_remaining hrem
    have hchar : e.name[newLen first rest] ≠ 0 := by
      intro hzero
      exact hnul e (remaining_subset hrem) (hzero ▸ List.getElem_mem hshort)
    have hpos : (e.name[newLen first rest]).val ≠ 0 := fun hzero =>
      hchar (Fin.ext hzero)
    rw [runKey_eq hrun he, List.getD_eq_getElem _ _ hshort, List.mem_range'_1]
    omega
  have hle := hnodup.length_le_of_subset hsubset
  rw [List.length_map, List.length_range'] at hle
  omega

end IsGroup

def groupLabel (first : Entry) (rest : List Entry) (len : ℕ) : List Byte :=
  if len < IsGroup.newLen first rest
  then (first.name.drop len).take (IsGroup.newLen first rest - len) else []

def groupLeaf (first : Entry) (rest : List Entry) (len : ℕ) : Option Leaf :=
  if decide (len < IsGroup.newLen first rest) &&
      first.name.length == IsGroup.newLen first rest
  then some ⟨first.flags, first.addr⟩ else none

theorem constructTrie_cons (fuel : ℕ) (first : Entry) (rest : List Entry) (len : ℕ) :
    constructTrie (fuel + 1) (first :: rest) len =
      .mk (groupLabel first rest len)
        ((runs (IsGroup.newLen first rest)
          (IsGroup.remaining first rest len)).map
            fun run => constructTrie fuel run (IsGroup.newLen first rest))
        (groupLeaf first rest len) freshOffset := rfl

variable {fuel : ℕ} {entries : List Entry} {len : ℕ}

theorem constructTrie_induct {P : List Entry → ℕ → TrieNode → Prop}
    (step : ∀ first rest len, IsGroup (first :: rest) len →
      ∀ child : List Entry → TrieNode,
        (∀ run ∈ runs (IsGroup.newLen first rest) (IsGroup.remaining first rest len),
          P run (IsGroup.newLen first rest) (child run)) →
        P (first :: rest) len
          (.mk (groupLabel first rest len)
            ((runs (IsGroup.newLen first rest) (IsGroup.remaining first rest len)).map child)
            (groupLeaf first rest len) freshOffset))
    (h : IsGroup entries len)
    (hfuel : entries.length ≤ fuel) :
    P entries len (constructTrie fuel entries len) := by
  induction fuel generalizing entries len with
  | zero => exact absurd (List.length_eq_zero_iff.mp (by omega)) h.ne_nil
  | succ fuel ih =>
    cases entries with
    | nil => exact absurd rfl h.ne_nil
    | cons first rest =>
      rw [constructTrie_cons]
      apply step first rest len h
      intro run hrun
      have hlt := h.run_length_lt hrun
      exact ih (h.run_isGroup hrun) (by omega)

variable {first : Entry} {rest : List Entry}

theorem IsGroup.take_append_groupLabel (h : IsGroup (first :: rest) len) :
    first.name.take len ++ groupLabel first rest len =
      first.name.take (newLen first rest) := by
  have hle := h.le_newLen
  rw [groupLabel]
  split
  · rw [← List.take_add]
    congr 1
    omega
  · rw [List.append_nil]
    congr 1
    omega

theorem contentsAll_map {child : List Entry → TrieNode} {pre : List Byte}
    {rs : List (List Entry)}
    (h : ∀ run ∈ rs, contents (child run) (pre ++ (child run).label) = run) :
    contentsAll (rs.map child) pre = rs.flatten := by
  induction rs with
  | nil => rfl
  | cons run rs ih =>
    rw [List.map_cons, contentsAll, h run List.mem_cons_self,
      ih fun r hr => h r (List.mem_cons_of_mem run hr), List.flatten_cons]

theorem contents_constructTrie (h : IsGroup entries len) (hfuel : entries.length ≤ fuel) :
    ∀ e ∈ entries, contents (constructTrie fuel entries len)
      (e.name.take len ++ (constructTrie fuel entries len).label) = entries := by
  refine constructTrie_induct (P := fun entries len node =>
    ∀ e ∈ entries, contents node (e.name.take len ++ node.label) = entries)
    ?_ h hfuel
  intro first rest len h child ih e he
  rw [TrieNode.label, h.shared e he first List.mem_cons_self,
    h.take_append_groupLabel, contents, contentsAll_map, runs,
    List.flatten_splitBy]
  · by_cases hleaf : first.name.length = IsGroup.newLen first rest
    · rw [groupLeaf, IsGroup.remaining, if_pos (h.isLeaf_iff.mpr hleaf),
        if_pos (h.isLeaf_iff.mpr hleaf), ← hleaf, List.take_length]
      rfl
    · rw [groupLeaf, IsGroup.remaining, if_neg (mt h.isLeaf_iff.mp hleaf),
        if_neg (mt h.isLeaf_iff.mp hleaf)]
      rfl
  · intro run hrun
    obtain ⟨e, he⟩ := List.exists_mem_of_ne_nil run (IsGroup.run_ne_nil hrun)
    have hmem := IsGroup.remaining_subset ((IsGroup.run_sublist hrun).subset he)
    rw [← h.take_newLen hmem]
    exact ih run hrun e he

theorem groupLabel_subset : groupLabel first rest len ⊆ first.name := by
  rw [groupLabel]
  split
  · exact fun _ hb => List.drop_subset _ _ (List.take_subset _ _ hb)
  · exact List.nil_subset _

theorem wellFormed_constructTrie (h : IsGroup entries len) (hfuel : entries.length ≤ fuel)
    (hnul : ∀ e ∈ entries, 0 ∉ e.name)
    (hplain : ∀ e ∈ entries, isReexport e.flags = false ∧ isStubAndResolver e.flags = false) :
    WellFormed (constructTrie fuel entries len) ∧ 0 ∉ (constructTrie fuel entries len).label := by
  refine constructTrie_induct (P := fun entries _ node =>
    (∀ e ∈ entries, 0 ∉ e.name) →
    (∀ e ∈ entries, isReexport e.flags = false ∧ isStubAndResolver e.flags = false) →
    WellFormed node ∧ 0 ∉ node.label) ?_ h hfuel hnul hplain
  intro first rest len h child ih hnul hplain
  have hrun : ∀ run ∈ runs (IsGroup.newLen first rest) (IsGroup.remaining first rest len),
      WellFormed (child run) ∧ 0 ∉ (child run).label := by
    intro run hrun
    have hsub : ∀ e ∈ run, e ∈ first :: rest := fun e he =>
      IsGroup.remaining_subset ((IsGroup.run_sublist hrun).subset he)
    exact ih run hrun (fun e he => hnul e (hsub e he))
      fun e he => hplain e (hsub e he)
  constructor
  · constructor
    · rw [List.length_map]
      exact h.length_runs_lt hnul
    · intro c hc
      obtain ⟨run, hmem, rfl⟩ := List.mem_map.mp hc
      exact (hrun run hmem).2
    · intro l hl
      rw [groupLeaf] at hl
      split at hl
      · obtain rfl : Leaf.mk first.flags first.addr = l := by simpa using hl
        exact hplain first List.mem_cons_self
      · simp at hl
    · intro c hc
      obtain ⟨run, hmem, rfl⟩ := List.mem_map.mp hc
      exact (hrun run hmem).1
  · exact fun hzero => hnul first List.mem_cons_self (groupLabel_subset hzero)

/-! ## The size bound -/

def groupBound (len : ℕ) (entries : List Entry) : ℕ :=
  (entries.map fun e => e.name.length - len + 44).sum

theorem groupBound_append (len : ℕ) (es fs : List Entry) :
    groupBound len (es ++ fs) = groupBound len es + groupBound len fs := by
  simp [groupBound]

theorem groupBound_cons (len : ℕ) (e : Entry) (es : List Entry) :
    groupBound len (e :: es) = e.name.length - len + 44 + groupBound len es := by
  simp [groupBound]

theorem groupBound_anti {len newLen : ℕ} (hle : len ≤ newLen)
    (es : List Entry) : groupBound newLen es ≤ groupBound len es := by
  induction es with
  | nil => exact le_refl _
  | cons e es ih =>
    rw [groupBound_cons, groupBound_cons]
    omega

theorem weightAll_map_le {child : List Entry → TrieNode}
    {rs : List (List Entry)}
    (h : ∀ run ∈ rs, weight (child run) + 22 ≤ groupBound len run) :
    weightAll (rs.map child) + 22 * rs.length ≤ groupBound len rs.flatten := by
  induction rs with
  | nil => exact Nat.zero_le _
  | cons run rs ih =>
    have hhead := h run List.mem_cons_self
    have htail := ih fun r hr => h r (List.mem_cons_of_mem run hr)
    rw [List.map_cons, weightAll, List.flatten_cons, groupBound_append, List.length_cons]
    omega

theorem length_groupLabel :
    (groupLabel first rest len).length = IsGroup.newLen first rest - len := by
  have hle : IsGroup.newLen first rest ≤ first.name.length :=
    IsGroup.newLen_le_first
  rw [groupLabel]
  split
  · rw [List.length_take, List.length_drop]
    omega
  · rw [List.length_nil]
    omega

theorem weight_constructTrie_le (h : IsGroup entries len) (hfuel : entries.length ≤ fuel) :
    weight (constructTrie fuel entries len) + 22 ≤ groupBound len entries := by
  refine constructTrie_induct (P := fun entries len node =>
    weight node + 22 ≤ groupBound len entries) ?_ h hfuel
  intro first rest len h child ih
  have hruns := weightAll_map_le ih
  have hle := h.le_newLen
  have hfirst : IsGroup.newLen first rest ≤ first.name.length :=
    IsGroup.newLen_le_first
  rw [show (runs (IsGroup.newLen first rest)
    (IsGroup.remaining first rest len)).flatten =
      IsGroup.remaining first rest len by rw [runs, List.flatten_splitBy]]
    at hruns
  rw [weight, length_groupLabel, groupBound_cons]
  have hrest := groupBound_anti hle rest
  by_cases hleaf : first.name.length = IsGroup.newLen first rest
  · rw [IsGroup.remaining, if_pos (h.isLeaf_iff.mpr hleaf)] at hruns ⊢
    omega
  · have htwo := h.two_le_length_runs hleaf
    rw [IsGroup.remaining, if_neg (mt h.isLeaf_iff.mp hleaf)] at hruns htwo ⊢
    rw [groupBound_cons] at hruns
    omega

theorem hasBottomLeaf_constructTrie
    (h : IsGroup entries len) (hfuel : entries.length ≤ fuel) {e : Entry}
    (he : e ∈ entries)
    (halone : ∀ e' ∈ entries, e.name <+: e'.name → e' = e) :
    HasBottomLeaf e.addr (constructTrie fuel entries len) := by
  refine constructTrie_induct (P := fun entries _ node =>
    e ∈ entries → (∀ e' ∈ entries, e.name <+: e'.name → e' = e) →
      HasBottomLeaf e.addr node) ?_ h hfuel he halone
  intro first rest len h child ih he halone
  by_cases hrem : e ∈ IsGroup.remaining first rest len
  · rw [← List.flatten_splitBy (fun a b => decide
      (a.name[IsGroup.newLen first rest]? = b.name[IsGroup.newLen first rest]?))
      (IsGroup.remaining first rest len), ← runs] at hrem
    obtain ⟨run, hrun, hmem⟩ := List.mem_flatten.mp hrem
    refine HasBottomLeaf.inChild (List.mem_map_of_mem hrun) (ih run hrun hmem ?_)
    intro e' he'
    exact halone e' (IsGroup.remaining_subset ((IsGroup.run_sublist hrun).subset he'))
  · by_cases hleaf : first.name.length = IsGroup.newLen first rest
    · have hguard := h.isLeaf_iff.mpr hleaf
      rw [IsGroup.remaining, if_pos hguard] at hrem ⊢
      obtain rfl : e = first := (List.mem_cons.mp he).resolve_right hrem
      have hrest : rest = [] := by
        rw [List.eq_nil_iff_forall_not_mem]
        intro e' he'
        have htake := h.take_newLen (List.mem_cons_of_mem e he')
        rw [← hleaf, List.take_length] at htake
        have heq := halone e' (List.mem_cons_of_mem e he')
          (htake ▸ List.take_prefix e.name.length e'.name)
        exact hrem (heq ▸ he')
      rw [groupLeaf, if_pos hguard]
      subst hrest
      exact HasBottomLeaf.here
    · rw [IsGroup.remaining, if_neg (mt h.isLeaf_iff.mp hleaf)] at hrem
      exact absurd he hrem

end Mold.MachO.ExportTrie
