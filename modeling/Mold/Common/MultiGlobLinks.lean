import Mold.Common.MultiGlob
import Mold.Lib.LongestSuffix

/-!
# The suffix links and the values of the trie

`fix_suffix_links` comes to the nodes in breadth-first order, so the links that it follows
have been set before.  It links each node to its longest proper suffix that is a node.
`fix_values` then gives each node the least value of a suffix.
-/

namespace Mold.MultiGlob

open Lib Lib.BreadthFirst

/-! ## Nodes -/

structure IsTrie (nodes : List Node) : Prop where
  root : [] ∈ nodes
  nodup : nodes.Nodup
  closed : PrefixClosed (· ∈ nodes)

variable {nodes : List Node} {p q cur node : Node} {c : UInt8} {t t' : Trie}

theorem mem_allBytes (c : UInt8) : c ∈ allBytes :=
  List.mem_map.mpr ⟨c.toNat, List.mem_range.mpr c.toNat_lt, UInt8.ofNat_toNat⟩

theorem nodup_allBytes : allBytes.Nodup := by
  refine List.Nodup.map_on (fun a ha b hb heq => ?_) List.nodup_range
  rw [List.mem_range] at ha hb
  have := congrArg UInt8.toNat heq
  rwa [UInt8.toNat_ofNat_of_lt' ha, UInt8.toNat_ofNat_of_lt' hb] at this

theorem mem_children_iff : q ∈ children nodes p ↔ q ∈ nodes ∧ ∃ c, q = p ++ [c] := by
  rw [children, List.mem_map]
  constructor
  · rintro ⟨c, hc, rfl⟩
    exact ⟨of_decide_eq_true (List.mem_filter.mp hc).2, c, rfl⟩
  · rintro ⟨hmem, c, rfl⟩
    exact ⟨c, List.mem_filter.mpr ⟨mem_allBytes c, decide_eq_true hmem⟩, rfl⟩

theorem concat_inj {a b : UInt8} (h : p ++ [a] = q ++ [b]) : p = q ∧ a = b := by
  obtain ⟨hpq, hab⟩ := List.append_inj' h rfl
  exact ⟨hpq, List.singleton_inj.mp hab⟩

theorem nodup_children (nodes : List Node) (p : Node) : (children nodes p).Nodup :=
  (nodup_allBytes.filter _).map fun _ _ heq => (concat_inj heq).2

theorem tree_filter (nodes : List Node) :
    Tree (nodes.filter (· ≠ [])) (children nodes) List.length where
  mem p q hq := by
    obtain ⟨hmem, c, rfl⟩ := mem_children_iff.mp hq
    exact List.mem_filter.mpr ⟨hmem, decide_eq_true (List.append_ne_nil_of_right_ne_nil p (by simp))⟩
  nodup := nodup_children nodes
  parent _ _ _ hp hq := by
    obtain ⟨-, c, rfl⟩ := mem_children_iff.mp hp
    obtain ⟨-, d, heq⟩ := mem_children_iff.mp hq
    exact (concat_inj heq).1
  depth _ _ hq := by
    obtain ⟨-, c, rfl⟩ := mem_children_iff.mp hq
    exact List.length_append

theorem tree_nodes (nodes : List Node) : Tree nodes (children nodes) List.length where
  mem _ _ hq := (mem_children_iff.mp hq).1
  nodup := nodup_children nodes
  parent := (tree_filter nodes).parent
  depth := (tree_filter nodes).depth

theorem exists_concat (h : p ≠ []) : ∃ q c, p = q ++ [c] :=
  ⟨p.dropLast, p.getLast h, (List.dropLast_append_getLast h).symm⟩

def HasLink (nodes : List Node) (t : Trie) (p : Node) : Prop :=
  ∃ l, t.suffixLink p = some l ∧ LongestSuffix (· ∈ nodes) p.tail l.1

structure LinkedTo (nodes : List Node) (n : ℕ) (t : Trie) : Prop where
  nodes_eq : t.nodes = nodes
  root : t.suffixLink [] = none
  link : ∀ p ∈ nodes, p ≠ [] → p.length ≤ n → HasLink nodes t p

theorem findChild_spec (hnodes : IsTrie nodes) {n : ℕ} (ht : LinkedTo nodes n t)
    (hnode : node ∈ nodes) (hlen : node.length ≤ n) :
    (∀ q, findChild t c node = some q → LongestSuffix (fun q => q ++ [c] ∈ nodes) node q.1) ∧
      (findChild t c node = none → ∀ q, q <:+ node → q ++ [c] ∉ nodes) := by
  obtain ⟨m, hm⟩ : ∃ m, node.length < m := ⟨_, Nat.lt_succ_self _⟩
  induction m generalizing node with
  | zero => exact absurd hm (Nat.not_lt_zero _)
  | succ m ih =>
    rw [findChild]
    by_cases hchild : node ++ [c] ∈ t.nodes
    · rw [if_pos hchild]
      rw [ht.nodes_eq] at hchild
      refine ⟨fun q hq => ?_, fun hnone => ?_⟩
      · cases hq
        exact .self hchild
      · cases hnone
    · rw [if_neg hchild]
      rw [ht.nodes_eq] at hchild
      by_cases hroot : node = []
      · subst hroot
        rw [ht.root]
        refine ⟨fun q hq => ?_, fun _ q hq => ?_⟩
        · cases hq
        · rw [List.suffix_nil.mp hq]
          exact hchild
      · obtain ⟨l, hlink, hl⟩ := ht.link node hnode hroot hlen
        have hlt := l.2
        obtain ⟨hsome, hnone⟩ := ih hl.mem (by omega) (by omega)
        rw [hlink]
        refine ⟨fun q hq => ?_, fun hq q hsuffix hmem => ?_⟩
        · obtain ⟨q', hq', rfl⟩ := Option.map_eq_some_iff.mp hq
          exact LongestSuffix.of_link hnodes.closed hl hchild (hsome q' hq')
        · exact hnone (Option.map_eq_none_iff.mp hq) q
            (suffix_of_link hnodes.closed hl hchild hsuffix hmem) hmem

theorem childLink_spec (hnodes : IsTrie nodes) (ht : LinkedTo nodes cur.length t)
    (hcur : cur ∈ nodes) (hroot : cur ≠ []) :
    LongestSuffix (· ∈ nodes) (cur ++ [c]).tail (childLink t cur c).1 := by
  obtain ⟨l, hlink, hl⟩ := ht.link cur hcur hroot (Nat.le_refl _)
  obtain ⟨hsome, hnone⟩ := findChild_spec (c := c) hnodes ht hl.mem (Nat.le_of_lt l.2)
  rw [List.tail_append_of_ne_nil hroot, childLink, hlink]
  dsimp only
  cases hfind : findChild t c l.1 with
  | none => exact .append_nil hnodes.closed hnodes.root hl (hnone hfind)
  | some q => exact .append hnodes.closed hl (hsome q hfind)

/-! ## Setting links -/

/-- The links of some children of a node have been set, and nothing else has changed. -/
structure ChildrenLinked (nodes : List Node) (cur : Node) (t : Trie) (done : List UInt8)
    (t' : Trie) : Prop where
  nodes_eq : t'.nodes = nodes
  value_eq : t'.value = t.value
  frame : ∀ p, (∀ c, p ≠ cur ++ [c]) → t'.suffixLink p = t.suffixLink p
  link : ∀ c ∈ done, cur ++ [c] ∈ nodes → HasLink nodes t' (cur ++ [c])

theorem suffixLink_setLink_self (t : Trie) (node : Node) (link : Nearer node) :
    (t.setLink node link).suffixLink node = some link := by
  rw [Trie.setLink]
  exact Function.update_self ..

theorem suffixLink_setLink_of_ne (t : Trie) (link : Nearer node) (h : p ≠ node) :
    (t.setLink node link).suffixLink p = t.suffixLink p := by
  rw [Trie.setLink]
  exact Function.update_of_ne h ..

theorem ChildrenLinked.step {done : List UInt8} (h : ChildrenLinked nodes cur t done t')
    (link : Nearer (cur ++ [c])) (hlink : LongestSuffix (· ∈ nodes) (cur ++ [c]).tail link.1) :
    ChildrenLinked nodes cur t (done ++ [c])
      (if cur ++ [c] ∈ t'.nodes then t'.setLink (cur ++ [c]) link else t') := by
  rw [h.nodes_eq]
  split
  case isTrue hmem =>
    refine ⟨h.nodes_eq, h.value_eq, fun p hp => ?_, fun d hd hdmem => ?_⟩
    · rw [suffixLink_setLink_of_ne t' link (hp c)]
      exact h.frame p hp
    · by_cases hdc : d = c
      · subst hdc
        exact ⟨link, suffixLink_setLink_self t' _ link, hlink⟩
      · have hne : cur ++ [d] ≠ cur ++ [c] := fun heq => hdc (concat_inj heq).2
        rcases List.mem_append.mp hd with hd | hd
        · rw [HasLink, suffixLink_setLink_of_ne t' link hne]
          exact h.link d hd hdmem
        · exact absurd (List.mem_singleton.mp hd) hdc
  case isFalse hmem =>
    refine ⟨h.nodes_eq, h.value_eq, h.frame, fun d hd hdmem => ?_⟩
    rcases List.mem_append.mp hd with hd | hd
    · exact h.link d hd hdmem
    · rw [List.mem_singleton.mp hd] at hdmem
      exact absurd hdmem hmem

theorem ChildrenLinked.linkedTo {done : List UInt8} (h : ChildrenLinked nodes cur t done t')
    (ht : LinkedTo nodes cur.length t) : LinkedTo nodes cur.length t' := by
  have hne : ∀ p : Node, p.length ≤ cur.length → ∀ c, p ≠ cur ++ [c] := by
    rintro p hp c rfl
    rw [List.length_append] at hp
    exact Nat.not_succ_le_self _ hp
  refine ⟨h.nodes_eq, ?_, fun p hp hroot hlen => ?_⟩
  · rw [h.frame [] (hne [] (Nat.zero_le _)), ht.root]
  · obtain ⟨l, hl, hlong⟩ := ht.link p hp hroot hlen
    exact ⟨l, (h.frame p (hne p hlen)).trans hl, hlong⟩

theorem linkChildren_spec (hnodes : IsTrie nodes) (ht : LinkedTo nodes cur.length t)
    (hcur : cur ∈ nodes) (hroot : cur ≠ []) :
    ChildrenLinked nodes cur t allBytes (linkChildren t cur) := by
  refine foldl_induction (P := ChildrenLinked nodes cur t) ?_ ?_
  · exact ⟨ht.nodes_eq, rfl, fun _ _ => rfl, List.forall_mem_nil _⟩
  · intro done c rest t' _ h
    exact h.step _ (childLink_spec hnodes (h.linkedTo ht) hcur hroot)

theorem linkRoot_spec (hnodes : IsTrie nodes) (ht : t.nodes = nodes) :
    ChildrenLinked nodes [] t allBytes (linkRoot t) := by
  refine foldl_induction (P := ChildrenLinked nodes [] t) ?_ ?_
  · exact ⟨ht, rfl, fun _ _ => rfl, List.forall_mem_nil _⟩
  · intro done c rest t' _ h
    exact h.step (rootLink [] c) (.self hnodes.root)

theorem mem_order_filter (hnodes : IsTrie nodes) {order : List Node}
    (hstart : ∀ x ∈ children nodes [], x ∈ order)
    (hclosed : ∀ x ∈ order, ∀ c ∈ children nodes x, c ∈ order) (hp : p ∈ nodes) (hroot : p ≠ []) :
    p ∈ order := by
  induction p using List.reverseRecOn with
  | nil => exact absurd rfl hroot
  | append_singleton p c ih =>
    have hchild : p ++ [c] ∈ children nodes p := mem_children_iff.mpr ⟨hp, c, rfl⟩
    by_cases hempty : p = []
    · subst hempty
      exact hstart _ hchild
    · exact hclosed p (ih (hnodes.closed p c hp) hempty) _ hchild

theorem mem_of_length_lt {done rest : List Node}
    (hsorted : (done ++ cur :: rest).Pairwise fun x y => x.length ≤ y.length)
    (hp : p ∈ done ++ cur :: rest) (hlt : p.length < cur.length) : p ∈ done := by
  rcases List.mem_append.mp hp with hp | hp
  · exact hp
  · rcases List.mem_cons.mp hp with rfl | hp
    · exact absurd hlt (Nat.lt_irrefl _)
    · have hle := (List.pairwise_cons.mp (List.pairwise_append.mp hsorted).2.1).1 p hp
      exact absurd hlt (Nat.not_lt_of_le hle)

/-- The state of `fix_suffix_links` when some nodes have been visited. -/
structure Linking (nodes : List Node) (t : Trie) (done : List Node) (t' : Trie) : Prop where
  nodes_eq : t'.nodes = nodes
  value_eq : t'.value = t.value
  root : t'.suffixLink [] = none
  link : ∀ p c, p ++ [c] ∈ nodes → p = [] ∨ p ∈ done → HasLink nodes t' (p ++ [c])

theorem Linking.step (hnodes : IsTrie nodes) {done rest order : List Node}
    (horder : order = done ++ cur :: rest)
    (hsorted : order.Pairwise fun x y => x.length ≤ y.length)
    (hall : ∀ p ∈ nodes, p ≠ [] → p ∈ order) (hcur : cur ∈ nodes) (hroot : cur ≠ [])
    (h : Linking nodes t done t') : Linking nodes t (done ++ [cur]) (linkChildren t' cur) := by
  subst horder
  have hless : ∀ p ∈ nodes, p ≠ [] → p.length < cur.length → p ∈ done := fun p hp hpne hlt =>
    mem_of_length_lt hsorted (hall p hp hpne) hlt
  have hlinked : LinkedTo nodes cur.length t' := by
    refine ⟨h.nodes_eq, h.root, fun p hp hpne hlen => ?_⟩
    obtain ⟨q, c, rfl⟩ := exists_concat hpne
    rw [List.length_append] at hlen
    refine h.link q c hp ?_
    by_cases hq : q = []
    · exact .inl hq
    · exact .inr (hless q (hnodes.closed q c hp) hq hlen)
  have hchildren := linkChildren_spec hnodes hlinked hcur hroot
  refine ⟨hchildren.nodes_eq, hchildren.value_eq.trans h.value_eq, ?_, fun p c hp hdone => ?_⟩
  · exact (hchildren.linkedTo hlinked).root
  · by_cases hpcur : p = cur
    · subst hpcur
      exact hchildren.link c (mem_allBytes c) hp
    · have hdone' : p = [] ∨ p ∈ done := by
        refine hdone.imp_right fun hmem => ?_
        rcases List.mem_append.mp hmem with hmem | hmem
        · exact hmem
        · exact absurd (List.mem_singleton.mp hmem) hpcur
      obtain ⟨l, hl, hlong⟩ := h.link p c hp hdone'
      have hframe := hchildren.frame (p ++ [c]) fun d heq => hpcur (concat_inj heq).1
      exact ⟨l, hframe.trans hl, hlong⟩

structure Linked (nodes : List Node) (t : Trie) : Prop where
  nodes_eq : t.nodes = nodes
  root : t.suffixLink [] = none
  link : ∀ p ∈ nodes, p ≠ [] → HasLink nodes t p

theorem fixSuffixLinks_spec (hnodes : IsTrie nodes) (ht : t.nodes = nodes)
    (hlinks : t.suffixLink [] = none) :
    ∃ t', fixSuffixLinks t = some t' ∧ Linked nodes t' ∧ t'.value = t.value := by
  subst ht
  have hstart : ∀ x ∈ children t.nodes [], x ∈ t.nodes.filter (· ≠ []) := (tree_filter _).mem []
  have hno : ∀ p ∈ t.nodes.filter (· ≠ []), ∀ c ∈ children t.nodes p, c ∉ children t.nodes [] := by
    intro p hp c hc hmem
    obtain rfl := (tree_filter t.nodes).parent p [] c hc hmem
    exact absurd rfl (of_decide_eq_true (List.mem_filter.mp hp).2)
  obtain ⟨hrun, -, hmem, hnode, hclosed⟩ := runQueue_eq (tree_filter t.nodes) hstart
    (nodup_children t.nodes []) hno (List.length_filter_le _ _) linkChildren (linkRoot t)
  have hlevel : Level List.length (children t.nodes []) := by
    constructor
    · refine List.pairwise_of_forall_mem_list fun x hx y hy => ?_
      rw [(tree_filter t.nodes).depth [] x hx, (tree_filter t.nodes).depth [] y hy]
    · intro x hx y hy
      rw [(tree_filter t.nodes).depth [] x hx, (tree_filter t.nodes).depth [] y hy]
      exact Nat.le_succ _
  have hsorted := pairwise_order (tree_filter t.nodes) (n := t.nodes.length) hlevel
  have hall : ∀ p ∈ t.nodes, p ≠ [] →
      p ∈ order (children t.nodes) t.nodes.length (children t.nodes []) :=
    fun p hp hroot => mem_order_filter hnodes hmem hclosed hp hroot
  have hrootLinks := linkRoot_spec hnodes (rfl : t.nodes = t.nodes)
  have hlinking : Linking t.nodes t [] (linkRoot t) := by
    refine ⟨hrootLinks.nodes_eq, hrootLinks.value_eq, ?_, ?_⟩
    · rw [hrootLinks.frame [] fun c heq => absurd heq (by simp), hlinks]
    · rintro p c hp (rfl | hdone)
      · exact hrootLinks.link c (mem_allBytes c) hp
      · cases hdone
  have hend := @foldl_induction _ _ linkChildren (Linking t.nodes t)
    (order (children t.nodes) t.nodes.length (children t.nodes [])) _ hlinking
    fun done cur rest t' horder h => by
      have hcur := List.mem_filter.mp
        (hnode cur (horder ▸ List.mem_append_right done List.mem_cons_self))
      exact h.step hnodes horder hsorted hall hcur.1 (of_decide_eq_true hcur.2)
  refine ⟨_, hrun, ⟨hend.nodes_eq, hend.root, fun p hp hroot => ?_⟩, hend.value_eq⟩
  obtain ⟨q, c, rfl⟩ := exists_concat hroot
  refine hend.link q c hp ?_
  by_cases hq : q = []
  · exact .inl hq
  · exact .inr (hall q (hnodes.closed q c hp) hq)

/-! ## Values -/

def LeastSuffix (value : Node → ℕ) (p : Node) (n : ℕ) : Prop :=
  ∀ b, n ≤ b ↔ ∃ q, q <:+ p ∧ value q ≤ b

structure IsValue (nodes : List Node) (value : Node → ℕ) : Prop where
  le : ∀ p, value p ≤ noValue
  of_not_mem : ∀ p, p ∉ nodes → value p = noValue

theorem leastSuffix_nil (value : Node → ℕ) : LeastSuffix value [] (value []) := by
  intro b
  constructor
  · exact fun h => ⟨[], List.suffix_refl [], h⟩
  · rintro ⟨q, hq, h⟩
    rwa [List.suffix_nil.mp hq] at h

theorem LeastSuffix.of_link {value : Node → ℕ} {l : Node} {n : ℕ} (hvalue : IsValue nodes value)
    (hl : LongestSuffix (· ∈ nodes) p.tail l) (h : LeastSuffix value l n) :
    LeastSuffix value p (min (value p) n) := by
  intro b
  rw [min_le_iff, h]
  constructor
  · rintro (hp | ⟨q, hq, hqb⟩)
    · exact ⟨p, List.suffix_refl p, hp⟩
    · exact ⟨q, hq.trans (hl.suffix.trans (List.tail_suffix p)), hqb⟩
  · rintro ⟨q, hq, hqb⟩
    by_cases hmem : q ∈ nodes
    · by_cases hqp : q = p
      · exact .inl (hqp ▸ hqb)
      · refine .inr ⟨q, hl.longest q ?_ hmem, hqb⟩
        cases p with
        | nil => exact hq
        | cons d p => exact (List.suffix_cons_iff.mp hq).resolve_left hqp
    · rw [hvalue.of_not_mem q hmem] at hqb
      exact .inl (Nat.le_trans (hvalue.le p) hqb)

structure ChildrenValued (t : Trie) (done : List Node) (t' : Trie) : Prop where
  nodes_eq : t'.nodes = t.nodes
  link_eq : t'.suffixLink = t.suffixLink
  frame : ∀ p, p ∉ done → t'.value p = t.value p
  value : ∀ p ∈ done, ∀ l, t.suffixLink p = some l → t'.value p = min (t.value p) (t.value l.1)

theorem fixChildren_spec (hlinked : Linked nodes t) (cur : Node) :
    ChildrenValued t (children nodes cur) (fixChildren t cur) := by
  rw [fixChildren, hlinked.nodes_eq]
  refine foldl_induction (P := ChildrenValued t) ?_ ?_
  · exact ⟨rfl, rfl, fun _ _ => rfl, List.forall_mem_nil _⟩
  · intro done child rest t' hchildren h
    have hmem : child ∈ children nodes cur :=
      hchildren ▸ List.mem_append_right done List.mem_cons_self
    have hnew : child ∉ done := fun hdone => by
      have hnodup := nodup_children nodes cur
      rw [hchildren] at hnodup
      exact (List.nodup_append.mp hnodup).2.2 child hdone child List.mem_cons_self rfl
    obtain ⟨hnode, c, rfl⟩ := mem_children_iff.mp hmem
    obtain ⟨l, hl, -⟩ := hlinked.link _ hnode (List.append_ne_nil_of_right_ne_nil cur (by simp))
    have hlnew : l.1 ∉ done := fun hdone => by
      have hlmem : l.1 ∈ children nodes cur := hchildren ▸ List.mem_append_left _ hdone
      have hdepth := (tree_nodes nodes).depth cur
      exact absurd ((hdepth _ hlmem).trans (hdepth _ hmem).symm) (Nat.ne_of_lt l.2)
    have hfix : fixValue t' (cur ++ [c]) = { t' with
        value := Function.update t'.value (cur ++ [c])
          (min (t.value (cur ++ [c])) (t.value l.1)) } := by
      rw [fixValue, h.link_eq, hl]
      dsimp only
      rw [h.frame _ hnew, h.frame _ hlnew]
    rw [hfix]
    refine ⟨h.nodes_eq, h.link_eq, fun p hp => ?_, fun p hp l' hl' => ?_⟩
    · have hpc : p ≠ cur ++ [c] := fun heq =>
        hp (heq ▸ List.mem_append_right done (List.mem_singleton_self _))
      exact (Function.update_of_ne hpc ..).trans
        (h.frame p fun hdone => hp (List.mem_append_left _ hdone))
    · by_cases hpc : p = cur ++ [c]
      · subst hpc
        rw [hl] at hl'
        cases hl'
        exact Function.update_self ..
      · refine (Function.update_of_ne hpc ..).trans ?_
        refine h.value p ?_ l' hl'
        exact (List.mem_append.mp hp).resolve_right fun hp => hpc (List.mem_singleton.mp hp)

/-- The state of `fix_values` when some nodes have been visited. -/
structure Valuing (nodes : List Node) (t : Trie) (done : List Node) (t' : Trie) : Prop where
  nodes_eq : t'.nodes = nodes
  link_eq : t'.suffixLink = t.suffixLink
  root : t'.value [] = t.value []
  later : ∀ p c, p ∉ done → t'.value (p ++ [c]) = t.value (p ++ [c])
  least : ∀ p c, p ∈ done → p ++ [c] ∈ nodes → LeastSuffix t.value (p ++ [c]) (t'.value (p ++ [c]))

theorem Valuing.step (hnodes : IsTrie nodes) (hlinked : Linked nodes t)
    (hvalue : IsValue nodes t.value) {done rest order : List Node}
    (horder : order = done ++ cur :: rest) (hnodup : order.Nodup)
    (hsorted : order.Pairwise fun x y => x.length ≤ y.length) (hall : ∀ p ∈ nodes, p ∈ order)
    (h : Valuing nodes t done t') : Valuing nodes t (done ++ [cur]) (fixChildren t' cur) := by
  subst horder
  have hless : ∀ p ∈ nodes, p.length < cur.length → p ∈ done := fun p hp hlt =>
    mem_of_length_lt hsorted (hall p hp) hlt
  have hlinked' : Linked nodes t' := by
    refine ⟨h.nodes_eq, ?_, fun p hp hroot => ?_⟩
    · rw [h.link_eq]
      exact hlinked.root
    · rw [HasLink, h.link_eq]
      exact hlinked.link p hp hroot
  have hchildren := fixChildren_spec hlinked' cur
  have hcur : cur ∉ done := fun hdone =>
    (List.nodup_append.mp hnodup).2.2 cur hdone cur List.mem_cons_self rfl
  refine ⟨hchildren.nodes_eq.trans h.nodes_eq, hchildren.link_eq.trans h.link_eq, ?_, ?_, ?_⟩
  · refine (hchildren.frame [] fun hmem => ?_).trans h.root
    obtain ⟨-, c, hc⟩ := mem_children_iff.mp hmem
    exact absurd hc (by simp)
  · intro p c hp
    refine (hchildren.frame _ fun hmem => ?_).trans
      (h.later p c fun hdone => hp (List.mem_append_left _ hdone))
    obtain ⟨-, d, heq⟩ := mem_children_iff.mp hmem
    exact hp (List.mem_append_right _ (List.mem_singleton.mpr (concat_inj heq).1))
  · intro p c hp hmem
    by_cases hpcur : p = cur
    · subst hpcur
      have hne : p ++ [c] ≠ [] := List.append_ne_nil_of_right_ne_nil p (by simp)
      obtain ⟨l, hl, hlong⟩ := hlinked.link _ hmem hne
      have hl' : t'.suffixLink (p ++ [c]) = some l := by rw [h.link_eq, hl]
      rw [hchildren.value _ (mem_children_iff.mpr ⟨hmem, c, rfl⟩) l hl', h.later p c hcur]
      refine LeastSuffix.of_link hvalue hlong ?_
      by_cases hlroot : l.1 = []
      · rw [hlroot, h.root]
        exact leastSuffix_nil t.value
      · obtain ⟨q, d, hq⟩ := exists_concat hlroot
        have hlmem := hlong.mem
        have hlen := l.2
        rw [hq] at hlmem ⊢
        rw [hq, List.length_append, List.length_append] at hlen
        refine h.least q d (hless q (hnodes.closed q d hlmem) ?_) hlmem
        exact Nat.lt_of_add_lt_add_right hlen
    · have hdone : p ∈ done :=
        (List.mem_append.mp hp).resolve_right fun hp => hpcur (List.mem_singleton.mp hp)
      rw [hchildren.frame]
      · exact h.least p c hdone hmem
      · intro hchild
        obtain ⟨-, d, heq⟩ := mem_children_iff.mp hchild
        exact hpcur (concat_inj heq).1

/-- What `compile` makes of the trie: the links go to longest suffixes, and the values are
least over the suffixes. -/
structure Compiled (nodes : List Node) (value : Node → ℕ) (t : Trie) : Prop where
  linked : Linked nodes t
  least : ∀ p ∈ nodes, LeastSuffix value p (t.value p)

theorem fixValues_spec (hnodes : IsTrie nodes) (hlinked : Linked nodes t)
    (hvalue : IsValue nodes t.value) :
    ∃ t', fixValues t = some t' ∧ Compiled nodes t.value t' := by
  have hno : ∀ p ∈ nodes, ∀ c ∈ children nodes p, c ∉ [[]] := by
    intro p _ c hc hmem
    obtain ⟨-, d, rfl⟩ := mem_children_iff.mp hc
    exact absurd (List.mem_singleton.mp hmem) (by simp)
  have hstart : ∀ x ∈ [[]], x ∈ nodes := fun x hx => List.mem_singleton.mp hx ▸ hnodes.root
  obtain ⟨hrun, hnodup, hmem, -, hclosed⟩ := runQueue_eq (tree_nodes nodes) hstart
    (List.nodup_singleton _) hno (Nat.le_refl _) fixChildren t
  have hlevel : @Level Node List.length [[]] := by
    refine ⟨List.pairwise_singleton _ _, fun x hx y hy => ?_⟩
    rw [List.mem_singleton.mp hx, List.mem_singleton.mp hy]
    exact Nat.le_succ _
  have hsorted := pairwise_order (tree_nodes nodes) (n := nodes.length) hlevel
  have hall : ∀ p ∈ nodes, p ∈ order (children nodes) nodes.length [[]] := by
    intro p hp
    by_cases hroot : p = []
    · subst hroot
      exact hmem [] List.mem_cons_self
    · refine mem_order_filter hnodes (fun x hx => ?_) hclosed hp hroot
      exact hclosed [] (hmem [] List.mem_cons_self) x hx
  have hvaluing : Valuing nodes t [] t :=
    ⟨hlinked.nodes_eq, rfl, rfl, fun _ _ _ => rfl, fun p c hp => absurd hp List.not_mem_nil⟩
  have hend := @foldl_induction _ _ fixChildren (Valuing nodes t)
    (order (children nodes) nodes.length [[]]) _ hvaluing
    fun done cur rest t' horder h =>
      h.step hnodes hlinked hvalue horder hnodup hsorted hall
  rw [fixValues, hlinked.nodes_eq]
  refine ⟨_, hrun, ⟨hend.nodes_eq, ?_, fun p hp hroot => ?_⟩, fun p hp => ?_⟩
  · rw [hend.link_eq]
    exact hlinked.root
  · rw [HasLink, hend.link_eq]
    exact hlinked.link p hp hroot
  · by_cases hroot : p = []
    · subst hroot
      rw [hend.root]
      exact leastSuffix_nil t.value
    · obtain ⟨q, c, rfl⟩ := exists_concat hroot
      exact hend.least q c (hall q (hnodes.closed q c hp)) hp

theorem compileTrie_spec (hnodes : IsTrie t.nodes) (hlinks : t.suffixLink [] = none)
    (hvalue : IsValue t.nodes t.value) :
    ∃ t', compileTrie t = some t' ∧ Compiled t.nodes t.value t' := by
  obtain ⟨t₁, hlink, hlinked, heq⟩ := fixSuffixLinks_spec hnodes rfl hlinks
  obtain ⟨t₂, hfix, hcompiled⟩ := fixValues_spec hnodes hlinked (heq ▸ hvalue)
  rw [heq] at hcompiled
  exact ⟨t₂, (congrArg (Option.bind · fixValues) hlink).trans hfix, hcompiled⟩

end Mold.MultiGlob
