import Mold.Common.MultiGlobLinks
import Mold.Common.MultiGlobPatterns
import Mathlib.Order.Bounds.Basic

/-!
# What `MultiGlob` finds

While the walk reads a string, its node is the longest suffix of what has been read that is a
node, and its value is the least one of a word of the trie in what has been read.  So `find`
returns the least value of a pattern that matches the string alone.  `UINT32_MAX` stands for
no value, and a pattern with this value is never found.
-/

namespace Mold.MultiGlob

open Glob Lib

variable {nodes : List Node} {value : Node → ℕ} {p q node : Node} {c : UInt8} {t : Trie}
  {str text : List UInt8} {val : ℕ}

theorem walk_eq (hlinked : Linked nodes t) (hnode : node ∈ nodes) :
    walk t c val node =
      match findChild t c node with
      | some q => (q.1 ++ [c], min val (t.value (q.1 ++ [c])))
      | none => ([], val) := by
  obtain ⟨m, hm⟩ : ∃ m, node.length < m := ⟨_, Nat.lt_succ_self _⟩
  induction m generalizing node with
  | zero => exact absurd hm (Nat.not_lt_zero _)
  | succ m ih =>
    rw [walk, findChild]
    by_cases hchild : node ++ [c] ∈ t.nodes
    · rw [if_pos hchild, if_pos hchild]
    · rw [if_neg hchild, if_neg hchild]
      by_cases hroot : node = []
      · subst hroot
        rw [hlinked.root]
      · obtain ⟨l, hlink, hl⟩ := hlinked.link node hnode hroot
        have hlt := l.2
        rw [hlink]
        dsimp only
        rw [ih hl.mem (by omega)]
        cases findChild t c l.1 with
        | none => rfl
        | some q => rfl

def LeastInfix (value : Node → ℕ) (text : List UInt8) (n : ℕ) : Prop :=
  ∀ b, n ≤ b ↔ ∃ q, q <:+: text ∧ value q ≤ b

structure Walked (nodes : List Node) (value : Node → ℕ) (text : List UInt8)
    (s : Node × ℕ) : Prop where
  node : LongestSuffix (· ∈ nodes) text s.1
  val : LeastInfix value text s.2

theorem LeastInfix.concat (hvalue : IsValue nodes value)
    (hp : LongestSuffix (· ∈ nodes) (text ++ [c]) p) {n : ℕ} (hn : LeastSuffix value p n)
    (h : LeastInfix value text val) : LeastInfix value (text ++ [c]) (min val n) := by
  intro b
  rw [min_le_iff, h, hn]
  constructor
  · rintro (⟨q, hq, hb⟩ | ⟨q, hq, hb⟩)
    · exact ⟨q, hq.trans (List.prefix_append text [c]).isInfix, hb⟩
    · exact ⟨q, (hq.trans hp.suffix).isInfix, hb⟩
  · rintro ⟨q, hq, hb⟩
    rcases List.infix_concat_iff.mp hq with hq | hq
    · by_cases hmem : q ∈ nodes
      · exact .inr ⟨q, hp.longest q hq hmem, hb⟩
      · rw [hvalue.of_not_mem q hmem] at hb
        exact .inl ⟨[], List.nil_infix, Nat.le_trans (hvalue.le []) hb⟩
    · exact .inl ⟨q, hq, hb⟩

theorem Walked.step (hnodes : IsTrie nodes) (hvalue : IsValue nodes value)
    (ht : Compiled nodes value t) {s : Node × ℕ} (h : Walked nodes value text s) (c : UInt8) :
    Walked nodes value (text ++ [c]) (walk t c s.2 s.1) := by
  have hlinked : LinkedTo nodes s.1.length t :=
    ⟨ht.linked.nodes_eq, ht.linked.root, fun p hp hroot _ => ht.linked.link p hp hroot⟩
  obtain ⟨hsome, hnone⟩ := findChild_spec (c := c) hnodes hlinked h.node.mem (Nat.le_refl _)
  rw [walk_eq ht.linked h.node.mem]
  cases hfind : findChild t c s.1 with
  | some q =>
    have hnode := LongestSuffix.append hnodes.closed h.node (hsome q hfind)
    exact ⟨hnode, h.val.concat hvalue hnode (ht.least _ hnode.mem)⟩
  | none =>
    have hnode := LongestSuffix.append_nil hnodes.closed hnodes.root h.node (hnone hfind)
    have hval := h.val.concat hvalue hnode (leastSuffix_nil value)
    have hle : s.2 ≤ value [] := (h.val _).mpr ⟨[], List.nil_infix, Nat.le_refl _⟩
    rw [Nat.min_eq_left hle] at hval
    exact ⟨hnode, hval⟩

theorem walked_walkString (hnodes : IsTrie nodes) (hvalue : IsValue nodes value)
    (hroot : value [] = noValue) (ht : Compiled nodes value t) (str : List UInt8) :
    LeastInfix value (0 :: (str ++ [0])) (walkString t str).2 := by
  have hstart : Walked nodes value [] ([], noValue) := by
    refine ⟨.self hnodes.root, fun b => ?_⟩
    rw [← hroot]
    constructor
    · exact fun h => ⟨[], List.nil_infix, h⟩
    · rintro ⟨q, hq, h⟩
      rwa [List.infix_nil.mp hq] at h
  have hrun : ∀ (rest text : List UInt8) (s : Node × ℕ), Walked nodes value text s →
      Walked nodes value (text ++ rest) (rest.foldl (fun s c => walk t c s.2 s.1) s) := by
    intro rest
    induction rest with
    | nil =>
      intro text s h
      rw [List.append_nil]
      exact h
    | cons c rest ih =>
      intro text s h
      rw [List.append_cons]
      exact ih _ _ (h.step hnodes hvalue ht c)
  exact (hrun (0 :: (str ++ [0])) [] _ hstart).val

/-! ## Adding patterns -/

structure HasWords (words : List (List UInt8 × ℕ)) (t : Trie) : Prop where
  nodes : IsTrie t.nodes
  link : t.suffixLink [] = none
  of_not_mem : ∀ p, p ∉ t.nodes → t.value p = noValue
  value : ∀ p b, t.value p ≤ b ↔ noValue ≤ b ∨ ∃ w ∈ words, w.1 = p ∧ w.2 ≤ b

theorem hasWords_new : HasWords [] .new where
  nodes := by
    refine ⟨List.mem_cons_self, List.nodup_singleton _, fun p c h => ?_⟩
    exact absurd (List.mem_singleton.mp h) (by simp)
  link := rfl
  of_not_mem _ _ := rfl
  value p b := by
    constructor
    · exact .inl
    · rintro (h | ⟨w, hw, -⟩)
      · exact h
      · cases hw

theorem isTrie_addByte {s : List Node × Node} (h : IsTrie s.1) (hs : s.2 ∈ s.1) (c : UInt8) :
    IsTrie (addByte s c).1 ∧ (addByte s c).2 ∈ (addByte s c).1 ∧ s.1 ⊆ (addByte s c).1 := by
  by_cases hmem : s.2 ++ [c] ∈ s.1
  · rw [addByte, if_pos hmem]
    exact ⟨h, hmem, List.Subset.refl _⟩
  · rw [addByte, if_neg hmem]
    refine ⟨⟨List.mem_append_left _ h.root, ?_, fun p d hp => ?_⟩,
      List.mem_append_right _ (List.mem_singleton_self _), List.subset_append_left _ _⟩
    · exact List.nodup_append.mpr ⟨h.nodup, List.nodup_singleton _, fun a ha b hb heq =>
        hmem (List.mem_singleton.mp hb ▸ heq ▸ ha)⟩
    · rcases List.mem_append.mp hp with hp | hp
      · exact List.mem_append_left _ (h.closed p d hp)
      · rw [(concat_inj (List.mem_singleton.mp hp)).1]
        exact List.mem_append_left _ hs

theorem isTrie_foldl_addByte {s : List Node × Node} (h : IsTrie s.1) (hs : s.2 ∈ s.1)
    (word : List UInt8) :
    IsTrie (word.foldl addByte s).1 ∧ (word.foldl addByte s).2 = s.2 ++ word ∧
      s.2 ++ word ∈ (word.foldl addByte s).1 ∧ s.1 ⊆ (word.foldl addByte s).1 := by
  induction word generalizing s with
  | nil =>
    rw [List.append_nil]
    exact ⟨h, rfl, hs, List.Subset.refl _⟩
  | cons c word ih =>
    obtain ⟨hbyte, hmem, hsub⟩ := isTrie_addByte h hs c
    obtain ⟨hword, heq, hmem', hsub'⟩ := ih hbyte hmem
    have hassoc : (addByte s c).2 ++ word = s.2 ++ c :: word :=
      (List.append_cons s.2 c word).symm
    rw [hassoc] at heq hmem'
    exact ⟨hword, heq, hmem', List.Subset.trans hsub hsub'⟩

theorem HasWords.add {words : List (List UInt8 × ℕ)} (h : HasWords words t)
    (word : List UInt8) (val : ℕ) : HasWords (words ++ [(word, val)]) (t.add word val) := by
  obtain ⟨hnodes, heq, hmem, hsub⟩ := @isTrie_foldl_addByte (t.nodes, []) h.nodes h.nodes.root word
  rw [List.nil_append] at heq hmem
  rw [Trie.add]
  refine ⟨hnodes, h.link, fun p hp => ?_, fun p b => ?_⟩
  · have hpw : p ≠ word := fun hpw => hp (hpw ▸ hmem)
    dsimp only
    rw [heq, Function.update_of_ne hpw]
    exact h.of_not_mem p fun hp' => hp (hsub hp')
  · dsimp only
    rw [heq]
    by_cases hpw : p = word
    · subst hpw
      rw [Function.update_self, min_le_iff, h.value, or_assoc]
      refine or_congr_right ?_
      constructor
      · rintro (⟨w, hw, hwp⟩ | hval)
        · exact ⟨w, List.mem_append_left _ hw, hwp⟩
        · exact ⟨(p, val), List.mem_append_right _ (List.mem_singleton_self _), rfl, hval⟩
      · rintro ⟨w, hw, hwp⟩
        rcases List.mem_append.mp hw with hw | hw
        · exact .inl ⟨w, hw, hwp⟩
        · rw [List.mem_singleton.mp hw] at hwp
          exact .inr hwp.2
    · rw [Function.update_of_ne hpw, h.value]
      refine or_congr_right ?_
      constructor
      · rintro ⟨w, hw, hwp⟩
        exact ⟨w, List.mem_append_left _ hw, hwp⟩
      · rintro ⟨w, hw, hwp⟩
        rcases List.mem_append.mp hw with hw | hw
        · exact ⟨w, hw, hwp⟩
        · rw [List.mem_singleton.mp hw] at hwp
          exact absurd hwp.1.symm hpw

def addAll (pairs : List (List UInt8 × ℕ)) : MultiGlob :=
  pairs.foldl (fun m pair => (m.add pair.1 pair.2).1) empty

def simpleWords (pairs : List (List UInt8 × ℕ)) : List (List UInt8 × ℕ) :=
  (pairs.filter (isSimplePattern ·.1)).map fun pair => (handleStars pair.1, pair.2)

def complexGlobs (pairs : List (List UInt8 × ℕ)) : List (List Element × ℕ) :=
  (pairs.filter (!isSimplePattern ·.1)).filterMap fun pair =>
    (compile pair.1).map fun glob => (glob, pair.2)

structure Added (pairs : List (List UInt8 × ℕ)) (m : MultiGlob) : Prop where
  root : HasWords (simpleWords pairs) (m.root.getD .new)
  globs : m.globs = complexGlobs pairs

variable {pairs : List (List UInt8 × ℕ)}

theorem added_add {m : MultiGlob} (h : Added pairs m)
    (pair : List UInt8 × ℕ) : Added (pairs ++ [pair]) (m.add pair.1 pair.2).1 := by
  obtain ⟨pat, val⟩ := pair
  rw [add]
  cases hsimple : isSimplePattern pat with
  | true =>
    have hwords : simpleWords (pairs ++ [(pat, val)]) =
        simpleWords pairs ++ [(handleStars pat, val)] := by
      simp [simpleWords, hsimple]
    have hglobs : complexGlobs (pairs ++ [(pat, val)]) = complexGlobs pairs := by
      simp [complexGlobs, hsimple]
    rw [if_neg (by decide)]
    constructor
    · rw [hwords]
      exact h.root.add _ _
    · rw [hglobs]
      exact h.globs
  | false =>
    have hwords : simpleWords (pairs ++ [(pat, val)]) = simpleWords pairs := by
      simp [simpleWords, hsimple]
    rw [if_pos (by decide)]
    cases hcompile : compile pat with
    | none =>
      have hglobs : complexGlobs (pairs ++ [(pat, val)]) = complexGlobs pairs := by
        simp [complexGlobs, hsimple, hcompile]
      exact ⟨hwords ▸ h.root, hglobs ▸ h.globs⟩
    | some glob =>
      have hglobs : complexGlobs (pairs ++ [(pat, val)]) = complexGlobs pairs ++ [(glob, val)] := by
        simp [complexGlobs, hsimple, hcompile]
      refine ⟨hwords ▸ h.root, ?_⟩
      rw [hglobs, ← h.globs]

theorem added_addAll (pairs : List (List UInt8 × ℕ)) : Added pairs (addAll pairs) := by
  have hrun : ∀ (rest done : List (List UInt8 × ℕ)) (m : MultiGlob), Added done m →
      Added (done ++ rest) (rest.foldl (fun m pair => (m.add pair.1 pair.2).1) m) := by
    intro rest
    induction rest with
    | nil =>
      intro done m h
      rw [List.append_nil]
      exact h
    | cons pair rest ih =>
      intro done m h
      rw [List.append_cons]
      exact ih _ _ (added_add h pair)
  exact hrun pairs [] empty ⟨hasWords_new, rfl⟩

/-! ## Finding -/

theorem handleStars_ne_nil {pat : List UInt8} (h : isSimplePattern pat = true) :
    handleStars pat ≠ [] := by
  obtain ⟨a, b, u, hne, hplain, rfl⟩ := exists_of_isSimplePattern h
  rw [handleStars_eq hne hplain]
  exact List.append_ne_nil_of_right_ne_nil _ (List.append_ne_nil_of_left_ne_nil hne _)

theorem trieValue_spec {m : MultiGlob} (h : Added pairs m) (str : List UInt8) :
    ∃ val, trieValue m str = some val ∧ ∀ b, val ≤ b ↔ noValue ≤ b ∨
      ∃ w ∈ simpleWords pairs, w.1 <:+: 0 :: (str ++ [0]) ∧ w.2 ≤ b := by
  have hroot := h.root
  rw [trieValue]
  cases hm : m.root with
  | none =>
    rw [hm] at hroot
    have hnil : ∀ b, noValue ≤ b ↔ noValue ≤ b ∨ ∃ w ∈ simpleWords pairs, w.2 ≤ b := by
      intro b
      refine ⟨.inl, fun hb => ?_⟩
      rcases hb with hb | ⟨w, hw, hwb⟩
      · exact hb
      · exact (hroot.value w.1 b).mpr (.inr ⟨w, hw, rfl, hwb⟩)
    refine ⟨noValue, rfl, fun b => ⟨.inl, fun hb => (hnil b).mpr (hb.imp_right ?_)⟩⟩
    rintro ⟨w, hw, -, hwb⟩
    exact ⟨w, hw, hwb⟩
  | some t =>
    rw [hm, Option.getD_some] at hroot
    have hvalue : IsValue t.nodes t.value :=
      ⟨fun p => (hroot.value p noValue).mpr (.inl (Nat.le_refl _)), hroot.of_not_mem⟩
    have hempty : t.value [] = noValue := by
      refine Nat.le_antisymm (hvalue.le []) ?_
      refine ((hroot.value [] (t.value [])).mp (Nat.le_refl _)).resolve_right ?_
      rintro ⟨w, hw, hwnil, -⟩
      obtain ⟨pair, hpair, rfl⟩ := List.mem_map.mp hw
      exact handleStars_ne_nil (List.mem_filter.mp hpair).2 hwnil
    obtain ⟨t', ht', hcompiled⟩ := compileTrie_spec hroot.nodes hroot.link hvalue
    dsimp only
    rw [ht']
    refine ⟨(walkString t' str).2, rfl, fun b => ?_⟩
    rw [walked_walkString hroot.nodes hvalue hempty hcompiled str b]
    constructor
    · rintro ⟨q, hq, hqb⟩
      refine ((hroot.value q b).mp hqb).imp_right ?_
      rintro ⟨w, hw, rfl, hwb⟩
      exact ⟨w, hw, hq, hwb⟩
    · rintro (hb | ⟨w, hw, hinfix, hwb⟩)
      · exact ⟨[], List.nil_infix, hempty.symm ▸ hb⟩
      · exact ⟨w.1, hinfix, (hroot.value w.1 b).mpr (.inr ⟨w, hw, rfl, hwb⟩)⟩

theorem matchGlobs_spec (str : List UInt8) (globs : List (List Element × ℕ)) (val : ℕ) :
    (matchGlobs str globs val = none ↔ ∃ g ∈ globs, doMatch g.1 str = none) ∧
      ∀ r, matchGlobs str globs val = some r → ∀ b, r ≤ b ↔ val ≤ b ∨
        ∃ g ∈ globs, doMatch g.1 str = some true ∧ g.2 ≤ b := by
  induction globs generalizing val with
  | nil =>
    refine ⟨iff_of_false (Option.some_ne_none val) ?_, fun r hr b => ?_⟩
    · rintro ⟨g, hg, -⟩
      cases hg
    · cases hr
      refine ⟨.inl, fun h => h.resolve_right ?_⟩
      rintro ⟨g, hg, -⟩
      cases hg
  | cons g globs ih =>
    rw [matchGlobs]
    cases hmatch : doMatch g.1 str with
    | none =>
      refine ⟨iff_of_true rfl ⟨g, List.mem_cons_self, hmatch⟩, fun r hr => ?_⟩
      cases hr
    | some found =>
      obtain ⟨hnone, hsome⟩ := ih (if found then min val g.2 else val)
      rw [Option.bind_some, List.exists_mem_cons_iff, hmatch]
      refine ⟨hnone.trans (or_iff_right (Option.some_ne_none found)).symm, fun r hr b => ?_⟩
      rw [hsome r hr b, List.exists_mem_cons_iff, hmatch]
      cases found with
      | true => simp [or_assoc]
      | false => simp

def IsLeastMatch (pairs : List (List UInt8 × ℕ)) (str : List UInt8) : Option ℕ → Prop
  | none => ∀ pair ∈ pairs, matchAlone pair.1 str = some true → noValue ≤ pair.2
  | some v => v < noValue ∧
      IsLeast {v | ∃ pair ∈ pairs, matchAlone pair.1 str = some true ∧ pair.2 = v} v

theorem matchAlone_of_isSimplePattern {pat : List UInt8} (h : isSimplePattern pat = true)
    (hpat : 0 ∉ pat) (hstr : 0 ∉ str) :
    ∃ found, matchAlone pat str = some found ∧
      (found = true ↔ handleStars pat <:+: 0 :: (str ++ [0])) := by
  obtain ⟨a, b, u, hne, hplain, rfl⟩ := exists_of_isSimplePattern h
  have hu : 0 ∉ u := fun hmem => hpat
    (List.mem_append_right _ (List.mem_append_left _ hmem))
  obtain ⟨found, hfound, hiff⟩ := matchAlone_pattern hne hplain a b str
  refine ⟨found, hfound, hiff.trans ?_⟩
  rw [handleStars_eq hne hplain, mark_infix_iff hne hu hstr]

theorem exists_matchAlone_iff (hpairs : ∀ pair ∈ pairs, 0 ∉ pair.1) (hstr : 0 ∉ str) (b : ℕ) :
    (∃ pair ∈ pairs, matchAlone pair.1 str = some true ∧ pair.2 ≤ b) ↔
      (∃ w ∈ simpleWords pairs, w.1 <:+: 0 :: (str ++ [0]) ∧ w.2 ≤ b) ∨
        ∃ g ∈ complexGlobs pairs, doMatch g.1 str = some true ∧ g.2 ≤ b := by
  constructor
  · rintro ⟨pair, hpair, hmatch, hb⟩
    cases hsimple : isSimplePattern pair.1 with
    | true =>
      obtain ⟨found, hfound, hiff⟩ :=
        matchAlone_of_isSimplePattern hsimple (hpairs pair hpair) hstr
      rw [hmatch] at hfound
      refine .inl ⟨_, List.mem_map_of_mem (List.mem_filter.mpr ⟨hpair, hsimple⟩), ?_, hb⟩
      exact hiff.mp (Option.some.inj hfound).symm
    | false =>
      rw [matchAlone] at hmatch
      cases hcompile : compile pair.1 with
      | none =>
        rw [hcompile] at hmatch
        cases hmatch
      | some glob =>
        rw [hcompile] at hmatch
        refine .inr ⟨(glob, pair.2), List.mem_filterMap.mpr ⟨pair, ?_, ?_⟩, hmatch, hb⟩
        · exact List.mem_filter.mpr ⟨hpair, by rw [hsimple]; rfl⟩
        · rw [hcompile]
          rfl
  · rintro (⟨w, hw, hinfix, hb⟩ | ⟨g, hg, hmatch, hb⟩)
    · obtain ⟨pair, hpair, rfl⟩ := List.mem_map.mp hw
      obtain ⟨hmem, hsimple⟩ := List.mem_filter.mp hpair
      obtain ⟨found, hfound, hiff⟩ :=
        matchAlone_of_isSimplePattern hsimple (hpairs pair hmem) hstr
      refine ⟨pair, hmem, ?_, hb⟩
      rw [hfound, hiff.mpr hinfix]
    · obtain ⟨pair, hpair, hg⟩ := List.mem_filterMap.mp hg
      obtain ⟨glob, hcompile, rfl⟩ := Option.map_eq_some_iff.mp hg
      refine ⟨pair, (List.mem_filter.mp hpair).1, ?_, hb⟩
      rw [matchAlone, hcompile]
      exact hmatch

theorem exists_matchAlone_eq_none_iff (hpairs : ∀ pair ∈ pairs, 0 ∉ pair.1) (hstr : 0 ∉ str) :
    (∃ pair ∈ pairs, matchAlone pair.1 str = none) ↔
      ∃ g ∈ complexGlobs pairs, doMatch g.1 str = none := by
  constructor
  · rintro ⟨pair, hpair, hmatch⟩
    cases hsimple : isSimplePattern pair.1 with
    | true =>
      obtain ⟨found, hfound, -⟩ :=
        matchAlone_of_isSimplePattern hsimple (hpairs pair hpair) hstr
      rw [hmatch] at hfound
      cases hfound
    | false =>
      rw [matchAlone] at hmatch
      cases hcompile : compile pair.1 with
      | none =>
        rw [hcompile] at hmatch
        cases hmatch
      | some glob =>
        rw [hcompile] at hmatch
        refine ⟨(glob, pair.2), List.mem_filterMap.mpr ⟨pair, ?_, ?_⟩, hmatch⟩
        · exact List.mem_filter.mpr ⟨hpair, by rw [hsimple]; rfl⟩
        · rw [hcompile]
          rfl
  · rintro ⟨g, hg, hmatch⟩
    obtain ⟨pair, hpair, hg⟩ := List.mem_filterMap.mp hg
    obtain ⟨glob, hcompile, rfl⟩ := Option.map_eq_some_iff.mp hg
    refine ⟨pair, (List.mem_filter.mp hpair).1, ?_⟩
    rw [matchAlone, hcompile]
    exact hmatch

theorem isLeastMatch_of_le_iff {val : ℕ}
    (h : ∀ b, val ≤ b ↔ noValue ≤ b ∨
      ∃ pair ∈ pairs, matchAlone pair.1 str = some true ∧ pair.2 ≤ b) :
    IsLeastMatch pairs str (if val = noValue then none else some val) := by
  have hle : val ≤ noValue := (h noValue).mpr (.inl (Nat.le_refl _))
  split
  case isTrue heq =>
    intro pair hpair hmatch
    rw [← heq]
    exact (h pair.2).mpr (.inr ⟨pair, hpair, hmatch, Nat.le_refl _⟩)
  case isFalse hne =>
    have hlt : val < noValue := Nat.lt_of_le_of_ne hle hne
    have hlower : ∀ pair ∈ pairs, matchAlone pair.1 str = some true → val ≤ pair.2 :=
      fun pair hpair hmatch => (h pair.2).mpr (.inr ⟨pair, hpair, hmatch, Nat.le_refl _⟩)
    refine ⟨hlt, ?_, ?_⟩
    · obtain ⟨pair, hpair, hmatch, hb⟩ :=
        ((h val).mp (Nat.le_refl _)).resolve_left (Nat.not_le_of_lt hlt)
      exact ⟨pair, hpair, hmatch, Nat.le_antisymm hb (hlower pair hpair hmatch)⟩
    · rintro v ⟨pair, hpair, hmatch, rfl⟩
      exact hlower pair hpair hmatch

/-- `find` returns the least value of a pattern that matches alone, where each of the patterns
has a result. -/
theorem find_spec {pairs : List (List UInt8 × ℕ)} (hpairs : ∀ pair ∈ pairs, 0 ∉ pair.1)
    (hstr : 0 ∉ str) :
    (find (addAll pairs) str = none ↔ ∃ pair ∈ pairs, matchAlone pair.1 str = none) ∧
      ∀ r, find (addAll pairs) str = some r → IsLeastMatch pairs str r := by
  have hadded := added_addAll pairs
  obtain ⟨val, hval, hle⟩ := trieValue_spec hadded str
  obtain ⟨hnone, hsome⟩ := matchGlobs_spec str (complexGlobs pairs) val
  have hfind : find (addAll pairs) str =
      (matchGlobs str (complexGlobs pairs) val).map
        fun val => if val = noValue then none else some val := by
    rw [find, hval, hadded.globs, Option.bind_some]
  rw [hfind]
  constructor
  · rw [Option.map_eq_none_iff, hnone, exists_matchAlone_eq_none_iff hpairs hstr]
  · intro r hr
    obtain ⟨least, hleast, rfl⟩ := Option.map_eq_some_iff.mp hr
    refine isLeastMatch_of_le_iff fun b => ?_
    rw [hsome least hleast b, hle b, exists_matchAlone_iff hpairs hstr b, or_assoc]

theorem find_spec_qt :
    (find (addAll [("qt_*".toList.map ch, 3), ("*Icon[EF]*".toList.map ch, 1)])
        ("qt_IconF".toList.map ch) = none ↔
      ∃ pair ∈ [("qt_*".toList.map ch, 3), ("*Icon[EF]*".toList.map ch, 1)],
        matchAlone pair.1 ("qt_IconF".toList.map ch) = none) ∧
      ∀ r, find (addAll [("qt_*".toList.map ch, 3), ("*Icon[EF]*".toList.map ch, 1)])
          ("qt_IconF".toList.map ch) = some r →
        IsLeastMatch [("qt_*".toList.map ch, 3), ("*Icon[EF]*".toList.map ch, 1)]
          ("qt_IconF".toList.map ch) r :=
  find_spec (by decide) (by decide)

/-- A pattern with the value that stands for none is not found. -/
theorem not_found_noValue : ¬ ∀ (pairs : List (List UInt8 × ℕ)) (str : List UInt8) (v : ℕ),
    (∀ pair ∈ pairs, pair.1 ≠ [] ∧ 0 ∉ pair.1 ∧ pair.2 ≤ noValue) → 0 ∉ str →
      IsLeast {v | ∃ pair ∈ pairs, matchAlone pair.1 str = some true ∧ pair.2 = v} v →
        find (addAll pairs) str = some (some v) := by
  intro hclaim
  obtain ⟨found, hfound, hiff⟩ :=
    @matchAlone_pattern [ch 'a'] (by decide) (List.forall_mem_singleton.mpr rfl) false false
      [ch 'a']
  have hmatch : matchAlone [ch 'a'] [ch 'a'] = some true := by
    rw [← hiff.mpr ⟨[], [], rfl, fun _ => rfl, fun _ => rfl⟩]
    exact hfound
  have hleast := hclaim [([ch 'a'], noValue)] [ch 'a'] noValue (by decide) (by decide)
    ⟨⟨_, List.mem_singleton_self _, hmatch, rfl⟩, by
      rintro v ⟨pair, hpair, -, rfl⟩
      rw [List.mem_singleton.mp hpair]⟩
  rw [find] at hleast
  obtain ⟨val, -, hval⟩ := Option.map_eq_some_iff.mp hleast
  split at hval
  · cases hval
  case isFalse hne => exact hne (Option.some.inj hval)

end Mold.MultiGlob
