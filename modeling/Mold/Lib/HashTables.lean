import Mathlib.Data.List.Nodup
import Mathlib.Data.List.Pairwise
import Mathlib.Data.List.TakeDrop
import Mathlib.Data.List.TakeWhile
import Mathlib.Data.Nat.Bitwise

/-!
# Tables for hash values

A Bloom filter, chains of entries with the same bucket, and runs of a table that is sorted
by bucket.

A table has a list of chain heads, one for each bucket, and a list of links,
one for each entry.  The link of an entry is the next entry of its chain, and
entry zero ends a chain.  An entry is added in front of the chain of its bucket.

A list that is sorted by a class falls into one run for each class.  An index
table holds the place of the first entry of every class, and the last entry of
every run is marked, so the entries of a class are read from its first entry up
to the first mark.

A Bloom filter is a list of words.  A key sets two bits of one word, and it may be in
the filter only if both bits are set.  Bits are never cleared, so no key that
was added is ever missed.
-/

namespace Mold.Lib

/-! ## Bloom filters -/

structure BloomKey where
  word : ℕ
  bit₁ : ℕ
  bit₂ : ℕ
deriving DecidableEq, Repr

def bloomAdd (words : List ℕ) (k : BloomKey) : List ℕ :=
  words.set k.word ((words.getD k.word 0 ||| 1 <<< k.bit₁) ||| 1 <<< k.bit₂)

def bloomTest (words : List ℕ) (k : BloomKey) : Option Bool := do
  let w ← words[k.word]?
  return w.testBit k.bit₁ && w.testBit k.bit₂

@[simp] theorem length_bloomAdd (words : List ℕ) (k : BloomKey) :
    (bloomAdd words k).length = words.length :=
  List.length_set

@[simp] theorem length_foldl_bloomAdd (keys : List BloomKey) (words : List ℕ) :
    (keys.foldl bloomAdd words).length = words.length := by
  induction keys generalizing words with
  | nil => rfl
  | cons k keys ih => rw [List.foldl_cons, ih, length_bloomAdd]

variable {words : List ℕ} {k : BloomKey}

theorem bloomTest_isSome (h : k.word < words.length) : (bloomTest words k).isSome := by
  simp [bloomTest, h]

theorem bloomTest_bloomAdd_self
    (h : k.word < words.length) : bloomTest (bloomAdd words k) k = some true := by
  simp [bloomTest, bloomAdd, List.getElem?_set_self h]

theorem testBit_bloomAdd {i j : ℕ} (k : BloomKey) (h : (words.getD i 0).testBit j = true) :
    ((bloomAdd words k).getD i 0).testBit j = true := by
  rw [List.getD_eq_getElem?_getD] at h
  rw [List.getD_eq_getElem?_getD, bloomAdd]
  by_cases heq : k.word = i
  · subst heq
    by_cases hlt : k.word < words.length
    · rw [List.getElem?_set_self hlt, Option.getD_some, Nat.testBit_or, Nat.testBit_or,
        List.getD_eq_getElem?_getD, h, Bool.true_or, Bool.true_or]
    · rw [List.getElem?_eq_none (by omega)] at h
      simp at h
  · rw [List.getElem?_set_ne heq, h]

theorem bloomTest_eq_some_true :
    bloomTest words k = some true ↔ k.word < words.length ∧
      (words.getD k.word 0).testBit k.bit₁ = true ∧
        (words.getD k.word 0).testBit k.bit₂ = true := by
  by_cases h : k.word < words.length <;>
    simp [bloomTest, List.getD_eq_getElem?_getD, h]

/-- A key that is found is found after more keys were added. -/
theorem bloomTest_foldl (keys : List BloomKey) (h : bloomTest words k = some true) :
    bloomTest (keys.foldl bloomAdd words) k = some true := by
  induction keys generalizing words with
  | nil => exact h
  | cons k' keys ih =>
    obtain ⟨hlt, h₁, h₂⟩ := bloomTest_eq_some_true.mp h
    refine ih (bloomTest_eq_some_true.mpr ⟨?_, ?_, ?_⟩)
    · rwa [length_bloomAdd]
    · exact testBit_bloomAdd k' h₁
    · exact testBit_bloomAdd k' h₂

/-- Every key that was added is found. -/
theorem bloomTest_of_mem {keys : List BloomKey} (hk : k ∈ keys) (hlt : k.word < words.length) :
    bloomTest (keys.foldl bloomAdd words) k = some true := by
  induction keys generalizing words with
  | nil => cases hk
  | cons k' keys ih =>
    rcases List.mem_cons.mp hk with rfl | hk
    · exact bloomTest_foldl keys (bloomTest_bloomAdd_self hlt)
    · exact ih hk (by rwa [length_bloomAdd])

/-! ## Tables of chains -/

structure ChainTable where
  buckets : List ℕ
  chains : List ℕ
deriving DecidableEq, Repr

namespace ChainTable

def empty (numBuckets numChains : ℕ) : ChainTable where
  buckets := List.replicate numBuckets 0
  chains := List.replicate numChains 0

/-- The first entry of a bucket, zero if there is none. -/
def head (t : ChainTable) (b : ℕ) : ℕ := t.buckets.getD b 0

def insert (t : ChainTable) (entry : ℕ × ℕ) : ChainTable where
  buckets := t.buckets.set entry.1 entry.2
  chains := t.chains.set entry.2 (t.head entry.1)

/-- The entries of the chain from an entry on.  There is no result if a link
leaves the table or the steps do not suffice. -/
def walk (chains : List ℕ) : ℕ → ℕ → Option (List ℕ)
  | _, 0 => some []
  | 0, _ + 1 => none
  | fuel + 1, i + 1 => do
      let next ← chains[i + 1]?
      let rest ← walk chains fuel next
      return (i + 1) :: rest

/-! ## Chains -/

def IsChain (chains : List ℕ) : ℕ → List ℕ → Prop
  | i, [] => i = 0
  | i, x :: l => i = x ∧ x ≠ 0 ∧ ∃ next, chains[x]? = some next ∧ IsChain chains next l

variable {chains : List ℕ} {i : ℕ} {l : List ℕ}

/-- A chain is walked in as many steps as it has entries. -/
theorem IsChain.walk_eq (h : IsChain chains i l) {fuel : ℕ} (hl : l.length ≤ fuel) :
    walk chains fuel i = some l := by
  induction l generalizing i fuel with
  | nil =>
    obtain rfl : i = 0 := h
    cases fuel <;> rfl
  | cons x l ih =>
    obtain ⟨rfl, hne, next, hnext, hrest⟩ := h
    rw [List.length_cons] at hl
    obtain ⟨fuel, rfl⟩ : ∃ n, fuel = n + 1 := ⟨fuel - 1, by omega⟩
    obtain ⟨i, rfl⟩ : ∃ n, i = n + 1 := ⟨i - 1, by omega⟩
    simp [walk, hnext, ih hrest (Nat.le_of_succ_le_succ hl)]

/-- A link of an entry outside a chain may change. -/
theorem IsChain.set (h : IsChain chains i l) {k : ℕ} (hk : k ∉ l) (v : ℕ) :
    IsChain (chains.set k v) i l := by
  induction l generalizing i with
  | nil => exact h
  | cons x l ih =>
    obtain ⟨rfl, hne, next, hnext, hrest⟩ := h
    rw [List.mem_cons, not_or] at hk
    refine ⟨rfl, hne, next, ?_, ih hrest hk.2⟩
    rw [List.getElem?_set_ne hk.1, hnext]

/-! ## Filling a table -/

def bucketEntries (entries : List (ℕ × ℕ)) (b : ℕ) : List ℕ :=
  ((entries.filter fun e => e.1 = b).map Prod.snd).reverse

theorem mem_bucketEntries {entries : List (ℕ × ℕ)} {b i : ℕ} :
    i ∈ bucketEntries entries b ↔ (b, i) ∈ entries := by
  simp [bucketEntries]

theorem length_bucketEntries_le (entries : List (ℕ × ℕ)) (b : ℕ) :
    (bucketEntries entries b).length ≤ entries.length := by
  rw [bucketEntries, List.length_reverse, List.length_map]
  exact List.length_filter_le _ _

theorem bucketEntries_concat (entries : List (ℕ × ℕ)) (e : ℕ × ℕ) (b : ℕ) :
    bucketEntries (entries ++ [e]) b =
      if e.1 = b then e.2 :: bucketEntries entries b else bucketEntries entries b := by
  by_cases h : e.1 = b <;> simp [bucketEntries, h]

def Holds (t : ChainTable) (entries : List (ℕ × ℕ)) : Prop :=
  ∀ b, IsChain t.chains (t.head b) (bucketEntries entries b)

theorem holds_empty (numBuckets numChains : ℕ) : (empty numBuckets numChains).Holds [] := by
  intro b
  change (List.replicate numBuckets 0).getD b 0 = 0
  by_cases h : b < numBuckets
  · rw [List.getD_replicate _ h]
  · rw [List.getD_eq_default _ _ (by simpa using h)]

/-- A new entry keeps the chains of the other buckets and extends its own. -/
theorem Holds.insert {t : ChainTable} {entries : List (ℕ × ℕ)} (h : t.Holds entries)
    {e : ℕ × ℕ} (hb : e.1 < t.buckets.length) (hi : e.2 < t.chains.length)
    (hne : e.2 ≠ 0) (hnew : e.2 ∉ entries.map Prod.snd) :
    (t.insert e).Holds (entries ++ [e]) := by
  intro b
  have hfresh (b : ℕ) : e.2 ∉ bucketEntries entries b := fun hmem =>
    hnew (List.mem_map.mpr ⟨_, mem_bucketEntries.mp hmem, rfl⟩)
  rw [bucketEntries_concat]
  split
  next heq =>
    subst heq
    refine ⟨?_, hne, t.head e.1, ?_, (h e.1).set (hfresh _) _⟩
    · rw [head, ChainTable.insert, List.getD_eq_getElem?_getD,
        List.getElem?_set_self hb, Option.getD_some]
    · rw [ChainTable.insert, List.getElem?_set_self hi]
  next hne =>
    have hhead : (t.insert e).head b = t.head b := by
      rw [head, head, ChainTable.insert, List.getD_eq_getElem?_getD,
        List.getElem?_set_ne hne, List.getD_eq_getElem?_getD]
    rw [hhead]
    exact (h b).set (hfresh b) _

@[simp] theorem length_buckets_foldl_insert (entries : List (ℕ × ℕ)) (t : ChainTable) :
    (entries.foldl insert t).buckets.length = t.buckets.length := by
  induction entries generalizing t with
  | nil => rfl
  | cons e entries ih => rw [List.foldl_cons, ih, ChainTable.insert, List.length_set]

@[simp] theorem length_chains_foldl_insert (entries : List (ℕ × ℕ)) (t : ChainTable) :
    (entries.foldl insert t).chains.length = t.chains.length := by
  induction entries generalizing t with
  | nil => rfl
  | cons e entries ih => rw [List.foldl_cons, ih, ChainTable.insert, List.length_set]

theorem Holds.foldl_insert {t : ChainTable} {old entries : List (ℕ × ℕ)} (h : t.Holds old)
    (hvalid : ∀ e ∈ entries, e.1 < t.buckets.length ∧ e.2 < t.chains.length ∧ e.2 ≠ 0)
    (hnodup : ((old ++ entries).map Prod.snd).Nodup) :
    (entries.foldl ChainTable.insert t).Holds (old ++ entries) := by
  induction entries generalizing t old with
  | nil => simpa using h
  | cons e entries ih =>
    obtain ⟨hb, hi, hne⟩ := hvalid e List.mem_cons_self
    have hnew : e.2 ∉ old.map Prod.snd := by
      rw [List.map_append, List.map_cons, List.nodup_append] at hnodup
      exact fun hmem => hnodup.2.2 _ hmem _ List.mem_cons_self rfl
    rw [List.foldl_cons, List.append_cons]
    refine ih (h.insert hb hi hne hnew) (fun e' he' => ?_) (by simpa using hnodup)
    rw [ChainTable.insert, List.length_set, List.length_set]
    exact hvalid e' (List.mem_cons_of_mem _ he')

end ChainTable

/-! ## Runs of a sorted table -/

/-! ## The index table -/

/-- The first value of every class is kept. -/
def fillFirst (buckets : List ℕ) (entry : ℕ × ℕ) : List ℕ :=
  if buckets.getD entry.1 0 = 0 then buckets.set entry.1 entry.2 else buckets

@[simp] theorem length_fillFirst (buckets : List ℕ) (e : ℕ × ℕ) :
    (fillFirst buckets e).length = buckets.length := by
  unfold fillFirst
  split
  · exact List.length_set
  · rfl

@[simp] theorem length_foldl_fillFirst (entries : List (ℕ × ℕ)) (buckets : List ℕ) :
    (entries.foldl fillFirst buckets).length = buckets.length := by
  induction entries generalizing buckets with
  | nil => rfl
  | cons e entries ih => rw [List.foldl_cons, ih, length_fillFirst]

variable {buckets : List ℕ} {b : ℕ}

/-- A place that is filled keeps its value. -/
theorem getD_fillFirst_of_ne_zero (e : ℕ × ℕ) (h : buckets.getD b 0 ≠ 0) :
    (fillFirst buckets e).getD b 0 = buckets.getD b 0 := by
  unfold fillFirst
  split
  next hzero =>
    have hne : e.1 ≠ b := fun heq => h (heq ▸ hzero)
    rw [List.getD_eq_getElem?_getD, List.getElem?_set_ne hne, List.getD_eq_getElem?_getD]
  next => rfl

theorem getD_foldl_fillFirst_of_ne_zero (entries : List (ℕ × ℕ)) (h : buckets.getD b 0 ≠ 0) :
    (entries.foldl fillFirst buckets).getD b 0 = buckets.getD b 0 := by
  induction entries generalizing buckets with
  | nil => rfl
  | cons e entries ih =>
    have hkeep := getD_fillFirst_of_ne_zero e h
    rw [List.foldl_cons, ih (hkeep ▸ h), hkeep]

theorem getD_fillFirst_of_ne {e : ℕ × ℕ} (h : e.1 ≠ b) :
    (fillFirst buckets e).getD b 0 = buckets.getD b 0 := by
  unfold fillFirst
  split
  · rw [List.getD_eq_getElem?_getD, List.getElem?_set_ne h, List.getD_eq_getElem?_getD]
  · rfl

theorem getD_foldl_fillFirst_of_forall_ne
    {entries : List (ℕ × ℕ)} (h : ∀ e ∈ entries, e.1 ≠ b) :
    (entries.foldl fillFirst buckets).getD b 0 = buckets.getD b 0 := by
  induction entries generalizing buckets with
  | nil => rfl
  | cons e entries ih =>
    rw [List.foldl_cons, ih fun e' he' => h e' (List.mem_cons_of_mem _ he'),
      getD_fillFirst_of_ne (h e List.mem_cons_self)]

theorem getD_foldl_fillFirst {e : ℕ × ℕ} {front : List (ℕ × ℕ)}
    (back : List (ℕ × ℕ)) (hfront : ∀ e' ∈ front, e'.1 ≠ e.1)
    (hzero : buckets.getD e.1 0 = 0) (hlt : e.1 < buckets.length) (hne : e.2 ≠ 0) :
    ((front ++ e :: back).foldl fillFirst buckets).getD e.1 0 = e.2 := by
  have hfill : (fillFirst (front.foldl fillFirst buckets) e).getD e.1 0 = e.2 := by
    rw [fillFirst, if_pos ((getD_foldl_fillFirst_of_forall_ne hfront).trans hzero),
      List.getD_eq_getElem?_getD,
      List.getElem?_set_self (by rwa [length_foldl_fillFirst]), Option.getD_some]
  rw [List.foldl_append, List.foldl_cons,
    getD_foldl_fillFirst_of_ne_zero back (hfill ▸ hne), hfill]

/-- A filled place has the value of an entry. -/
theorem getD_foldl_fillFirst_cases (entries : List (ℕ × ℕ)) (buckets : List ℕ) (b : ℕ) :
    (entries.foldl fillFirst buckets).getD b 0 = buckets.getD b 0 ∨
      (b, (entries.foldl fillFirst buckets).getD b 0) ∈ entries := by
  induction entries generalizing buckets with
  | nil => exact .inl rfl
  | cons e entries ih =>
    rw [List.foldl_cons]
    rcases ih (fillFirst buckets e) with h | h
    · by_cases hcls : e.1 = b
      · by_cases hzero : buckets.getD b 0 = 0
        · by_cases hlt : b < buckets.length
          · right
            have hval : (fillFirst buckets e).getD b 0 = e.2 := by
              subst hcls
              rw [fillFirst, if_pos hzero, List.getD_eq_getElem?_getD,
                List.getElem?_set_self hlt, Option.getD_some]
            rw [h, hval, ← hcls]
            exact List.mem_cons_self
          · left
            rw [h, List.getD_eq_default _ _ (by rw [length_fillFirst]; omega), hzero]
        · exact .inl (h.trans (getD_fillFirst_of_ne_zero e hzero))
      · exact .inl (h.trans (getD_fillFirst_of_ne hcls))
    · exact .inr (List.mem_cons_of_mem _ h)

section Runs

variable {α β : Type*} (cls : α → ℕ) (mark : Bool → α → β) (isEnd : β → Bool)

/-- The last entry of every run is marked. -/
def markEnds : List α → List β
  | [] => []
  | [x] => [mark true x]
  | x :: y :: l => mark (decide (cls x ≠ cls y)) x :: markEnds (y :: l)

/-- The entries up to the first mark with their places.  There is no result if
no entry is marked. -/
def walkRun : List β → ℕ → Option (List (ℕ × β))
  | [], _ => none
  | x :: l, i =>
    if isEnd x then
      some [(i, x)]
    else do
      let rest ← walkRun l (i + 1)
      return (i, x) :: rest

theorem markEnds_cons (x : α) (l : List α) :
    ∃ m, markEnds cls mark (x :: l) = mark m x :: markEnds cls mark l ∧
      ((∀ y ∈ l.head?, cls x = cls y) → l ≠ [] → m = false) := by
  cases l with
  | nil => exact ⟨true, rfl, fun _ hne => absurd rfl hne⟩
  | cons y l =>
    refine ⟨decide (cls x ≠ cls y), rfl, fun h _ => ?_⟩
    simpa using h y rfl

@[simp] theorem length_markEnds (l : List α) : (markEnds cls mark l).length = l.length := by
  induction l with
  | nil => rfl
  | cons x l ih =>
    obtain ⟨m, hm, -⟩ := markEnds_cons cls mark x l
    rw [hm, List.length_cons, ih, List.length_cons]

theorem drop_markEnds (l : List α) (n : ℕ) :
    (markEnds cls mark l).drop n = markEnds cls mark (l.drop n) := by
  induction n generalizing l with
  | zero => rfl
  | succ n ih =>
    cases l with
    | nil => rfl
    | cons x l =>
      obtain ⟨m, hm, -⟩ := markEnds_cons cls mark x l
      rw [hm, List.drop_succ_cons, List.drop_succ_cons, ih]

variable {cls mark isEnd}

theorem walkRun_markEnds_isSome (hmark : ∀ m x, isEnd (mark m x) = m) {l : List α}
    (hne : l ≠ []) (i : ℕ) : (walkRun isEnd (markEnds cls mark l) i).isSome := by
  induction l generalizing i with
  | nil => exact absurd rfl hne
  | cons x l ih =>
    cases l with
    | nil => simp [markEnds, walkRun, hmark]
    | cons y l =>
      obtain ⟨rest, hrest⟩ := Option.isSome_iff_exists.mp (ih (by simp) (i + 1))
      rw [markEnds, walkRun]
      split
      · rfl
      · rw [hrest]
        rfl

/-- Entries of one class are read up to each of them. -/
theorem exists_mem_walkRun (hmark : ∀ m x, isEnd (mark m x) = m) {front : List α} {x : α}
    (back : List α) (hfront : ∀ y ∈ front, cls y = cls x) (i : ℕ) :
    ∃ run m, walkRun isEnd (markEnds cls mark (front ++ x :: back)) i = some run ∧
      (i + front.length, mark m x) ∈ run := by
  induction front generalizing i with
  | nil =>
    obtain ⟨m, hm, -⟩ := markEnds_cons cls mark x back
    obtain ⟨run, hrun⟩ := Option.isSome_iff_exists.mp
      (@walkRun_markEnds_isSome _ _ cls _ _ hmark (x :: back) (by simp) i)
    refine ⟨run, m, hrun, ?_⟩
    rw [hm, walkRun] at hrun
    split at hrun
    · obtain rfl := Option.some.inj hrun
      exact List.mem_singleton_self _
    · obtain ⟨rest, -, h⟩ := Option.bind_eq_some_iff.mp hrun
      obtain rfl := Option.some.inj h
      exact List.mem_cons_self
  | cons y front ih =>
    obtain ⟨run, m, hrun, hmem⟩ :=
      ih (fun z hz => hfront z (List.mem_cons_of_mem _ hz)) (i + 1)
    obtain ⟨m', hm', hfalse⟩ := markEnds_cons cls mark y (front ++ x :: back)
    have hm : m' = false := by
      refine hfalse (fun z hz => ?_) (by simp)
      rw [hfront y List.mem_cons_self]
      cases front with
      | nil =>
        obtain rfl : x = z := by simpa using hz
        rfl
      | cons w front =>
        obtain rfl : w = z := by simpa using hz
        exact (hfront w (by simp)).symm
    refine ⟨(i, mark m' y) :: run, m, ?_, ?_⟩
    · rw [List.cons_append, hm', walkRun, hmark, hm, hrun]
      rfl
    · rw [List.length_cons, Nat.add_comm front.length, ← Nat.add_assoc]
      exact List.mem_cons_of_mem _ hmem

/-! ## Reading a class -/

/-- In a list sorted by class, the entries of a class in front of one of its
entries follow on one another. -/
theorem exists_run_of_pairwise {l front back : List α} {x : α}
    (hsorted : l.Pairwise fun a b => cls a ≤ cls b) (hl : l = front ++ x :: back) :
    ∃ first run, front = first ++ run ∧ (∀ y ∈ first, cls y ≠ cls x) ∧
      ∀ y ∈ run, cls y = cls x := by
  subst hl
  obtain ⟨hfront, -, hle⟩ := List.pairwise_append.mp hsorted
  refine ⟨front.takeWhile fun y => cls y < cls x, front.dropWhile fun y => cls y < cls x,
    List.takeWhile_append_dropWhile.symm, fun y hy => ?_, fun y hy => ?_⟩
  · have := List.mem_takeWhile_imp hy
    rw [decide_eq_true_eq] at this
    exact this.ne
  · refine le_antisymm (hle y ((List.dropWhile_sublist _).subset hy) x (by simp)) ?_
    cases hdrop : front.dropWhile fun y => decide (cls y < cls x) with
    | nil => simp [hdrop] at hy
    | cons z rest =>
      have hz : ¬ cls z < cls x := by
        have := List.dropWhile_get_zero_not (fun y => decide (cls y < cls x)) front
          (by rw [hdrop]; simp)
        simpa [hdrop] using this
      rw [hdrop] at hy
      have hsub : (z :: rest).Pairwise fun a b => cls a ≤ cls b :=
        hdrop ▸ hfront.sublist (List.dropWhile_sublist _)
      rcases List.mem_cons.mp hy with rfl | hy
      · exact not_lt.mp hz
      · exact (not_lt.mp hz).trans ((List.pairwise_cons.mp hsub).1 y hy)

variable (cls) in
/-- The index table of a list whose first entry has number `start`. -/
def runHeads (numClasses start : ℕ) (l : List α) : List ℕ :=
  ((l.map cls).zipIdx start).foldl fillFirst (List.replicate numClasses 0)

@[simp] theorem length_runHeads (numClasses start : ℕ) (l : List α) :
    (runHeads cls numClasses start l).length = numClasses := by
  rw [runHeads, length_foldl_fillFirst, List.length_replicate]

theorem walkRun_runHeads_isSome (hmark : ∀ m x, isEnd (mark m x) = m) {l : List α}
    {numClasses start b : ℕ}
    (h : (runHeads cls numClasses start l).getD b 0 ≠ 0) :
    start ≤ (runHeads cls numClasses start l).getD b 0 ∧ ∀ i,
      (walkRun isEnd ((markEnds cls mark l).drop
        ((runHeads cls numClasses start l).getD b 0 - start)) i).isSome := by
  have hzero : (List.replicate numClasses 0).getD b 0 = 0 := by
    by_cases hb : b < numClasses
    · rw [List.getD_replicate _ hb]
    · rw [List.getD_eq_default _ _ (by simpa using hb)]
  rcases getD_foldl_fillFirst_cases ((l.map cls).zipIdx start)
    (List.replicate numClasses 0) b with heq | hmem
  · exact absurd (heq.trans hzero) h
  · change (b, (runHeads cls numClasses start l).getD b 0) ∈ _ at hmem
    obtain ⟨hle, hlt, -⟩ := List.mem_zipIdx hmem
    rw [List.length_map] at hlt
    refine ⟨hle, fun i => ?_⟩
    rw [drop_markEnds]
    refine walkRun_markEnds_isSome hmark (fun hnil => ?_) i
    rw [List.drop_eq_nil_iff] at hnil
    omega

/-- Every entry of a sorted list is read from the head of its class. -/
theorem exists_mem_walkRun_runHeads (hmark : ∀ m x, isEnd (mark m x) = m) {l : List α}
    (hsorted : l.Pairwise fun a b => cls a ≤ cls b) {numClasses start i : ℕ} {x : α}
    (hx : l[i]? = some x) (hlt : cls x < numClasses) (hstart : start ≠ 0) :
    ∃ head run m, (runHeads cls numClasses start l).getD (cls x) 0 = head ∧
      head ≠ 0 ∧ walkRun isEnd ((markEnds cls mark l).drop (head - start)) head =
        some run ∧ (start + i, mark m x) ∈ run := by
  obtain ⟨hi, hget⟩ := List.getElem?_eq_some_iff.mp hx
  have hl : l = l.take i ++ x :: l.drop (i + 1) := by
    rw [← hget, List.getElem_cons_drop, List.take_append_drop]
  obtain ⟨first, run, hsplit, hfirst, hrun⟩ := exists_run_of_pairwise hsorted hl
  have hlen : i = first.length + run.length := by
    rw [← List.length_append, ← hsplit, List.length_take, Nat.min_eq_left hi.le]
  -- the first entry of the class stands behind `first`
  obtain ⟨y, rest, hy, hycls⟩ : ∃ y rest, run ++ x :: l.drop (i + 1) = y :: rest ∧
      cls y = cls x := by
    cases run with
    | nil => exact ⟨x, _, rfl, rfl⟩
    | cons y run => exact ⟨y, _, rfl, hrun y List.mem_cons_self⟩
  have hsplit' : l = first ++ y :: rest := by
    rw [← hy, ← List.append_assoc, ← hsplit, ← hl]
  have hhead : (runHeads cls numClasses start l).getD (cls x) 0 = start + first.length := by
    rw [runHeads, hsplit', List.map_append, List.map_cons, List.zipIdx_append,
      List.zipIdx_cons, List.length_map, hycls]
    refine getD_foldl_fillFirst (e := (cls x, start + first.length)) _ (fun e he => ?_) ?_ ?_ ?_
    · obtain ⟨-, hval⟩ := List.mk_mem_zipIdx_iff_le_and_getElem?_sub.mp he
      obtain ⟨z, hz, hcls⟩ := List.mem_map.mp (List.mem_of_getElem? hval)
      rw [← hcls]
      exact hfirst z hz
    · exact List.getD_replicate _ hlt
    · simpa using hlt
    · omega
  obtain ⟨found, m, hwalk, hmem⟩ := exists_mem_walkRun hmark (l.drop (i + 1)) hrun
    (start + first.length)
  refine ⟨_, found, m, hhead, by omega, ?_, ?_⟩
  · have hdrop : l.drop first.length = run ++ x :: l.drop (i + 1) := by
      conv_lhs => rw [hl, hsplit, List.append_assoc, List.drop_left]
    rw [Nat.add_sub_cancel_left, drop_markEnds, hdrop, hwalk]
  · rwa [Nat.add_assoc, ← hlen] at hmem

end Runs

end Mold.Lib
