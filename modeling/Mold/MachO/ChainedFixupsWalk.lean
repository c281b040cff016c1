import Mold.Lib.OptionTraverse
import Mold.MachO.ChainedFixups

/-!
# Walking the fixup chains

The steps of `write_fixup_chains` touch disjoint words, so every location ends
with the word that is computed from its first value, in every order of the
steps.  Following the links from the first fixup of a page then visits the
fixups of this page.  The page table has an entry for every page up to the last
fixup of a segment, but its length is stored in 16 bits; the walk is complete
exactly when no fixup lies beyond page 65534 of its segment.
-/

namespace Mold.MachO.ChainedFixups

open Mold.Lib

variable {τ : Type*}

/-! ## Sorted fixups -/

namespace Image

variable (L : Image τ)

theorem sorted_perm : L.sorted.Perm L.fixups :=
  List.mergeSort_perm _ _

theorem sorted_pairwise : L.sorted.Pairwise fun f g => f.addr < g.addr := by
  have hle : L.sorted.Pairwise fun f g => f.addr ≤ g.addr :=
    pairwise_mergeSort_key Fixup.addr L.fixups
  have hnodup : (L.sorted.map Fixup.addr).Nodup :=
    (L.sorted_perm.map Fixup.addr).nodup_iff.mpr L.distinct
  rw [List.Nodup, List.pairwise_map] at hnodup
  exact (hle.and hnodup).imp fun h => lt_of_le_of_ne h.1 h.2

theorem pageSize_pos : 0 < L.pageSize := by
  rcases L.pageSize_eq with h | h <;> omega

theorem sorted_monotone : L.sorted.Pairwise fun f g => f.addr ≤ g.addr :=
  L.sorted_pairwise.imp fun h => h.le

variable {L}

theorem segmentFixups_eq_inside (seg : OutputSegment) : L.segmentFixups seg = L.inside seg := by
  rw [segmentFixups, dropWhile_lt_eq_filter Fixup.addr L.sorted_monotone,
    takeWhile_lt_eq_filter Fixup.addr (L.sorted_monotone.filter _),
    List.filter_filter, inside]
  apply List.filter_congr
  intro f _
  rw [← Bool.decide_and, decide_eq_decide]
  exact and_comm

variable {f : Fixup τ}

theorem mem_inside {seg : OutputSegment} :
    f ∈ L.inside seg ↔ f ∈ L.sorted ∧ seg.vmaddr ≤ f.addr ∧ f.addr < seg.vmaddr + seg.vmsize := by
  rw [inside, List.mem_filter, decide_eq_true_eq]

theorem inside_pairwise (seg : OutputSegment) :
    (L.inside seg).Pairwise fun f g => f.addr < g.addr :=
  L.sorted_pairwise.filter _

theorem aligned_of_mem_inside {seg : OutputSegment} (hf : f ∈ L.inside seg) : f.addr % 4 = 0 :=
  L.aligned f (L.sorted_perm.mem_iff.mp (mem_inside.mp hf).1)

theorem links_map_fst (fs : List (Fixup τ)) : (L.links fs).map Prod.fst = fs := by
  induction fs using links.induct with
  | case1 => rfl
  | case2 f => rfl
  | case3 f g fs ih => rw [links, List.map_cons, ih]

variable {p : Fixup τ × ℕ}

theorem mem_links_cons {fs : List (Fixup τ)} (hp : p ∈ L.links fs) : p ∈ L.links (f :: fs) := by
  cases fs with
  | nil => simp [links] at hp
  | cons g fs =>
    rw [links]
    exact List.mem_cons_of_mem _ hp

theorem mem_links_of_suffix {fs gs : List (Fixup τ)} (h : gs <:+ fs)
    (hp : p ∈ L.links gs) : p ∈ L.links fs := by
  obtain ⟨before, rfl⟩ := h
  induction before with
  | nil => exact hp
  | cons f before ih => exact mem_links_cons ih

theorem page_eq_iff {f g : ℕ} (hle : f ≤ g) : L.page g = L.page f ↔ g < L.page f + L.pageSize := by
  have hpos := L.pageSize_pos
  have hf := Nat.div_add_mod f L.pageSize
  have hg := Nat.div_add_mod g L.pageSize
  have hfm := Nat.mod_lt f hpos
  have hgm := Nat.mod_lt g hpos
  have hmono : f / L.pageSize ≤ g / L.pageSize := Nat.div_le_div_right hle
  rw [page, page, Nat.mul_comm _ L.pageSize, Nat.mul_comm _ L.pageSize]
  constructor
  · intro heq
    omega
  · intro hlt
    have hdiv : g / L.pageSize = f / L.pageSize := by
      apply le_antisymm _ hmono
      by_contra hgt
      have hsucc := Nat.mul_le_mul_left L.pageSize (Nat.lt_of_not_le hgt)
      rw [Nat.mul_succ] at hsucc
      omega
    rw [hdiv]

theorem next_lt {fs : List (Fixup τ)} (hsorted : fs.Pairwise fun f g => f.addr < g.addr)
    (hp : p ∈ L.links fs) : p.2 < 2 ^ 12 := by
  induction fs using links.induct with
  | case1 => simp [links] at hp
  | case2 f =>
    rw [links, List.mem_singleton] at hp
    rw [hp]
    exact Nat.two_pow_pos 12
  | case3 f g fs ih =>
    rw [links] at hp
    rcases List.mem_cons.mp hp with rfl | hp
    · have hlt := List.rel_of_pairwise_cons hsorted List.mem_cons_self
      dsimp only
      split
      · next hpage =>
          rw [page_eq_iff hlt.le, page] at hpage
          have hle := Nat.div_mul_le_self f.addr L.pageSize
          rcases L.pageSize_eq with h | h <;> rw [h] at hpage hle <;> omega
      · exact Nat.two_pow_pos 12
    · exact ih hsorted.of_cons hp

end Image

/-! ## The words after all steps -/

theorem bindWord_lt (ordinal addend next : ℕ) : bindWord ordinal addend next < 2 ^ 64 :=
  BitField.pack_lt _

theorem rebaseWord_lt (val next : ℕ) : rebaseWord val next < 2 ^ 64 :=
  BitField.pack_lt _

theorem fixupWord_lt (imports : Fixup τ → ℕ × ℕ) (f : Fixup τ)
    (next val : ℕ) : fixupWord imports f next val < 2 ^ 64 := by
  rw [fixupWord]
  split
  · exact bindWord_lt _ _ _
  · exact rebaseWord_lt _ _

theorem nextField_bindWord (ordinal addend next : ℕ) :
    nextField (bindWord ordinal addend next) = next % 2 ^ 12 := by
  simp only [nextField, bindWord, BitField.pack]
  omega

theorem nextField_rebaseWord (val next : ℕ) : nextField (rebaseWord val next) = next % 2 ^ 12 := by
  simp only [nextField, rebaseWord, BitField.pack]
  omega

theorem nextField_fixupWord (imports : Fixup τ → ℕ × ℕ) (f : Fixup τ) (next val : ℕ) :
    nextField (fixupWord imports f next val) = next % 2 ^ 12 := by
  rw [fixupWord]
  split
  · exact nextField_bindWord _ _ _
  · exact nextField_rebaseWord _ _

def Step.toUpdate (imports : Fixup τ → ℕ × ℕ) (step : Step τ) : WordUpdate where
  loc := step.loc
  apply := fixupWord imports step.fixup step.next

theorem foldl_run_fst (imports : Fixup τ → ℕ × ℕ) (steps : List (Step τ))
    (state : Memory × List FixupError) :
    (steps.foldl (Step.run imports) state).1 =
      (steps.map (Step.toUpdate imports)).foldl WordUpdate.run state.1 := by
  induction steps generalizing state with
  | nil => rfl
  | cons step steps ih => rw [List.foldl_cons, ih, List.map_cons, List.foldl_cons]; rfl

theorem foldl_run_snd (imports : Fixup τ → ℕ × ℕ) {steps : List (Step τ)}
    (hdisjoint : steps.Pairwise fun s t => WordsDisjoint s.loc t.loc)
    (state : Memory × List FixupError) :
    (steps.foldl (Step.run imports) state).2 =
      state.2 ++ steps.flatMap fun s =>
        fixupErrors s.fixup (load64 state.1 s.loc) := by
  induction steps generalizing state with
  | nil => simp
  | cons step steps ih =>
    rw [List.pairwise_cons] at hdisjoint
    have hload : ∀ t ∈ steps,
        load64 (Step.run imports state step).1 t.loc = load64 state.1 t.loc :=
      fun t ht => load64_store64_of_disjoint _ _ (hdisjoint.1 t ht)
    have htail : (steps.flatMap fun s =>
          fixupErrors s.fixup (load64 (Step.run imports state step).1 s.loc)) =
        steps.flatMap fun s => fixupErrors s.fixup (load64 state.1 s.loc) :=
      List.flatMap_congr fun t ht => by rw [hload t ht]
    rw [List.foldl_cons, ih hdisjoint.2, htail, List.flatMap_cons]
    exact List.append_assoc _ _ _

namespace Schedule

variable {L : Image τ} (sched : Schedule L) {step : Step τ}

theorem mem_steps :
    step ∈ sched.steps ↔ ∃ seg ∈ L.segments, ∃ p ∈ L.links (L.inside seg),
      step = ⟨seg.loc p.1.addr, p.1, p.2⟩ := by
  rw [steps, List.mem_flatMap]
  constructor
  · rintro ⟨seg, hseg, hstep⟩
    obtain ⟨p, hp, rfl⟩ := List.mem_map.mp hstep
    rw [(sched.order_perm seg hseg).mem_iff, Image.segmentFixups_eq_inside] at hp
    exact ⟨seg, hseg, p, hp, rfl⟩
  · rintro ⟨seg, hseg, p, hp, rfl⟩
    refine ⟨seg, hseg, List.mem_map.mpr ⟨p, ?_, rfl⟩⟩
    rwa [(sched.order_perm seg hseg).mem_iff, Image.segmentFixups_eq_inside]

theorem steps_disjoint (hsep : L.Separated) :
    sched.steps.Pairwise fun s t => WordsDisjoint s.loc t.loc := by
  have hperm : (sched.steps.map Step.loc).Perm
      (L.segments.flatMap fun seg =>
        (L.inside seg).map fun f => seg.loc f.addr) := by
    rw [steps, List.map_flatMap]
    apply List.Perm.flatMap_left
    intro seg hseg
    have horder := (sched.order_perm seg hseg).map fun p => seg.loc p.1.addr
    have hlocs : (L.links (L.segmentFixups seg)).map
        (fun p => seg.loc p.1.addr) = (L.inside seg).map fun f => seg.loc f.addr := by
      conv_rhs => rw [← Image.segmentFixups_eq_inside,
        ← Image.links_map_fst (L := L) (L.segmentFixups seg), List.map_map]
      rfl
    rw [hlocs] at horder
    rw [List.map_map]
    exact horder
  rw [← List.pairwise_map]
  exact (hperm.pairwise_iff fun h => h.symm).mpr hsep

theorem load64_writeFixupChains (hsep : L.Separated) (imports : Fixup τ → ℕ × ℕ) (mem : Memory)
    (hstep : step ∈ sched.steps) :
    load64 (sched.writeFixupChains imports mem).1 step.loc =
      fixupWord imports step.fixup step.next (load64 mem step.loc) := by
  have hdisjoint : (sched.steps.map (Step.toUpdate imports)).Pairwise
      fun u v => WordsDisjoint u.loc v.loc := by
    rw [List.pairwise_map]
    exact sched.steps_disjoint hsep
  rw [writeFixupChains, foldl_run_fst]
  have hmem : step.toUpdate imports ∈ sched.steps.map (Step.toUpdate imports) :=
    List.mem_map_of_mem hstep
  exact (load64_foldl_of_mem hdisjoint hmem).trans (Nat.mod_eq_of_lt (fixupWord_lt _ _ _ _))

theorem errors_writeFixupChains (hsep : L.Separated) (imports : Fixup τ → ℕ × ℕ) (mem : Memory)
    (hstep : step ∈ sched.steps) {e : FixupError}
    (he : e ∈ fixupErrors step.fixup (load64 mem step.loc)) :
    e ∈ (sched.writeFixupChains imports mem).2 := by
  rw [writeFixupChains, foldl_run_snd imports (sched.steps_disjoint hsep),
    List.nil_append, List.mem_flatMap]
  exact ⟨step, hstep, he⟩

end Schedule

theorem rebaseTarget_rebaseWord (val next : ℕ) :
    rebaseTarget (rebaseWord val next) = val % 2 ^ 36 + val / 2 ^ 56 % 2 ^ 8 * 2 ^ 56 := by
  simp only [rebaseTarget, rebaseWord, BitField.pack]
  omega

theorem and_mask_eq_zero {val : ℕ} (h : val &&& 0x00fffff000000000 = 0) :
    val / 2 ^ 36 % 2 ^ 20 = 0 := by
  have hdiv := Nat.and_div_two_pow (a := val) (b := 0x00fffff000000000) (n := 36)
  rw [h] at hdiv
  have hmask : 0x00fffff000000000 / 2 ^ 36 = 2 ^ 20 - 1 := by decide
  rw [hmask, Nat.and_two_pow_sub_one_eq_mod] at hdiv
  simpa using hdiv.symm

variable {f : Fixup τ}

theorem rebaseTarget_eq_or_error (hf : f.sym = none)
    (imports : Fixup τ → ℕ × ℕ) (next : ℕ) {val : ℕ} (hval : val < 2 ^ 64) :
    rebaseTarget (fixupWord imports f next val) = val ∨
      .rebaseAddendTooLarge f.addr ∈ fixupErrors f val := by
  by_cases hmask : val &&& 0x00fffff000000000 = 0
  · left
    have hzero := and_mask_eq_zero hmask
    simp only [fixupWord, hf, rebaseTarget_rebaseWord]
    omega
  · right
    simp [fixupErrors, hf, hmask]

def Linked (L : Image τ) (mem : Memory) (seg : OutputSegment) (fs : List (Fixup τ)) : Prop :=
  ∀ p ∈ L.links fs, nextField (load64 mem (seg.loc p.1.addr)) = p.2

variable {seg : OutputSegment} {L : Image τ} {mem : Memory}

theorem Linked.of_suffix
    {fs gs : List (Fixup τ)} (h : Linked L mem seg fs) (hsuffix : gs <:+ fs) :
    Linked L mem seg gs :=
  fun p hp => h p (Image.mem_links_of_suffix hsuffix hp)

theorem linked_writeFixupChains (sched : Schedule L)
    (hsep : L.Separated) (imports : Fixup τ → ℕ × ℕ) (mem : Memory)
    (hseg : seg ∈ L.segments) :
    Linked L (sched.writeFixupChains imports mem).1 seg (L.inside seg) := by
  intro p hp
  have hstep : ⟨seg.loc p.1.addr, p.1, p.2⟩ ∈ sched.steps :=
    sched.mem_steps.mpr ⟨seg, hseg, p, hp, rfl⟩
  rw [sched.load64_writeFixupChains hsep imports mem hstep, nextField_fixupWord]
  exact Nat.mod_eq_of_lt (Image.next_lt (Image.inside_pairwise seg) hp)

variable {fs : List (Fixup τ)}

theorem walkChain_eq (hsorted : (f :: fs).Pairwise fun f g => f.addr < g.addr)
    (haligned : ∀ g ∈ f :: fs, g.addr % 4 = 0)
    (hlinked : Linked L mem seg (f :: fs)) {fuel : ℕ}
    (hfuel : fs.length < fuel) :
    walkChain mem seg fuel f.addr =
      some (f.addr :: (fs.takeWhile fun g =>
        decide (g.addr < L.page f.addr + L.pageSize)).map Fixup.addr) := by
  induction fs generalizing f fuel with
  | nil =>
    obtain ⟨fuel, rfl⟩ := Nat.exists_eq_add_of_lt hfuel
    have hnext := hlinked (f, 0) (by simp [Image.links])
    simp [walkChain, hnext]
  | cons g fs ih =>
    obtain ⟨fuel, rfl⟩ : ∃ k, fuel = k + 1 := ⟨fuel - 1, by omega⟩
    have hlt := List.rel_of_pairwise_cons hsorted List.mem_cons_self
    have hf := haligned f List.mem_cons_self
    have hg := haligned g (by simp)
    have hnext := hlinked (f, if L.page g.addr = L.page f.addr
      then (g.addr - f.addr) / 4 else 0) (by simp [Image.links])
    dsimp only at hnext
    rw [walkChain]
    simp only [hnext]
    by_cases hpage : L.page g.addr = L.page f.addr
    · have hne : (g.addr - f.addr) / 4 ≠ 0 := by omega
      have hstep : f.addr + 4 * ((g.addr - f.addr) / 4) = g.addr := by omega
      have hlength : fs.length < fuel := by simpa using hfuel
      have htail := ih hsorted.of_cons (fun h hh => haligned h (List.mem_cons_of_mem f hh))
        (hlinked.of_suffix (List.suffix_cons f _)) hlength
      have hbound := (Image.page_eq_iff hlt.le).mp hpage
      rw [if_pos hpage, if_neg hne, hstep, htail, hpage]
      simp [hbound]
    · have hbound := mt (Image.page_eq_iff hlt.le).mpr hpage
      rw [if_neg hpage]
      simp [hbound]

/-! ## The page table -/

/-- The page start for the page at `addr`, from the fixups at or behind it. -/
def pageStartOf (pageSize addr : ℕ) (fs : List (Fixup τ)) : ℕ :=
  match fs with
  | [] => startNone
  | f :: _ => if f.addr < addr + pageSize then f.addr % pageSize else startNone

theorem filter_le_filter_le {c d : ℕ} (hcd : c ≤ d) :
    ((fs.filter fun f => decide (c ≤ f.addr)).filter
        fun f => decide (d ≤ f.addr)) =
      fs.filter fun f => decide (d ≤ f.addr) := by
  rw [List.filter_filter]
  apply List.filter_congr
  intro f _
  rw [← Bool.decide_and, decide_eq_decide]
  omega

theorem getElem?_pageStarts {pageSize vmaddr : ℕ}
    (hsorted : fs.Pairwise fun f g => f.addr ≤ g.addr) {n i c k : ℕ}
    (hc : c ≤ vmaddr + i * pageSize) (hk : k < n) :
    (pageStarts pageSize vmaddr n i (fs.filter fun f => decide (c ≤ f.addr)))[k]? =
      some (pageStartOf pageSize (vmaddr + (i + k) * pageSize)
        (fs.filter fun f =>
          decide (vmaddr + (i + k) * pageSize ≤ f.addr))) := by
  induction n generalizing i c k with
  | zero => omega
  | succ n ih =>
    rw [pageStarts, dropWhile_lt_eq_filter Fixup.addr (hsorted.filter _), filter_le_filter_le hc]
    cases k with
    | zero => rfl
    | succ k =>
      have hstep : vmaddr + i * pageSize ≤ vmaddr + (i + 1) * pageSize := by
        rw [Nat.succ_mul]
        omega
      have hindex : i + (k + 1) = i + 1 + k := by omega
      rw [List.getElem?_cons_succ, ih hstep (by omega), hindex]

variable {last : Fixup τ}

theorem npages_eq (hle : seg.vmaddr ≤ last.addr) :
    L.npages seg last = (last.addr - seg.vmaddr) / L.pageSize + 1 := by
  have hpos := L.pageSize_pos
  have hsub : last.addr + 1 - seg.vmaddr + L.pageSize - 1 =
      last.addr - seg.vmaddr + L.pageSize := by omega
  rw [Image.npages, alignTo, Nat.mul_div_cancel _ hpos, hsub, Nat.add_div_right _ hpos]

namespace Image

variable {L : Image τ}

def pageIndex (L : Image τ) (seg : OutputSegment) (f : Fixup τ) : ℕ :=
  (f.addr - seg.vmaddr) / L.pageSize

theorem pageIndex_eq_iff (hle : seg.vmaddr ≤ f.addr) {i : ℕ} :
    L.pageIndex seg f = i ↔ seg.vmaddr + i * L.pageSize ≤ f.addr ∧
      f.addr < seg.vmaddr + (i + 1) * L.pageSize := by
  have hpos := L.pageSize_pos
  rw [pageIndex, Nat.div_eq_iff hpos, Nat.succ_mul]
  omega

theorem page_eq_of_pageIndex (hseg : seg ∈ L.segments) (hle : seg.vmaddr ≤ f.addr) {i : ℕ}
    (hi : L.pageIndex seg f = i) :
    L.page f.addr = seg.vmaddr + i * L.pageSize := by
  have hpos := L.pageSize_pos
  have hmod := Nat.div_add_mod seg.vmaddr L.pageSize
  rw [(L.pageAligned seg hseg).1, Nat.add_zero] at hmod
  obtain ⟨hlow, hhigh⟩ := (pageIndex_eq_iff hle).mp hi
  have hdiv : f.addr / L.pageSize = seg.vmaddr / L.pageSize + i := by
    rw [Nat.div_eq_iff hpos, Nat.add_mul]
    rw [Nat.succ_mul] at hhigh
    rw [Nat.mul_comm] at hmod
    omega
  rw [page, hdiv, Nat.add_mul, Nat.mul_comm _ L.pageSize, hmod]

theorem pageIndex_le_last (hlast : (L.inside seg).getLast? = some last)
    (hf : f ∈ L.inside seg) : L.pageIndex seg f ≤ L.pageIndex seg last := by
  obtain ⟨front, hfront⟩ := List.getLast?_eq_some_iff.mp hlast
  have hsorted := inside_pairwise (L := L) seg
  rw [hfront] at hf hsorted
  apply Nat.div_le_div_right
  rcases List.mem_append.mp hf with hf | hf
  · have hlt := (List.pairwise_append.mp hsorted).2.2 f hf last (List.mem_singleton_self last)
    omega
  · rw [List.mem_singleton.mp hf]

theorem page_end_le (hseg : seg ∈ L.segments) (hf : f ∈ L.inside seg) {i : ℕ}
    (hi : i ≤ L.pageIndex seg f) :
    seg.vmaddr + (i + 1) * L.pageSize ≤ seg.vmaddr + seg.vmsize := by
  have hpos := L.pageSize_pos
  obtain ⟨-, hlow, hhigh⟩ := mem_inside.mp hf
  have hmod := Nat.div_add_mod seg.vmsize L.pageSize
  rw [(L.pageAligned seg hseg).2, Nat.add_zero] at hmod
  have hlt : L.pageIndex seg f < seg.vmsize / L.pageSize := by
    rw [pageIndex, Nat.div_lt_iff_lt_mul hpos, Nat.mul_comm, hmod]
    omega
  have hmul : (i + 1) * L.pageSize ≤ seg.vmsize / L.pageSize * L.pageSize :=
    Nat.mul_le_mul_right _ (by omega)
  rw [Nat.mul_comm _ L.pageSize, Nat.mul_comm _ L.pageSize, hmod] at hmul
  rw [Nat.mul_comm]
  omega

end Image

section Segment

variable {L : Image τ} {seg : OutputSegment}

theorem inside_filter_suffix (addr : ℕ) :
    ((L.inside seg).filter fun f => decide (addr ≤ f.addr)) <:+ L.inside seg := by
  rw [← dropWhile_lt_eq_filter Fixup.addr ((Image.inside_pairwise seg).imp fun h => h.le)]
  exact List.dropWhile_suffix _

theorem startsInSegment_spec (hseg : seg ∈ L.segments)
    (hlast : (L.inside seg).getLast? = some last) :
    ∃ rec, L.startsInSegment seg = some rec ∧ rec.pageSize = L.pageSize ∧
      (L.imageBase + rec.segmentOffset) % 2 ^ 64 = seg.vmaddr ∧
      rec.pageCount = L.npages seg last % 2 ^ 16 ∧
      ∀ i, i < L.npages seg last → rec.pageStart[i]? =
        some (pageStartOf L.pageSize (seg.vmaddr + i * L.pageSize)
          (L.sorted.filter fun f =>
            decide (seg.vmaddr + i * L.pageSize ≤ f.addr))) := by
  simp only [Image.startsInSegment, Image.segmentFixups_eq_inside, hlast,
    Option.map_some, Option.some.injEq, exists_eq_left']
  refine ⟨?_, ?_, trivial, ?_⟩
  · rcases L.pageSize_eq with h | h <;> rw [h]
    · exact Nat.mod_eq_of_lt (by decide)
    · exact Nat.mod_eq_of_lt (by decide)
  · have hrange := L.inRange seg hseg
    have hbase := L.imageBase_lt
    omega
  · intro i hi
    have hall : (L.sorted.filter fun f => decide (0 ≤ f.addr)) = L.sorted := by
      simp
    have hstart := getElem?_pageStarts L.sorted_monotone
      (Nat.zero_le (seg.vmaddr + 0 * L.pageSize)) hi
    rwa [hall, Nat.zero_add] at hstart

theorem pageStartOf_inside {addr : ℕ} (hlow : seg.vmaddr ≤ addr)
    (hend : addr + L.pageSize ≤ seg.vmaddr + seg.vmsize) :
    pageStartOf L.pageSize addr (L.sorted.filter fun f => decide (addr ≤ f.addr)) =
      pageStartOf L.pageSize addr ((L.inside seg).filter fun f => decide (addr ≤ f.addr)) := by
  have hinside : ((L.inside seg).filter fun f => decide (addr ≤ f.addr)) =
      (L.sorted.filter fun f => decide (addr ≤ f.addr)).takeWhile
        fun f => decide (f.addr < seg.vmaddr + seg.vmsize) := by
    rw [takeWhile_lt_eq_filter Fixup.addr (L.sorted_monotone.filter _),
      List.filter_filter, Image.inside, List.filter_filter]
    apply List.filter_congr
    intro f _
    rw [← Bool.decide_and, ← Bool.decide_and, decide_eq_decide]
    omega
  rw [hinside]
  cases L.sorted.filter fun f => decide (addr ≤ f.addr) with
  | nil => rfl
  | cons f fs =>
    by_cases hf : f.addr < seg.vmaddr + seg.vmsize
    · rw [List.takeWhile_cons_of_pos (by simpa using hf)]
      rfl
    · rw [List.takeWhile_cons_of_neg (by simpa using hf)]
      exact if_neg (by omega)

theorem filter_pageIndex_eq (i : ℕ) :
    ((L.inside seg).filter fun f => decide (L.pageIndex seg f = i)) =
      ((L.inside seg).filter fun f =>
          decide (seg.vmaddr + i * L.pageSize ≤ f.addr)).takeWhile
        fun f => decide (f.addr < seg.vmaddr + i * L.pageSize + L.pageSize) := by
  rw [takeWhile_lt_eq_filter Fixup.addr (((Image.inside_pairwise seg).imp fun h => h.le).filter _),
    List.filter_filter]
  apply List.filter_congr
  intro f hf
  rw [← Bool.decide_and, decide_eq_decide,
    Image.pageIndex_eq_iff (Image.mem_inside.mp hf).2.1, Nat.succ_mul]
  omega

theorem walkPage_eq (hseg : seg ∈ L.segments) (hlinked : Linked L mem seg (L.inside seg))
    (hlast : (L.inside seg).getLast? = some last) {rec : StartsInSegment}
    (hrec : L.startsInSegment seg = some rec) {i : ℕ}
    (hi : i < L.npages seg last) {fuel : ℕ} (hfuel : L.sorted.length < fuel) :
    walkPage mem seg L.imageBase rec fuel i =
      some (((L.inside seg).filter fun f =>
        decide (L.pageIndex seg f = i)).map Fixup.addr) := by
  obtain ⟨rec', hrec', hsize, hoffset, -, hstarts⟩ :=
    startsInSegment_spec hseg hlast
  obtain rfl : rec' = rec := by
    rw [hrec, Option.some.injEq] at hrec'
    exact hrec'.symm
  have hmem : last ∈ L.inside seg := List.mem_of_getLast? hlast
  have hindex := hi
  rw [npages_eq (Image.mem_inside.mp hmem).2.1] at hindex
  have hend := Image.page_end_le hseg hmem
    (show i ≤ L.pageIndex seg last from Nat.le_of_lt_succ hindex)
  rw [Nat.succ_mul, ← Nat.add_assoc] at hend
  have hsuffix : ((L.inside seg).filter fun f =>
      decide (seg.vmaddr + i * L.pageSize ≤ f.addr)) <:+ L.inside seg :=
    inside_filter_suffix _
  rw [walkPage, hstarts i hi, pageStartOf_inside (Nat.le_add_right _ _) hend, filter_pageIndex_eq]
  cases hfs : (L.inside seg).filter fun f =>
      decide (seg.vmaddr + i * L.pageSize ≤ f.addr) with
  | nil => rfl
  | cons f fs =>
    rw [hfs] at hsuffix
    have hf : f ∈ (L.inside seg).filter fun f =>
        decide (seg.vmaddr + i * L.pageSize ≤ f.addr) := by
      rw [hfs]
      exact List.mem_cons_self
    rw [List.mem_filter, decide_eq_true_eq] at hf
    obtain ⟨hinside, hge⟩ := hf
    by_cases hlt : f.addr < seg.vmaddr + i * L.pageSize + L.pageSize
    · have hpageIndex : L.pageIndex seg f = i := by
        rw [Image.pageIndex_eq_iff (Image.mem_inside.mp hinside).2.1, Nat.succ_mul]
        omega
      have hpage := Image.page_eq_of_pageIndex hseg (Image.mem_inside.mp hinside).2.1 hpageIndex
      have hmod := Nat.div_add_mod f.addr L.pageSize
      have hmodlt := Nat.mod_lt f.addr L.pageSize_pos
      rw [Image.page, Nat.mul_comm] at hpage
      have hnone : f.addr % L.pageSize ≠ startNone := by
        rw [startNone]
        rcases L.pageSize_eq with h | h <;> rw [h] at hmodlt ⊢ <;> omega
      have haddr : seg.vmaddr + i * L.pageSize + f.addr % L.pageSize =
          f.addr := by omega
      have hlength : fs.length < fuel := by
        have hle := hsuffix.length_le
        have hle' : (L.inside seg).length ≤ L.sorted.length :=
          List.length_filter_le _ _
        rw [List.length_cons] at hle
        omega
      have hwalk := walkChain_eq ((Image.inside_pairwise seg).sublist hsuffix.sublist)
        (fun g hg => Image.aligned_of_mem_inside (hsuffix.subset hg))
        (hlinked.of_suffix hsuffix) hlength
      rw [← Nat.mul_comm, ← Image.page] at hpage
      rw [hpage] at hwalk
      rw [pageStartOf, if_pos hlt]
      simp only
      rw [if_neg hnone, hoffset, hsize, haddr, hwalk,
        List.takeWhile_cons_of_pos (by simpa using hlt)]
      rfl
    · rw [pageStartOf, if_neg hlt, List.takeWhile_cons_of_neg (by simpa using hlt)]
      rfl

end Segment

variable {L : Image τ}

theorem chainsCorrect_of_pageIndex_lt (imports : Fixup τ → ℕ × ℕ)
    (sched : Schedule L) (mem : Memory) (hsep : L.Separated)
    (hfits : ∀ seg ∈ L.segments, ∀ f ∈ L.inside seg, L.pageIndex seg f < 65535) :
    ChainsCorrect L imports sched mem := by
  constructor
  · refine ⟨L.sorted.length + 1, ?_⟩
    intro seg hseg
    cases hlast : (L.inside seg).getLast? with
    | none =>
      have hnil := List.getLast?_eq_none_iff.mp hlast
      refine ⟨[], ?_, by simp [hnil], by simp⟩
      rw [walkSegment, Image.startsInSegment, Image.segmentFixups_eq_inside, hlast]
      rfl
    | some last =>
      obtain ⟨rec, hrec, -, -, hcount, -⟩ := startsInSegment_spec hseg hlast
      have hmem : last ∈ L.inside seg := List.mem_of_getLast? hlast
      have hle := (Image.mem_inside.mp hmem).2.1
      have hlt := hfits seg hseg last hmem
      have hnpages := npages_eq (L := L) hle
      rw [← Image.pageIndex] at hnpages
      rw [hnpages, Nat.mod_eq_of_lt (by omega)] at hcount
      refine ⟨(List.range rec.pageCount).map fun i =>
        ((L.inside seg).filter fun f =>
          decide (L.pageIndex seg f = i)).map Fixup.addr, ?_, ?_, ?_⟩
      · rw [walkSegment, hrec]
        apply mapM_eq_some_map
        intro i hi
        apply walkPage_eq hseg (linked_writeFixupChains sched hsep imports mem hseg)
          hlast hrec _ (Nat.lt_succ_self _)
        rw [hnpages, ← hcount]
        exact List.mem_range.mp hi
      · rw [← List.flatMap_def, ← List.map_flatMap]
        congr 1
        apply flatMap_range_filter
        · exact (Image.inside_pairwise seg).imp fun h =>
            Nat.div_le_div_right (by omega)
        · intro f hf
          rw [hcount]
          exact Nat.lt_succ_of_le (Image.pageIndex_le_last hlast hf)
      · intro i chain hchain addr haddr
        rw [List.getElem?_map] at hchain
        obtain ⟨j, hj, rfl⟩ := Option.map_eq_some_iff.mp hchain
        obtain rfl : i = j := by
          have hget := List.getElem?_eq_some_iff.mp hj
          simpa using hget.2
        obtain ⟨f, hf, rfl⟩ := List.mem_map.mp haddr
        rw [List.mem_filter, decide_eq_true_eq] at hf
        exact (Image.pageIndex_eq_iff (Image.mem_inside.mp hf.1).2.1).mp hf.2
  · intro seg hseg f hf hsym
    obtain ⟨p, hp, rfl⟩ : ∃ p ∈ L.links (L.inside seg), p.1 = f := by
      rw [← Image.links_map_fst (L := L) (L.inside seg)] at hf
      exact List.mem_map.mp hf
    have hstep : ⟨seg.loc p.1.addr, p.1, p.2⟩ ∈ sched.steps :=
      sched.mem_steps.mpr ⟨seg, hseg, p, hp, rfl⟩
    have hword := sched.load64_writeFixupChains hsep imports mem hstep
    dsimp only at hword
    rw [hword]
    rcases rebaseTarget_eq_or_error hsym imports p.2 (load64_lt mem (seg.loc p.1.addr)) with h | h
    · exact Or.inl h
    · exact Or.inr (sched.errors_writeFixupChains hsep imports mem hstep h)

theorem pageIndex_lt_of_chainsCorrect {imports : Fixup τ → ℕ × ℕ}
    {sched : Schedule L} (h : ChainsCorrect L imports sched mem)
    (hseg : seg ∈ L.segments)
    (hf : f ∈ L.inside seg) : L.pageIndex seg f < 65535 := by
  obtain ⟨fuel, hvisits⟩ := h.visits
  obtain ⟨pages, hwalk, hflatten, hpages⟩ := hvisits seg hseg
  cases hlast : (L.inside seg).getLast? with
  | none =>
    rw [List.getLast?_eq_none_iff.mp hlast] at hf
    simp at hf
  | some last =>
    obtain ⟨rec, hrec, -, -, hcount, -⟩ := startsInSegment_spec hseg hlast
    have hmem : last ∈ L.inside seg := List.mem_of_getLast? hlast
    have hle := (Image.mem_inside.mp hmem).2.1
    rw [npages_eq hle, ← Image.pageIndex] at hcount
    rw [walkSegment, hrec] at hwalk
    have hlength := length_of_mapM_eq_some hwalk
    rw [List.length_range, hcount] at hlength
    have hvisited : last.addr ∈ pages.flatten := by
      rw [hflatten]
      exact List.mem_map_of_mem hmem
    obtain ⟨chain, hchain, haddr⟩ := List.mem_flatten.mp hvisited
    obtain ⟨i, hi, rfl⟩ := List.mem_iff_getElem.mp hchain
    have hpage := hpages i pages[i] (List.getElem?_eq_getElem hi) _ haddr
    rw [← Image.pageIndex_eq_iff hle] at hpage
    have hmax := Image.pageIndex_le_last hlast hf
    omega

/-- If the words of the fixups do not overlap, the chains are correct exactly
when every fixup lies on one of the first 65535 pages of its segment. -/
theorem chainsCorrect_iff (imports : Fixup τ → ℕ × ℕ) (sched : Schedule L)
    (mem : Memory) (hsep : L.Separated) :
    ChainsCorrect L imports sched mem ↔
      ∀ seg ∈ L.segments, ∀ f ∈ L.inside seg, (f.addr - seg.vmaddr) / L.pageSize < 65535 :=
  ⟨fun h _ hseg _ hf => pageIndex_lt_of_chainsCorrect h hseg hf,
    chainsCorrect_of_pageIndex_lt imports sched mem hsep⟩

/-- A segment of 65536 pages of 4096 bytes with two rebases on the given page. -/
def twoFixups (page : ℕ) : Image Unit where
  pageSize := 4096
  imageBase := 2 ^ 32
  segments := [⟨2 ^ 32, 65536 * 4096, 0⟩]
  fixups := [{ addr := 2 ^ 32 + page * 4096 }, { addr := 2 ^ 32 + page * 4096 + 8 }]
  pageSize_eq := Or.inl rfl
  imageBase_lt := by decide
  distinct := by simp
  aligned := by
    intro f hf
    rcases List.mem_pair.mp hf with rfl | rfl <;> dsimp only <;> omega
  pageAligned := by decide
  inRange := by decide
  increasing := by simp

def inOrder (L : Image τ) : Schedule L where
  order := fun seg => L.links (L.segmentFixups seg)
  order_perm := fun _ _ => List.Perm.refl _

theorem sorted_twoFixups : (twoFixups 0).sorted = (twoFixups 0).fixups :=
  List.mergeSort_of_pairwise (by decide)

/-- Two fixups on the first page make a chain of two words. -/
theorem chainsCorrect_twoFixups_zero :
    ChainsCorrect (twoFixups 0) (fun _ => (0, 0)) (inOrder _) fun _ => 0 := by
  refine (chainsCorrect_iff _ _ _ ?_).mpr ?_
  · rw [Image.Separated]
    simp only [Image.inside, sorted_twoFixups]
    exact List.pairwise_pair.mpr (.inl (by decide))
  · intro seg hseg f hf
    obtain rfl := List.mem_singleton.mp hseg
    have hmem := (Image.mem_inside.mp hf).1
    rw [sorted_twoFixups] at hmem
    rcases List.mem_pair.mp hmem with rfl | rfl <;> decide

/-- Fixups on page 65535 make the length of the page table zero. -/
theorem not_chainsCorrect_twoFixups :
    ¬ ChainsCorrect (twoFixups 65535) (fun _ => (0, 0)) (inOrder _) fun _ => 0 := by
  intro h
  have hlt := pageIndex_lt_of_chainsCorrect h (List.mem_singleton_self _)
    (f := { addr := 2 ^ 32 + 65535 * 4096 }) (by
      rw [Image.mem_inside, (Image.sorted_perm _).mem_iff]
      exact ⟨List.mem_cons_self, by decide, by decide⟩)
  revert hlt
  decide

end Mold.MachO.ChainedFixups
