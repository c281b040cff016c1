import Mold.Elf.GcSectionsReachable

/-!
# When garbage collection is correct

What the workers mark is what can be reached, but for fragments of exception records and
for what the first relocation of a record is resolved to.  So a collection is correct if and
only if the roots cover these, the functions of the dynamic section and the targets of
`--defsym`.
-/

namespace Mold.Elf

variable {σ φ ι : Type*} {ctx : GcContext σ φ ι}

/-! ## Reachability -/

variable {s : σ}

theorem mem_edges {e : GcEdge ι} :
    e ∈ ctx.edges s ↔ (∃ fde ∈ (ctx.isec s).fdes, ∃ i ∈ fde.rels.tail, e = .fde i) ∨
      ∃ i ∈ (ctx.isec s).rels, e = .rel i := by
  simp only [GcContext.edges, List.mem_append, List.mem_flatMap, List.mem_map, @eq_comm _ e]

variable {o : GcOrigin σ φ}

theorem node_eq_some_sec : GcContext.node o = some (.sec s) ↔ o = .isec s := by
  cases o <;> simp [GcContext.node]

variable {f : φ}

theorem node_eq_some_frag : GcContext.node o = some (.frag f) ↔ o = .frag f := by
  cases o <;> simp [GcContext.node]

variable {n : GcNode σ φ}

theorem Reachable.tail (h : ctx.Reachable (.sec s))
    (hrefers : ctx.Refers (.sec s) n) : ctx.Reachable n := by
  obtain ⟨r, hroot, hreach⟩ := h
  exact ⟨r, hroot, hreach.tail hrefers⟩

theorem Followed.tail (h : ctx.Followed (.sec s))
    (hfollows : ctx.Follows (.sec s) n) : ctx.Followed n := by
  obtain ⟨r, hroot, hreach⟩ := h
  exact ⟨r, hroot, hreach.tail hfollows⟩

theorem refers_of_follows {a b : GcNode σ φ} (h : ctx.Follows a b) : ctx.Refers a b := by
  cases a with
  | frag f => exact h
  | sec s =>
    obtain ⟨hlive, i, hsym, hnode⟩ := h
    refine ⟨hlive, i, hsym.imp_right ?_, hnode⟩
    rintro ⟨fde, hfde, hi⟩
    exact ⟨fde, hfde, List.mem_of_mem_tail hi⟩

theorem reachable_of_followed (h : ctx.Followed n) : ctx.Reachable n := by
  obtain ⟨r, hroot, hreach⟩ := h
  exact ⟨r, hroot, Relation.ReflTransGen.mono (fun _ _ => refers_of_follows) _ _ hreach⟩

/-- A node that can be reached can be reached without first relocations, if these are
covered. -/
theorem followed_of_reachable (hfirst : ctx.FirstCovered)
    (hlive : ctx.isLive s = true) (h : ctx.Reachable (.sec s)) : ctx.Followed (.sec s) := by
  obtain ⟨r, hroot, hreach⟩ := h
  have hall : ∀ n, Relation.ReflTransGen ctx.Refers r n → ∀ t, n = .sec t →
      ctx.isLive t = true → ctx.Followed (.sec t) := by
    intro n hreach
    induction hreach with
    | refl =>
      rintro t rfl -
      exact ⟨.sec t, hroot, .refl⟩
    | @tail b c hreach hrefers ih =>
      rintro t rfl hlive
      cases b with
      | frag f => exact hrefers.elim
      | sec u =>
        obtain ⟨hliveu, i, hsym, hnode⟩ := hrefers
        have hu := ih u rfl hliveu
        rcases hsym with hi | ⟨fde, hfde, hi⟩
        · exact Followed.tail hu ⟨hliveu, i, .inl hi, hnode⟩
        cases hrels : fde.rels with
        | nil =>
          rw [hrels] at hi
          exact absurd hi List.not_mem_nil
        | cons j l =>
          rw [hrels] at hi
          rcases List.mem_cons.mp hi with rfl | hi
          · -- `visit` passes over this relocation
            by_cases htu : t = u
            · rw [htu]
              exact hu
            · exact hfirst u hliveu ⟨r, hroot, hreach⟩ fde hfde i (by rw [hrels]; rfl) t
                (node_eq_some_sec.mp hnode) hlive htu
          · exact Followed.tail hu
              ⟨hliveu, i, .inr ⟨fde, hfde, by rw [hrels]; exact hi⟩, hnode⟩
  exact hall _ hreach s rfl hlive

theorem follows_of_mem_next {a b : GcNode σ φ} (hlive : ∀ s, a = .sec s → ctx.isLive s = true)
    (h : b ∈ ctx.next a) : ctx.Follows a b := by
  cases a with
  | frag f => exact absurd h List.not_mem_nil
  | sec s =>
    obtain ⟨e, he, htarget⟩ := mem_next.mp h
    refine ⟨hlive s rfl, e.sym, ?_, ?_⟩
    · rcases mem_edges.mp he with ⟨fde, hfde, i, hi, rfl⟩ | ⟨i, hi, rfl⟩
      · exact .inr ⟨fde, hfde, hi⟩
      · exact .inl hi
    · cases b with
      | sec t => exact node_eq_some_sec.mpr (target_eq_some_sec.mp htarget).1
      | frag f =>
        obtain ⟨-, i, rfl, horigin⟩ := target_eq_some_frag.mp htarget
        exact node_eq_some_frag.mpr horigin

theorem isLive_of_markReachable (h : ctx.MarkReachable (.sec s)) : ctx.isLive s = true := by
  obtain ⟨r, hroot, hreach⟩ := h
  rcases hreach.cases_tail with rfl | ⟨n, -, hnext⟩
  · exact hroot.1
  · cases n with
    | sec t =>
      obtain ⟨e, -, htarget⟩ := mem_next.mp hnext
      exact (target_eq_some_sec.mp htarget).2
    | frag f => exact absurd hnext List.not_mem_nil

theorem followed_of_markReachable (h : ctx.MarkReachable n) : ctx.Followed n := by
  obtain ⟨r, hroot, hreach⟩ := h
  induction hreach with
  | refl =>
    cases r with
    | sec s =>
      rcases hroot.2 with ⟨hmem, hkeep⟩ | ⟨i, hi, horigin⟩
      · exact ⟨_, .inl ⟨s, hmem, rfl, hkeep⟩, .refl⟩
      · exact ⟨_, .inr ⟨i, hi, node_eq_some_sec.mpr horigin⟩, .refl⟩
    | frag f =>
      obtain ⟨-, i, hi, horigin⟩ := hroot
      exact ⟨_, .inr ⟨i, hi, node_eq_some_frag.mpr horigin⟩, .refl⟩
  | @tail b c hreach hnext ih =>
    cases b with
    | sec s =>
      have hlive := isLive_of_markReachable ⟨r, hroot, hreach⟩
      refine Followed.tail ih (follows_of_mem_next ?_ hnext)
      intro t heq
      obtain rfl := GcNode.sec.inj heq
      exact hlive
    | frag f => exact absurd hnext List.not_mem_nil

theorem MarkReachable.tail {s t : σ} (h : ctx.MarkReachable (.sec s))
    (hfollows : ctx.Follows (.sec s) (.sec t)) (hlive : ctx.isLive t = true) :
    ctx.MarkReachable (.sec t) := by
  obtain ⟨-, i, hsym, hnode⟩ := hfollows
  have horigin := node_eq_some_sec.mp hnode
  have hgo : ∀ e ∈ ctx.edges s, e.sym = i → ctx.MarkReachable (.sec t) := by
    intro e he hsym
    obtain ⟨r, hroot, hreach⟩ := h
    refine ⟨r, hroot, hreach.tail (mem_next.mpr ⟨e, he, target_eq_some_sec.mpr ⟨?_, hlive⟩⟩)⟩
    rw [hsym, horigin]
  rcases hsym with hi | ⟨fde, hfde, hi⟩
  · exact hgo (.rel i) (mem_edges.mpr (.inr ⟨i, hi, rfl⟩)) rfl
  · exact hgo (.fde i) (mem_edges.mpr (.inl ⟨fde, hfde, i, hi, rfl⟩)) rfl

/-- The sections that are marked are those that `visit` gets to. -/
theorem markReachable_sec_iff (hlive : ctx.isLive s = true) :
    ctx.MarkReachable (.sec s) ↔ ctx.Followed (.sec s) := by
  refine ⟨followed_of_markReachable, ?_⟩
  rintro ⟨r, hroot, hreach⟩
  have hall : ∀ n, Relation.ReflTransGen ctx.Follows r n → ∀ t, n = .sec t →
      ctx.isLive t = true → ctx.MarkReachable (.sec t) := by
    intro n hreach
    induction hreach with
    | refl =>
      rintro t rfl hlive
      rcases hroot with ⟨u, hmem, heq, hkeep⟩ | ⟨i, hi, hnode⟩
      · obtain rfl := GcNode.sec.inj heq
        exact ⟨.sec t, ⟨hlive, .inl ⟨hmem, hkeep⟩⟩, .refl⟩
      · exact ⟨.sec t, ⟨hlive, .inr ⟨i, hi, node_eq_some_sec.mp hnode⟩⟩, .refl⟩
    | @tail b c hreach hfollows ih =>
      rintro t rfl hlive
      cases b with
      | sec u => exact MarkReachable.tail (ih u rfl hfollows.1) hfollows hlive
      | frag f => exact hfollows.elim
  exact hall _ hreach s rfl hlive

theorem markReachable_frag_iff (hfirst : ctx.FirstCovered) (halloc : ctx.fragIsAlloc f = true) :
    ctx.MarkReachable (.frag f) ↔ ctx.IsReferredFrag f := by
  constructor
  · rintro ⟨r, hroot, hreach⟩
    rcases hreach.cases_tail with rfl | ⟨n, hreach, hnext⟩
    · exact .inl hroot.2
    · cases n with
      | sec s =>
        have hmark : ctx.MarkReachable (.sec s) := ⟨r, hroot, hreach⟩
        obtain ⟨e, he, htarget⟩ := mem_next.mp hnext
        obtain ⟨-, i, rfl, horigin⟩ := target_eq_some_frag.mp htarget
        rcases mem_edges.mp he with ⟨fde, -, j, -, hij⟩ | ⟨j, hj, hij⟩
        · cases hij
        · obtain rfl := GcEdge.rel.inj hij
          exact .inr ⟨s, isLive_of_markReachable hmark,
            reachable_of_followed (followed_of_markReachable hmark), i, hj, horigin⟩
      | frag g => exact absurd hnext List.not_mem_nil
  · rintro (⟨i, hi, horigin⟩ | ⟨s, hlive, hreach, i, hi, horigin⟩)
    · exact ⟨.frag f, ⟨halloc, i, hi, horigin⟩, .refl⟩
    · obtain ⟨r, hroot, hmark⟩ :=
        (markReachable_sec_iff hlive).mpr (followed_of_reachable hfirst hlive hreach)
      exact ⟨r, hroot, hmark.tail (mem_next.mpr ⟨.rel i, mem_edges.mpr (.inr ⟨i, hi, rfl⟩),
        target_eq_some_frag.mpr ⟨halloc, i, rfl, horigin⟩⟩)⟩

theorem reachable_frag_iff : ctx.Reachable (.frag f) ↔ ctx.IsReferredFrag f ∨
    ∃ s, ctx.isLive s = true ∧ ctx.Reachable (.sec s) ∧
      ∃ fde ∈ (ctx.isec s).fdes, ∃ i ∈ fde.rels, ctx.origin i = .frag f := by
  constructor
  · rintro ⟨r, hroot, hreach⟩
    rcases hreach.cases_tail with rfl | ⟨n, hreach, hrefers⟩
    · rcases hroot with ⟨s, -, heq, -⟩ | ⟨i, hi, hnode⟩
      · cases heq
      · exact .inl (.inl ⟨i, hi, node_eq_some_frag.mp hnode⟩)
    · cases n with
      | sec s =>
        obtain ⟨hlive, i, hi | ⟨fde, hfde, hi⟩, hnode⟩ := hrefers
        · exact .inl (.inr ⟨s, hlive, ⟨r, hroot, hreach⟩, i, hi, node_eq_some_frag.mp hnode⟩)
        · exact .inr ⟨s, hlive, ⟨r, hroot, hreach⟩, fde, hfde, i, hi, node_eq_some_frag.mp hnode⟩
      | frag g => exact hrefers.elim
  · rintro ((⟨i, hi, horigin⟩ | ⟨s, hlive, hreach, i, hi, horigin⟩) |
      ⟨s, hlive, hreach, fde, hfde, i, hi, horigin⟩)
    · exact ⟨_, .inr ⟨i, hi, node_eq_some_frag.mpr horigin⟩, .refl⟩
    · exact Reachable.tail hreach ⟨hlive, i, .inl hi, node_eq_some_frag.mpr horigin⟩
    · exact Reachable.tail hreach
        ⟨hlive, i, .inr ⟨fde, hfde, hi⟩, node_eq_some_frag.mpr horigin⟩

section Aliases

variable [DecidableEq ι]

theorem fixOrigin_of_ne {defsym : Defsym ι} {i : ι} (h : i ≠ defsym.sym)
    (origin : ι → GcOrigin σ φ) : ctx.fixOrigin origin defsym i = origin i := by
  cases hvalue : defsym.value with
  | address _ =>
    simp only [GcContext.fixOrigin, hvalue]
    exact Function.update_of_ne h _ _
  | symbol target =>
    simp only [GcContext.fixOrigin, hvalue]
    split
    · rfl
    · exact Function.update_of_ne h _ _

theorem fixOrigin_sym (defsym : Defsym ι) (origin : ι → GcOrigin σ φ) :
    ctx.fixOrigin origin defsym defsym.sym = .other ∨
      ∃ j, ctx.fixOrigin origin defsym defsym.sym = origin j := by
  cases hvalue : defsym.value with
  | address _ => simp [GcContext.fixOrigin, hvalue]
  | symbol target =>
    simp only [GcContext.fixOrigin, hvalue]
    split
    · exact .inr ⟨_, rfl⟩
    · exact .inr ⟨target, Function.update_self _ _ _⟩

theorem foldl_fixOrigin_of_notMem {l : List (Defsym ι)} {i : ι}
    (h : i ∉ l.map Defsym.sym) (origin : ι → GcOrigin σ φ) :
    l.foldl ctx.fixOrigin origin i = origin i := by
  induction l generalizing origin with
  | nil => rfl
  | cons defsym l ih =>
    rw [List.map_cons, List.mem_cons, not_or] at h
    rw [List.foldl_cons, ih h.2, fixOrigin_of_ne h.1]

theorem foldl_fixOrigin_mem {l : List (Defsym ι)} {origin : ι → GcOrigin σ φ}
    (h : ∀ i s, origin i = .isec s → s ∈ ctx.sections) (i : ι) (s : σ)
    (hi : l.foldl ctx.fixOrigin origin i = .isec s) : s ∈ ctx.sections := by
  induction l generalizing origin with
  | nil => exact h i s hi
  | cons defsym l ih =>
    refine ih (fun j t hj => ?_) hi
    by_cases hj' : j = defsym.sym
    · subst hj'
      rcases @fixOrigin_sym _ _ _ ctx _ defsym origin with hother | ⟨k, hsame⟩
      · rw [hother] at hj
        cases hj
      · rw [hsame] at hj
        exact h k t hj
    · rw [fixOrigin_of_ne hj'] at hj
      exact h j t hj

theorem outputOrigin_mem (i : ι) (s : σ) (h : ctx.outputOrigin i = .isec s) : s ∈ ctx.sections :=
  foldl_fixOrigin_mem ctx.origin_mem i s h

end Aliases

section Collections

variable {res : GcResult σ φ}

theorem Swept.sections (h : Swept ctx res) (hfirst : ctx.FirstCovered)
    (hs : s ∈ ctx.sections) (halloc : (ctx.isec s).isAlloc = true) :
    res.isAlive s = true ↔ (ctx.isec s).isAlive = true ∧ ctx.Reachable (.sec s) := by
  cases halive : (ctx.isec s).isAlive with
  | false => simp [h.dead s halive]
  | true =>
    have hlive : ctx.isLive s = true := by
      rw [GcContext.isLive, halive, halloc]
      rfl
    rw [h.live s hs hlive, markReachable_sec_iff hlive, and_iff_right rfl]
    exact ⟨reachable_of_followed, followed_of_reachable hfirst hlive⟩

/-- If the sections that are kept are those that can be reached, the first relocations are
covered. -/
theorem Swept.firstCovered (h : Swept ctx res)
    (hsections : ∀ s ∈ ctx.sections, (ctx.isec s).isAlloc = true →
      (res.isAlive s = true ↔ (ctx.isec s).isAlive = true ∧ ctx.Reachable (.sec s))) :
    ctx.FirstCovered := by
  intro s hlive hreach fde hfde i hi t horigin hlivet _
  have hmem := ctx.origin_mem i t horigin
  have hrefers : ctx.Refers (.sec s) (.sec t) :=
    ⟨hlive, i, .inr ⟨fde, hfde, List.mem_of_mem_head? hi⟩, node_eq_some_sec.mpr horigin⟩
  have halive := Bool.and_eq_true_iff.mp hlivet
  exact (markReachable_sec_iff hlivet).mp ((h.live t hmem hlivet).mp
    ((hsections t hmem halive.2).mpr ⟨halive.1, Reachable.tail hreach hrefers⟩))

theorem Swept.frag_iff (h : Swept ctx res) (hfirst : ctx.FirstCovered)
    (halloc : ctx.fragIsAlloc f = true) :
    res.fragIsAlive f = true ↔ ctx.IsReferredFrag f := by
  rw [h.frag, halloc, ← markReachable_frag_iff hfirst halloc]
  simp

theorem Swept.fragments_iff (h : Swept ctx res) (hfirst : ctx.FirstCovered) :
    (∀ f, ctx.fragIsAlloc f = true → (res.fragIsAlive f = true ↔ ctx.Reachable (.frag f))) ↔
    ∀ s, ctx.isLive s = true → ctx.Reachable (.sec s) →
      ∀ fde ∈ (ctx.isec s).fdes, ∀ i ∈ fde.rels, ∀ f, ctx.origin i = .frag f →
        ctx.fragIsAlloc f = true → ctx.IsReferredFrag f := by
  constructor
  · intro hall s hlive hreach fde hfde i hi f horigin halloc
    exact (h.frag_iff hfirst halloc).mp ((hall f halloc).mpr
      (reachable_frag_iff.mpr (.inr ⟨s, hlive, hreach, fde, hfde, i, hi, horigin⟩)))
  · intro hall f halloc
    rw [h.frag_iff hfirst halloc, reachable_frag_iff]
    refine ⟨.inl, ?_⟩
    rintro (hreferred | ⟨s, hlive, hreach, fde, hfde, i, hi, horigin⟩)
    · exact hreferred
    · exact hall s hlive hreach fde hfde i hi f horigin halloc

theorem Swept.survives_iff (h : Swept ctx res) (hfirst : ctx.FirstCovered)
    (hfrags : ∀ f, ctx.fragIsAlloc f = true → (res.fragIsAlive f = true ↔ ctx.Reachable (.frag f)))
    (ho : ∀ s, o = .isec s → s ∈ ctx.sections) :
    ctx.Survives res o ↔ ctx.IsReached o := by
  cases o with
  | other => exact Iff.rfl
  | frag f =>
    rw [GcContext.Survives, GcContext.IsReached]
    cases halloc : ctx.fragIsAlloc f with
    | true => simp [hfrags f halloc]
    | false => simp [(h.frag f).mpr (.inl halloc)]
  | isec s =>
    rw [GcContext.Survives, GcContext.IsReached, GcContext.isLive]
    cases halive : (ctx.isec s).isAlive with
    | false => simp
    | true =>
      cases halloc : (ctx.isec s).isAlloc with
      | true => simp [h.sections hfirst (ho s rfl) halloc, halive]
      | false => simp [h.kept s (ho s rfl) halloc, halive]

theorem Swept.isUsed_iff (h : Swept ctx res) (hfirst : ctx.FirstCovered) (i : ι) :
    ctx.IsUsed (fun s => res.isAlive s = true) i ↔
      ctx.IsUsed (fun s => ctx.isLive s = true ∧ ctx.Reachable (.sec s)) i := by
  refine or_congr Iff.rfl (or_congr Iff.rfl (exists_congr fun s => ?_))
  refine and_congr_right fun hs => and_congr_right fun halloc =>
    and_congr_left fun _ => (h.sections hfirst hs halloc).trans (and_congr_left fun _ => ?_)
  rw [GcContext.isLive, halloc, Bool.and_true]

variable [DecidableEq ι]

theorem isReached_of_isUsed {i : ι} (hi : i ∉ ctx.defsyms.map Defsym.sym)
    (hused : ctx.IsUsed (fun s => ctx.isLive s = true ∧ ctx.Reachable (.sec s)) i) :
    ctx.IsReached (ctx.outputOrigin i) := by
  have hreach : ∀ n, GcContext.node (ctx.origin i) = some n → ctx.Reachable n := by
    intro n hnode
    have hroot : i ∈ ctx.rootSymbols → ctx.Reachable n :=
      fun hmem => ⟨n, .inr ⟨i, hmem, hnode⟩, .refl⟩
    rcases hused with rfl | hexported | ⟨s, hs, -, ⟨hlive, hreach⟩, hsym | ⟨fde, hfde, hcie⟩⟩
    · exact hroot (by simp [GcContext.rootSymbols])
    · exact hroot (by simp [GcContext.rootSymbols, hexported])
    · exact Reachable.tail hreach ⟨hlive, i, hsym, hnode⟩
    · refine hroot ?_
      have hmem : i ∈ ctx.cies.flatten :=
        List.mem_flatten.mpr ⟨fde.cie, ctx.fde_cie s hs fde hfde, hcie⟩
      simp only [GcContext.rootSymbols, List.mem_append, List.mem_cons]
      exact .inr (.inr (.inr (.inr hmem)))
  rw [GcContext.outputOrigin, foldl_fixOrigin_of_notMem hi]
  cases horigin : ctx.origin i with
  | other => exact trivial
  | isec s => exact fun _ => hreach _ (node_eq_some_sec.mpr horigin)
  | frag f => exact fun _ => hreach _ (node_eq_some_frag.mpr horigin)

theorem Swept.collected_iff (h : Swept ctx res) : ctx.Collected res ↔ ctx.RootsCover := by
  constructor
  · intro hcollected
    have hfirst := h.firstCovered hcollected.sections
    have hsurvives := fun i =>
      h.survives_iff hfirst hcollected.fragments (outputOrigin_mem i)
    refine ⟨hfirst, (h.fragments_iff hfirst).mp hcollected.fragments,
      fun i hi => (hsurvives i).mp (hcollected.initFini i hi), fun defsym _ hused => ?_⟩
    exact (hsurvives _).mp (hcollected.used _ ((h.isUsed_iff hfirst _).mpr hused))
  · intro hcover
    have hfirst := hcover.first
    have hfrags := (h.fragments_iff hfirst).mpr hcover.fdes
    have hsurvives := fun i => h.survives_iff hfirst hfrags (outputOrigin_mem i)
    refine ⟨fun s hs halloc => h.sections hfirst hs halloc, hfrags,
      fun i hi => (hsurvives i).mpr (hcover.initFini i hi), fun i hused => ?_⟩
    have hused' := (h.isUsed_iff hfirst i).mp hused
    refine (hsurvives i).mpr ?_
    by_cases hi : i ∈ ctx.defsyms.map Defsym.sym
    · obtain ⟨defsym, hdefsym, rfl⟩ := List.mem_map.mp hi
      exact hcover.defsyms defsym hdefsym hused'
    · exact isReached_of_isUsed hi hused'

variable [DecidableEq σ] [DecidableEq φ]

omit [DecidableEq ι] in
theorem exists_run (ctx : GcContext σ φ ι) : ∃ res, ctx.Run res := by
  obtain ⟨st, hreaches, hfinished⟩ := exists_gcFinished ctx
    (ctx.collectRootSet ctx.sections ctx.exportedSymbols ctx.cies.flatten)
  exact ⟨ctx.sweep st, _, _, _, st, .refl _, .refl _, .refl _, hreaches, hfinished, rfl⟩

/-- Garbage collection ends in every case.  It is correct if and only if the roots cover
what the exception records, the dynamic section and the aliases need. -/
theorem gcSections_iff (ctx : GcContext σ φ ι) :
    (∃ res, ctx.Run res) ∧ ∀ res, ctx.Run res → (ctx.Collected res ↔ ctx.RootsCover) :=
  ⟨exists_run ctx, fun _ h => (swept_of_run h).collected_iff⟩

end Collections

section Example

local instance instNeZeroFour : NeZero 4 := ⟨by decide⟩

/-- The section `false` has the entry point and refers to the symbol `1`, which is an alias
of the symbol `2` in the section `true`. -/
def exampleGc : GcContext Bool Empty (Fin 4) where
  isArm32 := false
  isDynamic := false
  sections := [false, true]
  isec := fun s =>
    { name := ".text", shType := 1, shFlags := 6, isAlive := true, fdes := []
      rels := if s then [] else [1] }
  fragIsAlloc := Empty.elim
  origin := fun i => if i = 0 then .isec false else if i = 2 then .isec true else .other
  origin_mem := by decide
  file := fun i => if i = 3 then none else some (.obj 0)
  isExported := fun _ => false
  symbols := [[0, 1, 2]]
  cies := []
  fde_cie := by simp
  entry := 0
  init := 3
  fini := 3
  undefined := []
  requireDefined := []
  defsyms := [⟨1, .symbol 2⟩]

/-- The target of an alias is removed though a section that is kept refers to the
alias. -/
theorem not_collected_exampleGc : ¬ ∀ res, exampleGc.Run res → exampleGc.Collected res := by
  intro hall
  obtain ⟨res, hrun⟩ := exists_run exampleGc
  have h := hall res hrun
  have hnone : ∀ s, ¬ shouldKeep exampleGc.isArm32 (exampleGc.isec s) = true := by
    decide +kernel
  have hroot : ∀ n, exampleGc.Root n → n = .sec false := by
    rintro n (⟨s, -, rfl, hkeep⟩ | ⟨i, hi, hnode⟩)
    · exact absurd hkeep (hnone s)
    · obtain rfl : i = 0 := List.mem_singleton.mp hi
      exact (Option.some.inj hnode).symm
  have hrefers : ∀ n, ¬ exampleGc.Refers (.sec false) n := by
    rintro n ⟨-, i, hi | ⟨fde, hfde, -⟩, hnode⟩
    · obtain rfl : i = 1 := List.mem_singleton.mp hi
      cases hnode
    · exact absurd hfde List.not_mem_nil
  have hreach : ∀ n, exampleGc.Reachable n → n = .sec false := by
    rintro n ⟨r, hr, hreach⟩
    obtain rfl := hroot r hr
    rcases hreach.cases_head with rfl | ⟨m, hm, -⟩
    · rfl
    · exact absurd hm (hrefers m)
  have hkept : res.isAlive false = true := (h.sections false (by decide) rfl).mpr
    ⟨rfl, .sec false, .inr ⟨0, by decide, rfl⟩, .refl⟩
  have hused : exampleGc.IsUsed (fun s => res.isAlive s = true) 1 :=
    .inr (.inr ⟨false, by decide, rfl, hkept, .inl (.inl (by decide))⟩)
  have htarget : res.isAlive true = true := h.used 1 hused rfl
  have hone := hreach _ ((h.sections true (by decide) rfl).mp htarget).2
  exact absurd (GcNode.sec.inj hone) (by decide)

end Example

end Mold.Elf
