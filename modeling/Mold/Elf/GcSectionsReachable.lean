import Mold.Elf.GcSectionsMarked

/-!
# What garbage collection keeps

The sections that are kept are those that can be reached from the roots.  A fragment
that only an exception record refers to is not kept, and the roots do not cover the
functions of the dynamic section and what `--defsym` symbols stand for.
-/

namespace Mold.Elf

open Lib

variable {σ φ ι : Type*}

/-! ## Specification -/

namespace GcContext

variable (ctx : GcContext σ φ ι)

def node : GcOrigin σ φ → Option (GcNode σ φ)
  | .isec s => some (.sec s)
  | .frag f => some (.frag f)
  | .other => none

def rootSymbols : List ι :=
  ctx.exportedSymbols ++ ctx.entry :: (ctx.undefined ++ (ctx.requireDefined ++ ctx.cies.flatten))

def Root (n : GcNode σ φ) : Prop :=
  (∃ s ∈ ctx.sections, n = .sec s ∧ shouldKeep ctx.isArm32 (ctx.isec s) = true) ∨
    ∃ i ∈ ctx.rootSymbols, node (ctx.origin i) = some n

/-- A relocation of a section or of one of its exception records refers to the
symbol. -/
def RefersSymbol (s : σ) (i : ι) : Prop :=
  i ∈ (ctx.isec s).rels ∨ ∃ fde ∈ (ctx.isec s).fdes, i ∈ fde.rels

def Refers : GcNode σ φ → GcNode σ φ → Prop
  | .sec s, n => ctx.isLive s = true ∧ ∃ i, ctx.RefersSymbol s i ∧ node (ctx.origin i) = some n
  | .frag _, _ => False

def Reachable (n : GcNode σ φ) : Prop :=
  ∃ r, ctx.Root r ∧ Relation.ReflTransGen ctx.Refers r n

/-- A relocation that `visit` follows refers to the symbol.  It passes over the first one of
an exception record. -/
def FollowsSymbol (s : σ) (i : ι) : Prop :=
  i ∈ (ctx.isec s).rels ∨ ∃ fde ∈ (ctx.isec s).fdes, i ∈ fde.rels.tail

def Follows : GcNode σ φ → GcNode σ φ → Prop
  | .sec s, n => ctx.isLive s = true ∧ ∃ i, ctx.FollowsSymbol s i ∧ node (ctx.origin i) = some n
  | .frag _, _ => False

/-- The node can be reached without the first relocations of exception records. -/
def Followed (n : GcNode σ φ) : Prop :=
  ∃ r, ctx.Root r ∧ Relation.ReflTransGen ctx.Follows r n

/-- If the first relocation of an exception record is resolved to another section than that
of the record, there is another way to that section. -/
def FirstCovered : Prop :=
  ∀ s, ctx.isLive s = true → ctx.Reachable (.sec s) → ∀ fde ∈ (ctx.isec s).fdes,
    ∀ i ∈ fde.rels.head?, ∀ t, ctx.origin i = .isec t → ctx.isLive t = true → t ≠ s →
      ctx.Followed (.sec t)

def Survives (res : GcResult σ φ) : GcOrigin σ φ → Prop
  | .isec s => (ctx.isec s).isAlive = true → res.isAlive s = true
  | .frag f => res.fragIsAlive f = true
  | .other => True

def IsObjectSymbol (i : ι) : Prop := ∃ k, ctx.file i = some (.obj k)

def IsInitFini (i : ι) : Prop :=
  ctx.isDynamic = true ∧ (i = ctx.init ∨ i = ctx.fini) ∧ ctx.IsObjectSymbol i

/-- The entry point, an exported symbol, or a symbol that a section or an exception
record with its CIE refers to. -/
def IsUsed (isKept : σ → Prop) (i : ι) : Prop :=
  i = ctx.entry ∨ i ∈ ctx.exportedSymbols ∨
    ∃ s ∈ ctx.sections, (ctx.isec s).isAlloc = true ∧ isKept s ∧
      (ctx.RefersSymbol s i ∨ ∃ fde ∈ (ctx.isec s).fdes, i ∈ fde.cie)

/-- The result is what can be reached, and it has every address that the output
takes. -/
structure Collected [DecidableEq ι] (res : GcResult σ φ) : Prop where
  sections : ∀ s ∈ ctx.sections, (ctx.isec s).isAlloc = true →
    (res.isAlive s = true ↔ (ctx.isec s).isAlive = true ∧ ctx.Reachable (.sec s))
  fragments : ∀ f, ctx.fragIsAlloc f = true → (res.fragIsAlive f = true ↔ ctx.Reachable (.frag f))
  initFini : ∀ i, ctx.IsInitFini i → ctx.Survives res (ctx.outputOrigin i)
  used : ∀ i, ctx.IsUsed (fun s => res.isAlive s = true) i → ctx.Survives res (ctx.outputOrigin i)

def IsReached : GcOrigin σ φ → Prop
  | .isec s => ctx.isLive s = true → ctx.Reachable (.sec s)
  | .frag f => ctx.fragIsAlloc f = true → ctx.Reachable (.frag f)
  | .other => True

/-- A root symbol or a relocation of a section that can be reached refers to the
fragment. -/
def IsReferredFrag (f : φ) : Prop :=
  (∃ i ∈ ctx.rootSymbols, ctx.origin i = .frag f) ∨
    ∃ s, ctx.isLive s = true ∧ ctx.Reachable (.sec s) ∧
      ∃ i ∈ (ctx.isec s).rels, ctx.origin i = .frag f

/-- Exception records need no sections and fragments of their own, and the functions of the dynamic
section and what used `--defsym` symbols stand for can be reached. -/
structure RootsCover [DecidableEq ι] : Prop where
  first : ctx.FirstCovered
  fdes : ∀ s, ctx.isLive s = true → ctx.Reachable (.sec s) →
    ∀ fde ∈ (ctx.isec s).fdes, ∀ i ∈ fde.rels, ∀ f, ctx.origin i = .frag f →
      ctx.fragIsAlloc f = true → ctx.IsReferredFrag f
  initFini : ∀ i, ctx.IsInitFini i → ctx.IsReached (ctx.outputOrigin i)
  defsyms : ∀ defsym ∈ ctx.defsyms,
    ctx.IsUsed (fun s => ctx.isLive s = true ∧ ctx.Reachable (.sec s)) defsym.sym →
      ctx.IsReached (ctx.outputOrigin defsym.sym)

end GcContext

section Roots

variable {ctx : GcContext σ φ ι} [DecidableEq σ] {st : GcState σ φ ι}

/-- What has been marked for the sections `secs` and the symbols `syms`. -/
structure Collecting (ctx : GcContext σ φ ι) (secs : List σ) (syms : List ι)
    (st : GcState σ φ ι) : Prop where
  visited : ∀ s, st.isVisited s = true ↔ (ctx.isec s).isAlive = true ∧
    ((s ∈ secs ∧ ((ctx.isec s).isAlloc = false ∨
      shouldKeep ctx.isArm32 (ctx.isec s) = true)) ∨ ∃ i ∈ syms, ctx.origin i = .isec s)
  pending : ∀ s, s ∈ st.pending ↔ ctx.isLive s = true ∧
    ((s ∈ secs ∧ shouldKeep ctx.isArm32 (ctx.isec s) = true) ∨ ∃ i ∈ syms, ctx.origin i = .isec s)
  frag : ∀ f, st.fragIsAlive f = true ↔ ctx.fragIsAlloc f = false ∨
    ∃ i ∈ syms, ctx.origin i = .frag f
  workers : st.workers = []

omit [DecidableEq σ] in
theorem collecting_start (ctx : GcContext σ φ ι) : Collecting ctx [] [] ctx.start where
  visited s := by simp [GcContext.start]
  pending s := by simp [GcContext.start]
  frag f := by simp [GcContext.start]
  workers := rfl

theorem enqueueSection_visited (s t : σ) :
    (ctx.enqueueSection st s).isVisited t = true ↔
      st.isVisited t = true ∨ (t = s ∧ (ctx.isec s).isAlive = true) := by
  rw [GcContext.enqueueSection]
  split
  case isTrue hmarks =>
    rw [GcContext.marks, Bool.and_eq_true] at hmarks
    by_cases hts : t = s <;> simp [hts, hmarks.1]
  case isFalse hmarks =>
    rw [GcContext.marks, Bool.and_eq_true, not_and, Bool.not_eq_true', Bool.not_eq_false]
      at hmarks
    refine ⟨.inl, ?_⟩
    rintro (h | ⟨rfl, halive⟩)
    · exact h
    · exact hmarks halive

theorem enqueueSection_pending (s t : σ) :
    t ∈ (ctx.enqueueSection st s).pending ↔ t ∈ st.pending ∨ (t = s ∧ ctx.marks st s = true) := by
  rw [GcContext.enqueueSection]
  split
  case isTrue hmarks => simp [hmarks]
  case isFalse hmarks => simp [hmarks]

theorem enqueueSection_rest (st : GcState σ φ ι) (s : σ) :
    (ctx.enqueueSection st s).fragIsAlive = st.fragIsAlive ∧
      (ctx.enqueueSection st s).workers = st.workers := by
  rw [GcContext.enqueueSection]
  split <;> exact ⟨rfl, rfl⟩

theorem keepSection_visited (s t : σ) :
    (ctx.keepSection st s).isVisited t = true ↔ st.isVisited t = true ∨
      (t = s ∧ (ctx.isec s).isAlive = true ∧ ((ctx.isec s).isAlloc = false ∨
        shouldKeep ctx.isArm32 (ctx.isec s) = true)) := by
  rw [GcContext.keepSection]
  by_cases halive : (ctx.isec s).isAlive = true <;>
    by_cases halloc : (ctx.isec s).isAlloc = true <;>
      by_cases hkeep : shouldKeep ctx.isArm32 (ctx.isec s) = true <;>
        by_cases hts : t = s <;>
          simp [halive, halloc, hkeep, hts, enqueueSection_visited]

theorem keepSection_pending (s t : σ) :
    t ∈ (ctx.keepSection st s).pending ↔ t ∈ st.pending ∨
      (t = s ∧ ctx.isLive s = true ∧ shouldKeep ctx.isArm32 (ctx.isec s) = true ∧
        st.isVisited s = false) := by
  rw [GcContext.keepSection, GcContext.isLive]
  by_cases halive : (ctx.isec s).isAlive = true <;>
    by_cases halloc : (ctx.isec s).isAlloc = true <;>
      by_cases hkeep : shouldKeep ctx.isArm32 (ctx.isec s) = true <;>
        simp [halive, halloc, hkeep, enqueueSection_pending, GcContext.marks]

theorem keepSection_rest (st : GcState σ φ ι) (s : σ) :
    (ctx.keepSection st s).fragIsAlive = st.fragIsAlive ∧
      (ctx.keepSection st s).workers = st.workers := by
  rw [GcContext.keepSection]
  split
  · dsimp only
    split <;> split <;> simp [enqueueSection_rest]
  · exact ⟨rfl, rfl⟩

variable {secs : List σ}

theorem Collecting.keepSection (h : Collecting ctx secs [] st) (s : σ) :
    Collecting ctx (secs ++ [s]) [] (ctx.keepSection st s) where
  visited t := by
    rw [keepSection_visited, h.visited]
    by_cases hts : t = s
    · subst hts
      simp
      tauto
    · simp [hts]
  pending t := by
    rw [keepSection_pending, h.pending]
    by_cases hts : t = s
    · subst hts
      cases hvisited : st.isVisited t with
      | true =>
        have hdone := (h.visited t).mp hvisited
        simp at hdone ⊢
        exact fun _ _ => hdone.2.1
      | false =>
        simp
        tauto
    · simp [hts]
  frag f := by rw [(keepSection_rest st s).1, h.frag]
  workers := by rw [(keepSection_rest st s).2, h.workers]

variable [DecidableEq φ]

theorem Collecting.enqueueSymbol {syms : List ι}
    (h : Collecting ctx secs syms st) (hsecs : ∀ s ∈ ctx.sections, s ∈ secs) (i : ι) :
    Collecting ctx secs (syms ++ [i]) (ctx.enqueueSymbol st i) := by
  cases horigin : ctx.origin i with
  | other =>
    rw [GcContext.enqueueSymbol, horigin]
    exact ⟨fun s => by simp [h.visited, horigin], fun s => by simp [h.pending, horigin],
      fun f => by simp [h.frag, horigin], h.workers⟩
  | frag g =>
    rw [GcContext.enqueueSymbol, horigin]
    refine ⟨fun s => by simp [h.visited, horigin], fun s => by simp [h.pending, horigin],
      fun f => ?_, h.workers⟩
    by_cases hfg : f = g
    · subst hfg
      simp [horigin]
    · have hgf : g ≠ f := Ne.symm hfg
      simp [h.frag, horigin, hfg, hgf]
  | isec s =>
    rw [GcContext.enqueueSymbol, horigin]
    obtain ⟨hfrag, hworkers⟩ := @enqueueSection_rest _ _ _ ctx _ st s
    refine ⟨fun t => ?_, fun t => ?_, fun f => by simp [hfrag, h.frag, horigin],
      hworkers.trans h.workers⟩
    · rw [enqueueSection_visited, h.visited]
      by_cases hts : t = s
      · subst hts
        simp [horigin]
        exact fun halive _ => halive
      · have hst : s ≠ t := Ne.symm hts
        simp [horigin, hts, hst]
    · rw [enqueueSection_pending, h.pending]
      by_cases hts : t = s
      · subst hts
        have hmem := hsecs t (ctx.origin_mem i t horigin)
        have hlive : ctx.isLive t = true ↔
            (ctx.isec t).isAlive = true ∧ (ctx.isec t).isAlloc = true := by
          rw [GcContext.isLive, Bool.and_eq_true]
        cases hvisited : st.isVisited t with
        | true =>
          obtain ⟨-, hdone⟩ := (h.visited t).mp hvisited
          simp [horigin, GcContext.marks, hvisited]
          intro hl
          rcases hdone with ⟨hmem, halloc | hkeep⟩ | hsym
          · rw [(hlive.mp hl).2] at halloc
            cases halloc
          · exact .inl ⟨hmem, hkeep⟩
          · exact .inr hsym
        | false =>
          have halloc : (ctx.isec t).isAlive = true → (ctx.isec t).isAlloc = true := by
            intro halive
            by_contra halloc
            rw [Bool.not_eq_true] at halloc
            rw [(h.visited t).mpr ⟨halive, .inl ⟨hmem, .inl halloc⟩⟩] at hvisited
            cases hvisited
          simp [horigin, GcContext.marks, hvisited, hlive]
          tauto
      · have hst : s ≠ t := Ne.symm hts
        simp [horigin, hts, hst]

def GcContext.MarkedRoot (ctx : GcContext σ φ ι) : GcNode σ φ → Prop
  | .sec s => ctx.isLive s = true ∧
      ((s ∈ ctx.sections ∧ shouldKeep ctx.isArm32 (ctx.isec s) = true) ∨
        ∃ i ∈ ctx.rootSymbols, ctx.origin i = .isec s)
  | .frag f => ctx.fragIsAlloc f = true ∧ ∃ i ∈ ctx.rootSymbols, ctx.origin i = .frag f

theorem Collecting.foldl_enqueueSymbol {syms : List ι}
    (h : Collecting ctx secs syms st) (hsecs : ∀ s ∈ ctx.sections, s ∈ secs) (l : List ι) :
    Collecting ctx secs (syms ++ l) (l.foldl ctx.enqueueSymbol st) := by
  induction l generalizing syms st with
  | nil =>
    rw [List.append_nil]
    exact h
  | cons i l ih =>
    rw [List.append_cons]
    exact ih (h.enqueueSymbol hsecs i)

omit [DecidableEq φ] in
theorem Collecting.foldl_keepSection (h : Collecting ctx secs [] st)
    (l : List σ) : Collecting ctx (secs ++ l) [] (l.foldl ctx.keepSection st) := by
  induction l generalizing secs st with
  | nil =>
    rw [List.append_nil]
    exact h
  | cons s l ih =>
    rw [List.append_cons]
    exact ih (h.keepSection s)

theorem collectRootSet_spec {exported cies : List ι}
    (hsecs : secs.Perm ctx.sections) (hexported : exported.Perm ctx.exportedSymbols)
    (hcies : cies.Perm ctx.cies.flatten) :
    Collecting ctx ctx.sections ctx.rootSymbols (ctx.collectRootSet secs exported cies) := by
  have hall : ∀ s ∈ ctx.sections, s ∈ secs := fun s hs => hsecs.symm.subset hs
  have h := (collecting_start ctx).foldl_keepSection secs
  have h' := ((((h.foldl_enqueueSymbol hall exported).enqueueSymbol hall
    ctx.entry).foldl_enqueueSymbol hall ctx.undefined).foldl_enqueueSymbol hall
    ctx.requireDefined).foldl_enqueueSymbol hall cies
  have hsyms : ∀ i, i ∈ ctx.rootSymbols ↔
      i ∈ [] ++ exported ++ [ctx.entry] ++ ctx.undefined ++ ctx.requireDefined ++ cies := by
    intro i
    simp [GcContext.rootSymbols, hexported.mem_iff, hcies.mem_iff]
  have hmem : ∀ s, s ∈ [] ++ secs ↔ s ∈ ctx.sections := fun s => hsecs.mem_iff
  constructor
  · intro s
    simp only [hsyms, ← hmem]
    exact h'.visited s
  · intro s
    simp only [hsyms, ← hmem]
    exact h'.pending s
  · intro f
    simp only [hsyms]
    exact h'.frag f
  · exact h'.workers

/-- What can be reached over the edges that the workers follow. -/
def GcContext.MarkReachable (ctx : GcContext σ φ ι) (n : GcNode σ φ) : Prop :=
  ∃ r, ctx.MarkedRoot r ∧ Relation.ReflTransGen (fun a b => b ∈ ctx.next a) r n

end Roots

section Marks

variable {ctx : GcContext σ φ ι}

def GcEdge.sym : GcEdge ι → ι
  | .fde i => i
  | .rel i => i

variable {e : GcEdge ι}

theorem target_eq_some_sec {s : σ} :
    ctx.target e = some (.sec s) ↔ ctx.origin e.sym = .isec s ∧ ctx.isLive s = true := by
  have hsame : ∀ t, (ctx.isLive t = true ∧ t = s) ↔ (t = s ∧ ctx.isLive s = true) :=
    fun t => ⟨fun h => ⟨h.2, h.2 ▸ h.1⟩, fun h => ⟨h.1 ▸ h.2, h.1⟩⟩
  cases e with
  | fde i => cases horigin : ctx.origin i <;>
      simp [GcContext.target, GcEdge.sym, horigin, hsame]
  | rel i => cases horigin : ctx.origin i <;>
      simp [GcContext.target, GcEdge.sym, horigin, hsame]

theorem target_eq_some_frag {f : φ} :
    ctx.target e = some (.frag f) ↔
      ctx.fragIsAlloc f = true ∧ ∃ i, e = .rel i ∧ ctx.origin i = .frag f := by
  have hsame : ∀ g, (ctx.fragIsAlloc g = true ∧ g = f) ↔ (ctx.fragIsAlloc f = true ∧ g = f) :=
    fun g => and_congr_left fun h => by rw [h]
  cases e with
  | fde i => cases horigin : ctx.origin i <;> simp [GcContext.target, horigin]
  | rel i => cases horigin : ctx.origin i <;> simp [GcContext.target, horigin, hsame]

variable {n : GcNode σ φ}

theorem mem_next {s : σ} : n ∈ ctx.next (.sec s) ↔ ∃ e ∈ ctx.edges s, ctx.target e = some n := by
  rw [GcContext.next, List.mem_filterMap]

theorem markedRoot_of_marked {st : GcState σ φ ι}
    (h : Collecting ctx ctx.sections ctx.rootSymbols st) (htarget : ctx.target e = some n)
    (hmarked : st.marked n = true) : ctx.MarkedRoot n := by
  cases n with
  | sec s =>
    obtain ⟨horigin, hlive⟩ := target_eq_some_sec.mp htarget
    have halloc := hlive
    rw [GcContext.isLive, Bool.and_eq_true] at halloc
    rcases ((h.visited s).mp hmarked).2 with ⟨hmem, hnot | hkeep⟩ | hsym
    · rw [halloc.2] at hnot
      cases hnot
    · exact ⟨hlive, .inl ⟨hmem, hkeep⟩⟩
    · exact ⟨hlive, .inr hsym⟩
  | frag f =>
    obtain ⟨halloc, -⟩ := target_eq_some_frag.mp htarget
    rcases (h.frag f).mp hmarked with hnot | hsym
    · rw [halloc] at hnot
      cases hnot
    · exact ⟨halloc, hsym⟩

def rootNodes (ctx : GcContext σ φ ι) (st : GcState σ φ ι) : List (GcNode σ φ) :=
  st.pending.map .sec ++ ctx.rootSymbols.filterMap fun i =>
    match ctx.origin i with
    | .frag f => if ctx.fragIsAlloc f then some (.frag f) else none
    | _ => none

theorem mem_rootNodes {st : GcState σ φ ι} (h : Collecting ctx ctx.sections ctx.rootSymbols st) :
    n ∈ rootNodes ctx st ↔ ctx.MarkedRoot n := by
  rw [rootNodes, List.mem_append, List.mem_map, List.mem_filterMap]
  cases n with
  | sec s =>
    have hfrag : ¬ ∃ i ∈ ctx.rootSymbols, (match ctx.origin i with
        | .frag f => if ctx.fragIsAlloc f then some (.frag f) else none
        | _ => (none : Option (GcNode σ φ))) = some (.sec s) := by
      rintro ⟨i, -, hi⟩
      cases horigin : ctx.origin i <;> simp [horigin] at hi
    rw [or_iff_left hfrag, GcContext.MarkedRoot, ← h.pending s]
    simp
  | frag f =>
    simp only [reduceCtorEq, and_false, exists_false, false_or, GcContext.MarkedRoot]
    constructor
    · rintro ⟨i, hi, hf⟩
      cases horigin : ctx.origin i with
      | frag g =>
        rw [horigin] at hf
        obtain ⟨halloc, hfg⟩ := Option.ite_none_right_eq_some.mp hf
        obtain rfl := GcNode.frag.inj (Option.some.inj hfg)
        exact ⟨halloc, i, hi, horigin⟩
      | isec s => simp [horigin] at hf
      | other => simp [horigin] at hf
    · rintro ⟨halloc, i, hi, horigin⟩
      exact ⟨i, hi, by simp [horigin, halloc]⟩

variable [DecidableEq σ] [DecidableEq φ]

theorem marked_of_collecting {st₀ st : GcState σ φ ι}
    (h : Collecting ctx ctx.sections ctx.rootSymbols st₀)
    (hreaches : Relation.ReflTransGen ctx.Step st₀ st) (hfinished : st.Finished)
    (n : GcNode σ φ) :
    st.marked n = true ↔ st₀.marked n = true ∨ ctx.MarkReachable n := by
  have hsettled : GcState.Settled ctx st₀.marked :=
    ⟨fun s hs halive halloc => (h.visited s).mpr ⟨halive, .inl ⟨hs, .inl halloc⟩⟩,
      fun f halloc => (h.frag f).mpr (.inl halloc)⟩
  have hstart : Marking.Explored ctx.next st₀.marked (rootNodes ctx st₀)
      ⟨st₀.marked, st₀.tasks ctx⟩ := by
    refine Marking.explored_start.congr fun b => ?_
    rw [waits_tasks, h.workers]
    simp only [List.not_mem_nil, false_and, exists_false, or_false, Marking.Waits,
      List.mem_map, exists_exists_and_eq_and]
    constructor
    · rintro ⟨s, hs, hb⟩
      exact ⟨.sec s, (mem_rootNodes h).mpr ((h.pending s).mp hs), hb⟩
    · rintro ⟨r, hr, hb⟩
      cases r with
      | sec s => exact ⟨s, (h.pending s).mpr ((mem_rootNodes h).mp hr), hb⟩
      | frag f => exact absurd hb List.not_mem_nil
  have hexplored := explored_of_reaches_gc hsettled hstart hreaches
  have hidle : ∀ b, ¬ Marking.Waits (st.tasks ctx) b := by
    intro b hb
    rw [waits_tasks, hfinished.1] at hb
    rcases hb with ⟨s, hs, -⟩ | ⟨frames, hframes, frame, hframe, -⟩
    · exact List.not_mem_nil hs
    · rw [hfinished.2 frames hframes] at hframe
      exact List.not_mem_nil hframe
  refine (hexplored.marked_iff hidle ?_ ?_ n).trans (or_congr Iff.rfl ?_)
  · intro a b hb hmarked
    cases a with
    | sec s =>
      obtain ⟨e, -, htarget⟩ := mem_next.mp hb
      exact (mem_rootNodes h).mpr (markedRoot_of_marked h htarget hmarked)
    | frag f => exact absurd hb List.not_mem_nil
  · intro r hr
    have hroot := (mem_rootNodes h).mp hr
    cases r with
    | sec s =>
      obtain ⟨hlive, hcause⟩ := hroot
      rw [GcContext.isLive, Bool.and_eq_true] at hlive
      exact (h.visited s).mpr ⟨hlive.1, hcause.imp_left fun hs => ⟨hs.1, .inr hs.2⟩⟩
    | frag f => exact (h.frag f).mpr (.inr hroot.2)
  · simp only [mem_rootNodes h]
    rfl

structure Swept (ctx : GcContext σ φ ι) (res : GcResult σ φ) : Prop where
  live : ∀ s ∈ ctx.sections, ctx.isLive s = true →
    (res.isAlive s = true ↔ ctx.MarkReachable (.sec s))
  kept : ∀ s ∈ ctx.sections, (ctx.isec s).isAlloc = false → res.isAlive s = (ctx.isec s).isAlive
  dead : ∀ s, (ctx.isec s).isAlive = false → res.isAlive s = false
  frag : ∀ f, res.fragIsAlive f = true ↔ ctx.fragIsAlloc f = false ∨ ctx.MarkReachable (.frag f)

omit [DecidableEq σ] [DecidableEq φ] in
theorem markReachable_of_root (h : ctx.MarkedRoot n) : ctx.MarkReachable n := ⟨n, h, .refl⟩

theorem swept_of_run {res : GcResult σ φ} (h : ctx.Run res) : Swept ctx res := by
  obtain ⟨secs, exported, cies, st, hsecs, hexported, hcies, hreaches, hfinished, rfl⟩ := h
  have hroots := collectRootSet_spec hsecs hexported hcies
  have hmarked := marked_of_collecting hroots hreaches hfinished
  constructor
  · intro s hs hlive
    have halive := hlive
    rw [GcContext.isLive, Bool.and_eq_true] at halive
    have hsec := hmarked (.sec s)
    simp only [GcContext.sweep, halive.1, Bool.true_and]
    refine hsec.trans (or_iff_right_of_imp fun hbefore => ?_)
    rcases ((hroots.visited s).mp hbefore).2 with ⟨hmem, hnot | hkeep⟩ | hsym
    · rw [halive.2] at hnot
      cases hnot
    · exact markReachable_of_root ⟨hlive, .inl ⟨hmem, hkeep⟩⟩
    · exact markReachable_of_root ⟨hlive, .inr hsym⟩
  · intro s hs halloc
    cases halive : (ctx.isec s).isAlive with
    | false => simp [GcContext.sweep, halive]
    | true =>
      have hvisited : st.isVisited s = true := (hmarked (.sec s)).mpr
        (.inl ((hroots.visited s).mpr ⟨halive, .inl ⟨hs, .inl halloc⟩⟩))
      simp [GcContext.sweep, halive, hvisited]
  · intro s halive
    simp [GcContext.sweep, halive]
  · intro f
    refine (hmarked (.frag f)).trans ?_
    constructor
    · rintro (hbefore | hreach)
      · rcases (hroots.frag f).mp hbefore with hnot | hsym
        · exact .inl hnot
        · cases halloc : ctx.fragIsAlloc f with
          | false => exact .inl rfl
          | true => exact .inr (markReachable_of_root ⟨halloc, hsym⟩)
      · exact .inr hreach
    · rintro (hnot | hreach)
      · exact .inl ((hroots.frag f).mpr (.inl hnot))
      · exact .inr hreach

end Marks

end Mold.Elf
