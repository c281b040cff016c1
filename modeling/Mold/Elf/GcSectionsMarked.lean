import Mold.Elf.GcSections
import Mold.Lib.ParallelMarking
import Mathlib.Data.Prod.Lex

/-!
# What garbage collection marks

The steps of the workers are steps of marking in parallel, where a node is a section
or a fragment.  So in the end those nodes are marked that can be reached from the
roots.
-/

namespace Mold.Elf

open Lib

variable {σ φ ι : Type*}

/-! ## Nodes -/

inductive GcNode (σ φ : Type*) where
  | sec (s : σ)
  | frag (f : φ)
deriving DecidableEq, Repr

namespace GcContext

variable (ctx : GcContext σ φ ι)

def isLive (s : σ) : Bool := (ctx.isec s).isAlive && (ctx.isec s).isAlloc

def target : GcEdge ι → Option (GcNode σ φ)
  | .fde i =>
    match ctx.origin i with
    | .isec s => if ctx.isLive s then some (.sec s) else none
    | _ => none
  | .rel i =>
    match ctx.origin i with
    | .isec s => if ctx.isLive s then some (.sec s) else none
    | .frag f => if ctx.fragIsAlloc f then some (.frag f) else none
    | .other => none

def next : GcNode σ φ → List (GcNode σ φ)
  | .sec s => (ctx.edges s).filterMap ctx.target
  | .frag _ => []

end GcContext

namespace GcState

def marked (st : GcState σ φ ι) : GcNode σ φ → Bool
  | .sec s => st.isVisited s
  | .frag f => st.fragIsAlive f

def tasks (ctx : GcContext σ φ ι) (st : GcState σ φ ι) : List (List (GcNode σ φ)) :=
  st.pending.map (fun s => ctx.next (.sec s)) ++ st.workers.flatten.map (List.filterMap ctx.target)

end GcState

section Steps

variable {ctx : GcContext σ φ ι} {st st' : GcState σ φ ι} {n : GcNode σ φ}

theorem waits_tasks :
    Marking.Waits (st.tasks ctx) n ↔
      (∃ s ∈ st.pending, n ∈ ctx.next (.sec s)) ∨
        ∃ frames ∈ st.workers, ∃ frame ∈ frames, n ∈ frame.filterMap ctx.target := by
  simp only [Marking.Waits, GcState.tasks, List.mem_append, or_and_right, exists_or,
    List.mem_map, List.mem_flatten, exists_exists_and_eq_and]
  refine or_congr Iff.rfl ⟨?_, ?_⟩
  · rintro ⟨frame, ⟨frames, hframes, hframe⟩, hn⟩
    exact ⟨frames, hframes, frame, hframe, hn⟩
  · rintro ⟨frames, hframes, frame, hframe, hn⟩
    exact ⟨frame, ⟨frames, hframes, hframe⟩, hn⟩

theorem waits_nil_cons {tasks : List (List (GcNode σ φ))} :
    Marking.Waits ([] :: tasks) n ↔ Marking.Waits tasks n := by
  simp [Marking.Waits]

structure GcState.Settled (ctx : GcContext σ φ ι) (marked : GcNode σ φ → Bool) : Prop where
  sec : ∀ s ∈ ctx.sections, (ctx.isec s).isAlive = true → (ctx.isec s).isAlloc = false →
    marked (.sec s) = true
  frag : ∀ f, ctx.fragIsAlloc f = false → marked (.frag f) = true

variable [DecidableEq σ] [DecidableEq φ]

theorem enqueueSection_spec {s : σ} (hlive : ctx.isLive s = true) :
    (ctx.enqueueSection st s).marked = (Marking.visit ctx.next st.marked (.sec s)).1 ∧
    ∀ n, (∃ t ∈ (ctx.enqueueSection st s).pending, n ∈ ctx.next (.sec t)) ↔
      (∃ t ∈ st.pending, n ∈ ctx.next (.sec t)) ∨
        (st.marked (.sec s) = false ∧ n ∈ ctx.next (.sec s)) := by
  rw [GcContext.isLive, Bool.and_eq_true] at hlive
  cases hvisited : st.isVisited s with
  | true =>
    have hmarked : st.marked (.sec s) = true := hvisited
    rw [GcContext.enqueueSection, GcContext.marks, hvisited, Bool.not_true, Bool.and_false,
      if_neg Bool.false_ne_true, Marking.visit, if_pos hmarked, hmarked]
    simp
  | false =>
    have hmarked : st.marked (.sec s) = false := hvisited
    rw [GcContext.enqueueSection, GcContext.marks, hvisited, hlive.1, Bool.not_false,
      Bool.and_true, if_pos rfl, Marking.visit, if_neg (by simp [hmarked]), hmarked]
    refine ⟨?_, fun n => ?_⟩
    · funext n
      cases n with
      | sec t => by_cases hst : t = s <;> simp [GcState.marked, Function.update, hst]
      | frag f => simp [GcState.marked, Function.update]
    · simp [or_and_right, exists_or]

omit [DecidableEq φ] in
theorem enqueueSection_of_not_live {s : σ} (hsettled : GcState.Settled ctx st.marked)
    (hmem : s ∈ ctx.sections) (hlive : ctx.isLive s = false) :
    ctx.enqueueSection st s = st := by
  have hmarks : ctx.marks st s = false := by
    rw [GcContext.marks]
    cases halive : (ctx.isec s).isAlive with
    | false => rfl
    | true =>
      rw [GcContext.isLive, halive, Bool.true_and] at hlive
      have hvisited : st.isVisited s = true := hsettled.sec s hmem halive hlive
      rw [hvisited]
      rfl
  rw [GcContext.enqueueSection, hmarks]
  rfl

theorem update_marked_sec (st : GcState σ φ ι) (s : σ) :
    GcState.marked { st with isVisited := Function.update st.isVisited s true } =
      Function.update st.marked (.sec s) true := by
  funext n
  cases n with
  | sec t => by_cases hst : t = s <;> simp [GcState.marked, Function.update, hst]
  | frag f => simp [GcState.marked, Function.update]

theorem update_marked_frag (st : GcState σ φ ι) (f : φ) :
    GcState.marked { st with fragIsAlive := Function.update st.fragIsAlive f true } =
      Function.update st.marked (.frag f) true := by
  funext n
  cases n with
  | sec t => simp [GcState.marked, Function.update]
  | frag g => by_cases hfg : g = f <;> simp [GcState.marked, Function.update, hfg]

theorem follow_sec_spec {i : ι} {s : σ} (horigin : ctx.origin i = .isec s)
    (hlive : ctx.isLive s = true) (depth : ℕ) :
    (ctx.follow st depth (.rel i)).1.marked = (Marking.visit ctx.next st.marked (.sec s)).1 ∧
    ∀ n, ((∃ t ∈ (ctx.follow st depth (.rel i)).1.pending, n ∈ ctx.next (.sec t)) ∨
        ∃ frame ∈ (ctx.follow st depth (.rel i)).2, n ∈ frame.filterMap ctx.target) ↔
      (∃ t ∈ st.pending, n ∈ ctx.next (.sec t)) ∨
        (st.marked (.sec s) = false ∧ n ∈ ctx.next (.sec s)) := by
  rw [GcContext.follow, horigin]
  dsimp only
  split
  case isTrue hpush =>
    rw [Bool.and_eq_true, GcContext.marks, Bool.and_eq_true, Bool.not_eq_true'] at hpush
    have hmarked : st.marked (.sec s) = false := hpush.1.2
    rw [update_marked_sec, Marking.visit, if_neg (by simp [hmarked]), hmarked]
    exact ⟨rfl, fun n => by simp [GcContext.next]⟩
  case isFalse =>
    obtain ⟨hmarked, hpending⟩ := @enqueueSection_spec _ _ _ ctx st _ _ _ hlive
    refine ⟨hmarked, fun n => ?_⟩
    rw [← hpending n]
    simp

theorem follow_of_target {e : GcEdge ι} (htarget : ctx.target e = some n) (depth : ℕ) :
    (ctx.follow st depth e).1.marked = (Marking.visit ctx.next st.marked n).1 ∧
    ∀ b, ((∃ t ∈ (ctx.follow st depth e).1.pending, b ∈ ctx.next (.sec t)) ∨
        ∃ frame ∈ (ctx.follow st depth e).2, b ∈ frame.filterMap ctx.target) ↔
      (∃ t ∈ st.pending, b ∈ ctx.next (.sec t)) ∨ (st.marked n = false ∧ b ∈ ctx.next n) := by
  cases e with
  | fde i =>
    cases horigin : ctx.origin i with
    | isec s =>
      rw [GcContext.target, horigin] at htarget
      obtain ⟨hlive, hn⟩ := Option.ite_none_right_eq_some.mp htarget
      obtain rfl := Option.some.inj hn
      obtain ⟨hmarked, hpending⟩ := @enqueueSection_spec _ _ _ ctx st _ _ _ hlive
      rw [GcContext.follow, horigin]
      refine ⟨hmarked, fun b => ?_⟩
      rw [← hpending b]
      simp
    | frag f => simp [GcContext.target, horigin] at htarget
    | other => simp [GcContext.target, horigin] at htarget
  | rel i =>
    cases horigin : ctx.origin i with
    | isec s =>
      rw [GcContext.target, horigin] at htarget
      obtain ⟨hlive, hn⟩ := Option.ite_none_right_eq_some.mp htarget
      obtain rfl := Option.some.inj hn
      exact follow_sec_spec horigin hlive depth
    | frag f =>
      rw [GcContext.target, horigin] at htarget
      obtain ⟨-, hn⟩ := Option.ite_none_right_eq_some.mp htarget
      obtain rfl := Option.some.inj hn
      rw [GcContext.follow, horigin]
      refine ⟨?_, fun b => by simp [GcContext.next]⟩
      rw [update_marked_frag, Marking.visit]
      split
      case isTrue hmarked => exact Function.update_eq_self_iff.mpr hmarked.symm
      case isFalse => rfl
    | other => simp [GcContext.target, horigin] at htarget

theorem follow_of_target_eq_none {e : GcEdge ι} (hsettled : GcState.Settled ctx st.marked)
    (htarget : ctx.target e = none) (depth : ℕ) :
    ctx.follow st depth e = (st, []) := by
  have hsec : ∀ i s, ctx.origin i = .isec s →
      (if ctx.isLive s then some (GcNode.sec s) else none : Option (GcNode σ φ)) = none →
      ctx.enqueueSection st s = st ∧ ctx.marks st s = false := by
    intro i s horigin hnone
    have hlive : ctx.isLive s = false := by
      by_contra hlive
      rw [Bool.not_eq_false] at hlive
      rw [hlive] at hnone
      cases hnone
    have hsame := enqueueSection_of_not_live hsettled (ctx.origin_mem i s horigin) hlive
    refine ⟨hsame, ?_⟩
    by_contra hmarks
    rw [Bool.not_eq_false] at hmarks
    rw [GcContext.enqueueSection, if_pos hmarks] at hsame
    have hlength := congrArg (fun st => st.pending.length) hsame
    simp at hlength
  cases e with
  | fde i =>
    cases horigin : ctx.origin i with
    | isec s =>
      rw [GcContext.target, horigin] at htarget
      rw [GcContext.follow, horigin]
      dsimp only
      rw [(hsec i s horigin htarget).1]
    | frag f => rw [GcContext.follow, horigin]
    | other => rw [GcContext.follow, horigin]
  | rel i =>
    cases horigin : ctx.origin i with
    | isec s =>
      rw [GcContext.target, horigin] at htarget
      obtain ⟨hsame, hmarks⟩ := hsec i s horigin htarget
      rw [GcContext.follow, horigin]
      dsimp only
      rw [hmarks, hsame]
      rfl
    | frag f =>
      rw [GcContext.target, horigin] at htarget
      have halloc : ctx.fragIsAlloc f = false := by
        by_contra halloc
        rw [Bool.not_eq_false] at halloc
        simp [halloc] at htarget
      have halive : Function.update st.fragIsAlive f true = st.fragIsAlive :=
        Function.update_eq_self_iff.mpr (hsettled.frag f halloc).symm
      rw [GcContext.follow, horigin]
      dsimp only
      rw [halive]
    | other => rw [GcContext.follow, horigin]

theorem exists_mem_append_cons {α : Type*} {P : α → Prop} {front back : List α} {a : α} :
    (∃ x ∈ front ++ a :: back, P x) ↔ P a ∨ ∃ x ∈ front ++ back, P x := by
  rw [← List.exists_mem_cons_iff]
  exact exists_congr fun x => and_congr_left fun _ => List.perm_middle.mem_iff

theorem explored_step {marked : GcNode σ φ → Bool} {roots : List (GcNode σ φ)}
    (hsettled : GcState.Settled ctx marked)
    (h : Marking.Explored ctx.next marked roots ⟨st.marked, st.tasks ctx⟩)
    (hstep : ctx.Step st st') :
    Marking.Explored ctx.next marked roots ⟨st'.marked, st'.tasks ctx⟩ := by
  have hnow : GcState.Settled ctx st.marked :=
    ⟨fun s hs halive halloc => h.mono _ (hsettled.sec s hs halive halloc),
      fun f halloc => h.mono _ (hsettled.frag f halloc)⟩
  cases hstep with
  | begin front back s hpending =>
    refine h.congr fun n => ?_
    rw [waits_tasks, waits_tasks, hpending, exists_mem_append_cons, exists_mem_append_cons,
      List.exists_mem_cons_iff, List.append_nil]
    simp only [List.not_mem_nil, false_and, exists_false, or_false]
    rw [or_left_comm, or_assoc]
    rfl
  | done front back frames hworkers =>
    refine h.congr fun n => ?_
    rw [waits_tasks, waits_tasks, hworkers, exists_mem_append_cons, exists_mem_append_cons,
      List.exists_mem_cons_iff]
    simp only [List.filterMap_nil, List.not_mem_nil, false_or]
  | follow front back e es frames hworkers =>
    cases htarget : ctx.target e with
    | none =>
      have hfollow := follow_of_target_eq_none hnow htarget frames.length
      rw [hfollow]
      refine h.congr fun n => ?_
      rw [waits_tasks, waits_tasks, hworkers, exists_mem_append_cons,
        exists_mem_append_cons, exists_mem_append_cons, List.exists_mem_cons_iff,
        List.filterMap_cons_none htarget]
      rfl
    | some n =>
      obtain ⟨hmarked, hwaits⟩ := @follow_of_target _ _ _ ctx st _ _ _ _ htarget frames.length
      have hrest : ∀ b, Marking.Waits (GcState.tasks ctx
          { st with workers := front ++ (es :: frames) :: back }) b ↔
          (∃ t ∈ st.pending, b ∈ ctx.next (.sec t)) ∨
            ∃ stack ∈ front ++ (es :: frames) :: back, ∃ frame ∈ stack,
              b ∈ frame.filterMap ctx.target := fun b => waits_tasks
      have hsplit : ∀ b, Marking.Waits ([] ++ (n :: []) :: GcState.tasks ctx
          { st with workers := front ++ (es :: frames) :: back }) b ↔
          Marking.Waits (st.tasks ctx) b := by
        intro b
        rw [Marking.waits_cons, List.nil_append, waits_nil_cons, hrest, waits_tasks,
          hworkers, exists_mem_append_cons, exists_mem_append_cons,
          List.exists_mem_cons_iff, List.exists_mem_cons_iff,
          List.filterMap_cons_some htarget, List.mem_cons]
        rw [or_assoc, or_assoc, or_assoc, or_left_comm]
      have htake := (h.congr hsplit).step (Marking.Step.take _ _ _ _ _)
      rw [← hmarked] at htake
      refine htake.congr fun b => ?_
      have hframes : ∀ new : List (List (GcEdge ι)),
          (∃ frame ∈ new ++ frames, b ∈ frame.filterMap ctx.target) ↔
            (∃ frame ∈ new, b ∈ frame.filterMap ctx.target) ∨
              ∃ frame ∈ frames, b ∈ frame.filterMap ctx.target := fun new => by
        simp only [List.mem_append, or_and_right, exists_or]
      rw [Marking.waits_visit, List.nil_append, waits_nil_cons, hrest, waits_tasks,
        exists_mem_append_cons, exists_mem_append_cons, exists_mem_append_cons, hframes,
        List.exists_mem_cons_iff, @or_right_comm (∃ t ∈ st.pending, b ∈ ctx.next (.sec t)),
        ← hwaits b, @or_left_comm (b ∈ es.filterMap ctx.target),
        @or_assoc (∃ frame ∈ _, b ∈ List.filterMap ctx.target frame)]
      exact or_assoc.symm

theorem explored_of_reaches_gc {marked : GcNode σ φ → Bool} {roots : List (GcNode σ φ)}
    (hsettled : GcState.Settled ctx marked)
    (h : Marking.Explored ctx.next marked roots ⟨st.marked, st.tasks ctx⟩)
    (hreaches : Relation.ReflTransGen ctx.Step st st') :
    Marking.Explored ctx.next marked roots ⟨st'.marked, st'.tasks ctx⟩ := by
  induction hreaches with
  | refl => exact h
  | tail _ hstep ih => exact explored_step hsettled ih hstep

def GcState.size (ctx : GcContext σ φ ι) (st : GcState σ φ ι) : ℕ × ℕ :=
  ((ctx.sections.toFinset.filter fun s => st.isVisited s = false).card,
    (st.pending.map fun s => (ctx.edges s).length + 2).sum +
      (st.workers.map fun frames => (frames.map fun frame => frame.length + 1).sum).sum)

theorem follow_cases (e : GcEdge ι) (depth : ℕ) :
    (∃ s ∈ ctx.sections, st.isVisited s = false ∧
      (ctx.follow st depth e).1.isVisited = Function.update st.isVisited s true) ∨
    ((ctx.follow st depth e).1.isVisited = st.isVisited ∧
      (ctx.follow st depth e).1.pending = st.pending ∧ (ctx.follow st depth e).2 = []) := by
  have henqueue : ∀ s, (st.isVisited s = false ∧
      (ctx.enqueueSection st s).isVisited = Function.update st.isVisited s true) ∨
      ((ctx.enqueueSection st s).isVisited = st.isVisited ∧
        (ctx.enqueueSection st s).pending = st.pending) := by
    intro s
    rw [GcContext.enqueueSection]
    split
    case isTrue hmarks =>
      rw [GcContext.marks, Bool.and_eq_true, Bool.not_eq_true'] at hmarks
      exact .inl ⟨hmarks.2, rfl⟩
    case isFalse => exact .inr ⟨rfl, rfl⟩
  cases e with
  | fde i =>
    cases horigin : ctx.origin i with
    | isec s =>
      rw [GcContext.follow, horigin]
      rcases henqueue s with hnew | hsame
      · exact .inl ⟨s, ctx.origin_mem i s horigin, hnew⟩
      · exact .inr ⟨hsame.1, hsame.2, rfl⟩
    | frag f => rw [GcContext.follow, horigin]; exact .inr ⟨rfl, rfl, rfl⟩
    | other => rw [GcContext.follow, horigin]; exact .inr ⟨rfl, rfl, rfl⟩
  | rel i =>
    cases horigin : ctx.origin i with
    | isec s =>
      rw [GcContext.follow, horigin]
      dsimp only
      split
      case isTrue hpush =>
        rw [Bool.and_eq_true, GcContext.marks, Bool.and_eq_true, Bool.not_eq_true'] at hpush
        exact .inl ⟨s, ctx.origin_mem i s horigin, hpush.1.2, rfl⟩
      case isFalse =>
        rcases henqueue s with hnew | hsame
        · exact .inl ⟨s, ctx.origin_mem i s horigin, hnew⟩
        · exact .inr ⟨hsame.1, hsame.2, rfl⟩
    | frag f => rw [GcContext.follow, horigin]; exact .inr ⟨rfl, rfl, rfl⟩
    | other => rw [GcContext.follow, horigin]; exact .inr ⟨rfl, rfl, rfl⟩

theorem size_gcStep (hstep : ctx.Step st st') :
    Prod.Lex (· < ·) (· < ·) (st'.size ctx) (st.size ctx) := by
  cases hstep with
  | begin front back s hpending =>
    apply Prod.Lex.right
    simp [hpending]
    omega
  | done front back frames hworkers =>
    apply Prod.Lex.right
    simp [hworkers]
  | follow front back e es frames hworkers =>
    rcases @follow_cases _ _ _ ctx st _ _ e frames.length with
      ⟨s, hmem, hfresh, hvisited⟩ | ⟨hvisited, hpending, hframes⟩
    · apply Prod.Lex.left
      apply Finset.card_lt_card
      apply (Finset.ssubset_iff_of_subset ?_).mpr
      · refine ⟨s, Finset.mem_filter.mpr ⟨List.mem_toFinset.mpr hmem, hfresh⟩, ?_⟩
        simp [hvisited]
      · intro t ht
        obtain ⟨hmem, ht⟩ := Finset.mem_filter.mp ht
        refine Finset.mem_filter.mpr ⟨hmem, ?_⟩
        by_cases hts : t = s
        · rw [hts]
          exact hfresh
        · simpa [hvisited, hts] using ht
    · simp only [GcState.size, hvisited]
      apply Prod.Lex.right
      simp [hpending, hframes, hworkers]

theorem acc_gcStep (st : GcState σ φ ι) : Acc (fun st' st => ctx.Step st st') st := by
  have hwf : WellFounded (Prod.Lex (· < ·) (· < ·) : ℕ × ℕ → ℕ × ℕ → Prop) :=
    WellFounded.prod_lex wellFounded_lt wellFounded_lt
  induction hsize : st.size ctx using hwf.induction generalizing st with
  | _ n ih =>
    constructor
    intro st' hstep
    exact ih _ (hsize ▸ size_gcStep hstep) _ rfl

theorem exists_gcFinished (ctx : GcContext σ φ ι) (st : GcState σ φ ι) :
    ∃ st', Relation.ReflTransGen ctx.Step st st' ∧ st'.Finished := by
  induction @acc_gcStep _ _ _ ctx _ _ st with
  | intro st _ ih =>
    have hgo : ∀ st', ctx.Step st st' →
        ∃ st'', Relation.ReflTransGen ctx.Step st st'' ∧ st''.Finished := by
      intro st' hstep
      obtain ⟨st'', hreach, hfinished⟩ := ih st' hstep
      exact ⟨st'', hreach.head hstep, hfinished⟩
    cases hpending : st.pending with
    | cons s back => exact hgo _ (.begin st [] back s hpending)
    | nil =>
      by_cases hidle : ∀ frames ∈ st.workers, frames = []
      · exact ⟨st, .refl, hpending, hidle⟩
      · push Not at hidle
        obtain ⟨stack, hstack, hne⟩ := hidle
        obtain ⟨front, back, hworkers⟩ := List.append_of_mem hstack
        obtain ⟨frame, frames, rfl⟩ := List.exists_cons_of_ne_nil hne
        cases frame with
        | nil => exact hgo _ (.done st front back frames hworkers)
        | cons e es => exact hgo _ (.follow st front back e es frames hworkers)

end Steps

end Mold.Elf
