import Mold.Lib.DepthFirst
import Mold.Lib.Loop
import Mold.MachO.Symbol
import Mathlib.Order.Bounds.Basic

/-!
# Dead stripping

`collectRootSet`, `visit`, `mark` and `sweep` are the functions of
`dead-strip.cc`.  Every subsection is dead at first, and a set of live
subsections stands for the `is_alive` flags.  The roots and the files of every
marking round are visited in the order that a `Schedule` gives, since the loops
over them run in parallel.

`Context.Closed` says declaratively what the live subsections have to contain.
The main theorem is that dead stripping ends, whatever the schedule is, and
that it leaves exactly the least closed set alive.
-/

namespace Mold.MachO.DeadStrip

open Mold.Lib

variable {τ σ : Type*}

/-- The output types `MH_EXECUTE`, `MH_DYLIB` and `MH_BUNDLE`. -/
inductive OutputType where
  | execute
  | dylib
  | bundle
  deriving DecidableEq, Repr

structure Subsection (τ σ : Type*) where
  hdr : SectionHeader
  rels : List (RelocTarget τ σ)
  unwindRecords : List (UnwindRecord τ σ)

/-- What dead stripping reads of an object file; `cies` are the personality
symbols of its CIE records. -/
structure Object (τ σ : Type*) where
  file : FileRef
  syms : List τ
  initFunctions : List τ
  subsections : List σ
  cies : List (Option τ)

structure Context (τ σ : Type*) where
  outputType : OutputType
  u : List τ
  entry : Option τ
  stubHelper : Bool
  dyldStubBinder : τ
  sym : τ → Symbol σ
  subsec : σ → Subsection τ σ
  objs : List (Object τ σ)

namespace Context

variable (ctx : Context τ σ)

/-- The subsection of a symbol, as the list that `add` appends. -/
def add (sym : Option τ) : List σ :=
  (sym.bind fun s => (ctx.sym s).subsec).toList

/-- Is a defined symbol kept because of its visibility or its flags? -/
def keep (sym : τ) : Bool :=
  if (ctx.sym sym).noDeadStrip then
    true
  else if ctx.outputType == .dylib || ctx.outputType == .bundle then
    (ctx.sym sym).visibility == .scopeGlobal
  else
    false

def isRootSubsection (s : σ) : Bool :=
  let hdr := (ctx.subsec s).hdr
  hdr.isNoDeadStrip || hdr.type == SectionHeader.modInitFuncPointers ||
    hdr.type == SectionHeader.modTermFuncPointers

def fileRoots (file : Object τ σ) : List σ :=
  (file.syms.filter fun s =>
      (ctx.sym s).file == some file.file && ctx.keep s).flatMap
    (fun s => ctx.add (some s)) ++
  file.initFunctions.flatMap (fun s => ctx.add (some s)) ++
  file.subsections.filter ctx.isRootSubsection ++
  file.cies.flatMap ctx.add

def collectRootSet : List σ :=
  ctx.objs.flatMap ctx.fileRoots ++
  (ctx.u.filter fun s => (ctx.sym s).file.isSome).flatMap (fun s => ctx.add (some s)) ++
  ctx.add ctx.entry ++
  (if ctx.stubHelper then ctx.add (some ctx.dyldStubBinder) else [])

/-! ## Marking -/

def relTarget (rel : RelocTarget τ σ) : Option σ :=
  rel.subsec? fun s => (ctx.sym s).subsec

/-- The subsections that an unwind record leads to, in the order in which they
are visited. -/
def unwindTargets (rec : UnwindRecord τ σ) : List σ :=
  rec.subsec.toList ++ rec.lsda.toList ++
  (rec.personality.bind fun s => (ctx.sym s).subsec).toList ++
  match rec.fde with
  | none => []
  | some fde => fde.subsec.toList ++ fde.lsda.toList

/-- The subsections that `visit` goes on to from `s`. -/
def targets (s : σ) : List σ :=
  (ctx.subsec s).rels.filterMap ctx.relTarget ++
  (ctx.subsec s).unwindRecords.flatMap ctx.unwindTargets

section Marking

variable [DecidableEq σ]

def visit (fuel : ℕ) (live : Finset σ) (s : σ) : Option (Finset σ) :=
  Lib.visit ctx.targets fuel live s

def refersToLiveSubsection (live : Finset σ) (s : σ) : Bool :=
  (ctx.subsec s).rels.any fun rel =>
    match ctx.relTarget rel with
    | none => false
    | some t => decide (t ∈ live)

/-- The body of the loop over the subsections of a file in a marking round.
The state is the set of live subsections and the flag `repeat`. -/
def markSupport (fuel : ℕ) (state : Finset σ × Bool) (s : σ) : Option (Finset σ × Bool) :=
  if (ctx.subsec s).hdr.isLiveSupport && !decide (s ∈ state.1) &&
      ctx.refersToLiveSubsection state.1 s then
    (ctx.visit fuel state.1 s).map fun live => (live, true)
  else
    some state

/-- One round of the `do` loop of `mark` over the given files. -/
def markRound (fuel : ℕ) (files : List (Object τ σ)) (live : Finset σ) :
    Option (Finset σ × Bool) :=
  (files.flatMap Object.subsections).foldlM (ctx.markSupport fuel) (live, false)

end Marking

end Context

/-- The order in which the parallel loops visit the roots, and the files in
every round. -/
structure Schedule (ctx : Context τ σ) where
  roots : List σ
  round : ℕ → List (Object τ σ)
  roots_perm : roots.Perm ctx.collectRootSet
  round_perm : ∀ k, (round k).Perm ctx.objs

/-- The state after dead stripping: the live subsections, and for every object
file its symbols, null where stripped, and its subsections. -/
structure Result (τ σ : Type*) where
  live : Finset σ
  objs : List (List (Option τ) × List σ)

namespace Context

variable [DecidableEq σ] (ctx : Context τ σ)

def mark (fuel : ℕ) (sched : Schedule ctx) : Option (Finset σ) :=
  match visitAll ctx.targets fuel ∅ sched.roots with
  | none => none
  | some live =>
    repeatWhile (fun k => ctx.markRound fuel (sched.round k)) fuel 0 live

/-- What `sweep` leaves of the symbols of a file. -/
def sweepSym (live : Finset σ) (file : FileRef) (s : τ) : Option τ :=
  match (ctx.sym s).subsec with
  | none => some s
  | some t =>
    if (ctx.sym s).file = some file ∧ t ∉ live then none else some s

def sweep (live : Finset σ) : Result τ σ where
  live := live
  objs := ctx.objs.map fun file =>
    (file.syms.map (ctx.sweepSym live file.file),
      file.subsections.filter fun s => decide (s ∈ live))

/-- `dead_strip`, with one unit of fuel more than there are subsections. -/
def deadStrip [Fintype σ] (sched : Schedule ctx) : Option (Result τ σ) :=
  (ctx.mark (Fintype.card σ + 1) sched).map ctx.sweep

end Context

/-! ## What has to stay alive -/

namespace Context

variable (ctx : Context τ σ)

/-- A set of subsections that contains the roots, is closed under the edges
that `visit` follows, and contains every live-support subsection of a file
that has a relocation into the set. -/
structure Closed (S : Set σ) : Prop where
  roots : ∀ s ∈ ctx.collectRootSet, s ∈ S
  targets : ∀ s ∈ S, ∀ t ∈ ctx.targets s, t ∈ S
  support : ∀ file ∈ ctx.objs, ∀ s ∈ file.subsections, (ctx.subsec s).hdr.isLiveSupport = true →
    (∃ rel ∈ (ctx.subsec s).rels, ∃ t ∈ S, ctx.relTarget rel = some t) → s ∈ S

variable {ctx}

theorem Closed.mem_of_reachable {S : Set σ} (hS : ctx.Closed S) {s t : σ}
    (hs : s ∈ S) (hreach : Relation.ReflTransGen (Edge ctx.targets) s t) :
    t ∈ S := by
  induction hreach with
  | refl => exact hs
  | tail _ hedge ih => exact hS.targets _ ih _ hedge

/-- The invariant of marking: the roots are live, the live set is closed under
the edges of `visit`, and every closed set contains it. -/
structure Marked (ctx : Context τ σ) (live : Finset σ) : Prop where
  roots : ∀ s ∈ ctx.collectRootSet, s ∈ live
  targets : ∀ s ∈ live, ∀ t ∈ ctx.targets s, t ∈ live
  least : ∀ S, ctx.Closed S → ∀ s ∈ live, s ∈ S

variable [DecidableEq σ] {live : Finset σ} {s : σ}

theorem refersToLiveSubsection_iff :
    ctx.refersToLiveSubsection live s = true ↔
      ∃ rel ∈ (ctx.subsec s).rels, ∃ t ∈ live, ctx.relTarget rel = some t := by
  rw [refersToLiveSubsection, List.any_eq_true]
  constructor
  · rintro ⟨rel, hrel, htarget⟩
    cases heq : ctx.relTarget rel with
    | none => simp [heq] at htarget
    | some t => exact ⟨rel, hrel, t, by simpa [heq] using htarget, heq⟩
  · rintro ⟨rel, hrel, t, ht, heq⟩
    exact ⟨rel, hrel, by simpa [heq] using ht⟩

omit [DecidableEq σ] in
theorem marked_of_explores (sched : Schedule ctx)
    (h : Explores ctx.targets sched.roots ∅ live) : ctx.Marked live where
  roots := fun s hs => h.starts_mem s (sched.roots_perm.mem_iff.mpr hs)
  targets := fun s hs => h.closed s hs (Finset.notMem_empty s)
  least := by
    intro S hS s hs
    obtain ⟨r, hr, hreach⟩ := h.reachable s hs (Finset.notMem_empty s)
    exact hS.mem_of_reachable (hS.roots r (sched.roots_perm.mem_iff.mp hr)) hreach

theorem Marked.of_explores {live live' : Finset σ}
    (hlive : ctx.Marked live) (hs : ∀ S, ctx.Closed S → s ∈ S)
    (h : Explores ctx.targets [s] live live') : ctx.Marked live' where
  roots := fun r hr => h.mono (hlive.roots r hr)
  targets := by
    intro t ht u hu
    by_cases hold : t ∈ live
    · exact h.mono (hlive.targets t hold u hu)
    · exact h.closed t ht hold u hu
  least := by
    intro S hS t ht
    by_cases hold : t ∈ live
    · exact hlive.least S hS t hold
    · obtain ⟨a, ha, hreach⟩ := h.reachable t ht hold
      rw [List.mem_singleton.mp ha] at hreach
      exact hS.mem_of_reachable (hs S hS) hreach

variable {fuel : ℕ} {state state' : Finset σ × Bool}

theorem markSupport_cases (h : ctx.markSupport fuel state s = some state') :
    ((ctx.subsec s).hdr.isLiveSupport = true ∧ s ∉ state.1 ∧
        ctx.refersToLiveSubsection state.1 s = true ∧ state'.2 = true ∧
        Explores ctx.targets [s] state.1 state'.1) ∨
      (((ctx.subsec s).hdr.isLiveSupport = true → s ∉ state.1 →
          ctx.refersToLiveSubsection state.1 s = false) ∧ state' = state) := by
  rw [markSupport] at h
  split at h
  · next hguard =>
      simp only [Bool.and_eq_true, Bool.not_eq_true', decide_eq_false_iff_not]
        at hguard
      obtain ⟨live, hvisit, rfl⟩ := Option.map_eq_some_iff.mp h
      exact Or.inl ⟨hguard.1.1, hguard.1.2, hguard.2, rfl, visit_explores fuel hvisit⟩
  · next hguard =>
      refine Or.inr ⟨?_, by simpa using h.symm⟩
      intro hsupport hdead
      by_contra hrefers
      exact hguard (by simp [hsupport, hdead, hrefers])

theorem markSupport_isSome [Fintype σ] (hfuel : Fintype.card σ < fuel)
    (state : Finset σ × Bool) (s : σ) :
    (ctx.markSupport fuel state s).isSome := by
  rw [markSupport]
  split
  · rw [Option.isSome_map]
    exact visit_isSome_of_card_lt hfuel state.1 s
  · rfl

theorem Marked.markSupport
    {file : Object τ σ} (hfile : file ∈ ctx.objs) (hs : s ∈ file.subsections)
    (hlive : ctx.Marked state.1)
    (h : ctx.markSupport fuel state s = some state') : ctx.Marked state'.1 := by
  rcases markSupport_cases h with ⟨hsupport, -, hrefers, -, hexplores⟩ | ⟨-, rfl⟩
  · refine hlive.of_explores ?_ hexplores
    intro S hS
    obtain ⟨rel, hrel, t, ht, heq⟩ := refersToLiveSubsection_iff.mp hrefers
    exact hS.support file hfile s hs hsupport
      ⟨rel, hrel, t, hlive.least S hS t ht, heq⟩
  · exact hlive

/-! ## One marking round -/

variable {subsecs : List σ}

theorem foldlM_markSupport_marked
    (hsubsecs : ∀ s ∈ subsecs, ∃ file ∈ ctx.objs, s ∈ file.subsections)
    (hlive : ctx.Marked state.1)
    (h : subsecs.foldlM (ctx.markSupport fuel) state = some state') :
    ctx.Marked state'.1 := by
  induction subsecs generalizing state with
  | nil =>
    obtain rfl : state = state' := by simpa using h
    exact hlive
  | cons s subsecs ih =>
    rw [List.foldlM_cons] at h
    obtain ⟨middle, hhead, htail⟩ := Option.bind_eq_some_iff.mp h
    obtain ⟨file, hfile, hs⟩ := hsubsecs s List.mem_cons_self
    exact ih (fun t ht => hsubsecs t (List.mem_cons_of_mem s ht))
      (hlive.markSupport hfile hs hhead) htail

theorem foldlM_markSupport_stable (h : subsecs.foldlM (ctx.markSupport fuel) state = some state')
    (hrepeat : state'.2 = false) :
    state' = state ∧ ∀ s ∈ subsecs,
      (ctx.subsec s).hdr.isLiveSupport = true → s ∉ state.1 →
        ctx.refersToLiveSubsection state.1 s = false := by
  induction subsecs generalizing state with
  | nil => exact ⟨by simpa using h.symm, by simp⟩
  | cons s subsecs ih =>
    rw [List.foldlM_cons] at h
    obtain ⟨middle, hhead, htail⟩ := Option.bind_eq_some_iff.mp h
    obtain ⟨hsame, hrest⟩ := ih htail
    rcases markSupport_cases hhead with ⟨-, -, -, htrue, -⟩ | ⟨hnone, rfl⟩
    · rw [hsame, htrue] at hrepeat
      exact absurd hrepeat (by decide)
    · refine ⟨hsame, ?_⟩
      intro t ht
      rcases List.mem_cons.mp ht with rfl | ht
      · exact hnone
      · exact hrest t ht

theorem foldlM_markSupport_grows (h : subsecs.foldlM (ctx.markSupport fuel) state = some state') :
    state.1 ⊆ state'.1 ∧ (state'.2 = true → state.2 = true ∨ state.1 ⊂ state'.1) := by
  induction subsecs generalizing state with
  | nil =>
    obtain rfl : state = state' := by simpa using h
    exact ⟨Finset.Subset.refl _, Or.inl⟩
  | cons s subsecs ih =>
    rw [List.foldlM_cons] at h
    obtain ⟨middle, hhead, htail⟩ := Option.bind_eq_some_iff.mp h
    obtain ⟨hmono, hgrows⟩ := ih htail
    rcases markSupport_cases hhead with ⟨-, hdead, -, -, hexplores⟩ | ⟨-, rfl⟩
    · have hlt : state.1 ⊂ state'.1 := by
        rw [Finset.ssubset_iff_of_subset (hexplores.mono.trans hmono)]
        exact ⟨s, hmono (hexplores.starts_mem s (by simp)), hdead⟩
      exact ⟨hlt.subset, fun _ => Or.inr hlt⟩
    · exact ⟨hmono, hgrows⟩

theorem foldlM_markSupport_isSome [Fintype σ] (hfuel : Fintype.card σ < fuel) (subsecs : List σ)
    (state : Finset σ × Bool) :
    (subsecs.foldlM (ctx.markSupport fuel) state).isSome := by
  induction subsecs generalizing state with
  | nil => rfl
  | cons s subsecs ih =>
    have hsome : (ctx.markSupport fuel state s).isSome :=
      markSupport_isSome hfuel state s
    obtain ⟨middle, hmiddle⟩ := Option.isSome_iff_exists.mp hsome
    rw [List.foldlM_cons, hmiddle]
    exact ih middle

variable {sched : Schedule ctx}

omit [DecidableEq σ] in
theorem mem_round {k : ℕ} :
    s ∈ (sched.round k).flatMap Object.subsections ↔ ∃ file ∈ ctx.objs, s ∈ file.subsections := by
  rw [List.mem_flatMap]
  constructor
  · rintro ⟨file, hfile, hs⟩
    exact ⟨file, (sched.round_perm k).mem_iff.mp hfile, hs⟩
  · rintro ⟨file, hfile, hs⟩
    exact ⟨file, (sched.round_perm k).mem_iff.mpr hfile, hs⟩

theorem Marked.closed {fuel k : ℕ}
    {live live' : Finset σ} (hlive : ctx.Marked live)
    (h : ctx.markRound fuel (sched.round k) live = some (live', false)) :
    live' = live ∧ ctx.Closed (live : Set σ) := by
  obtain ⟨hsame, hnone⟩ := foldlM_markSupport_stable h rfl
  refine ⟨congrArg Prod.fst hsame, ?_⟩
  constructor
  · exact hlive.roots
  · exact hlive.targets
  · intro file hfile s hs hsupport hrefers
    by_contra hdead
    have hfalse := hnone s (mem_round.mpr ⟨file, hfile, hs⟩) hsupport hdead
    have htrue := refersToLiveSubsection_iff.mpr hrefers
    rw [hfalse] at htrue
    exact absurd htrue (by decide)

theorem mark_isLeast (h : ctx.mark fuel sched = some live) :
    IsLeast {S : Set σ | ctx.Closed S} (live : Set σ) := by
  rw [mark] at h
  cases hroots : visitAll ctx.targets fuel ∅ sched.roots with
  | none => simp [hroots] at h
  | some start =>
    rw [hroots] at h
    have hstart : ctx.Marked start :=
      marked_of_explores sched (visitAll_explores hroots)
    have hround : ∀ k s s' again, ctx.Marked s →
        ctx.markRound fuel (sched.round k) s = some (s', again) →
        ctx.Marked s' := by
      intro k s s' again hs hrun
      exact foldlM_markSupport_marked (fun _ ht => mem_round.mp ht) hs hrun
    obtain ⟨hlive, k, t, ht, hlast⟩ := repeatWhile_spec hround hstart h
    obtain ⟨rfl, hclosed⟩ := ht.closed hlast
    exact ⟨hclosed, fun S hS s hs => hlive.least S hS s hs⟩

theorem mark_isSome [Fintype σ] (hfuel : Fintype.card σ < fuel)
    (sched : Schedule ctx) : (ctx.mark fuel sched).isSome := by
  have hroots : (visitAll ctx.targets fuel ∅ sched.roots).isSome :=
    visitAll_isSome_of_card_lt hfuel ∅ sched.roots
  obtain ⟨start, hstart⟩ := Option.isSome_iff_exists.mp hroots
  rw [mark, hstart]
  apply repeatWhile_isSome fun live => (Finset.univ \ live).card
  · intro k live
    exact foldlM_markSupport_isSome hfuel _ _
  · intro k live live' hround
    rcases (foldlM_markSupport_grows hround).2 rfl with hfalse | hlt
    · exact absurd hfalse Bool.false_ne_true
    · have hcard : live.card < live'.card := Finset.card_lt_card hlt
      have hlive := Finset.card_le_univ live'
      rw [Finset.card_univ_sdiff, Finset.card_univ_sdiff]
      omega
  · exact (Finset.card_le_univ _).trans_lt hfuel

/-- Dead stripping ends under every schedule.  The live subsections are the
least closed set, the files keep exactly their live subsections, and every
relocation of a live subsection targets a live subsection or a symbol without
a subsection. -/
theorem deadStrip_isLeast [Fintype σ] (sched : Schedule ctx) :
    ∃ result, ctx.deadStrip sched = some result ∧
      IsLeast {S : Set σ | ctx.Closed S} (result.live : Set σ) ∧
      (result.objs.map Prod.snd =
        ctx.objs.map fun file =>
          file.subsections.filter fun s => decide (s ∈ result.live)) ∧
      ∀ s ∈ result.live, ∀ rel ∈ (ctx.subsec s).rels,
        (∃ t ∈ result.live, ctx.relTarget rel = some t) ∨
          ∃ x, rel = .sym x ∧ (ctx.sym x).subsec = none := by
  obtain ⟨live, hmark⟩ := Option.isSome_iff_exists.mp
    (mark_isSome (Nat.lt_succ_self (Fintype.card σ)) sched)
  refine ⟨ctx.sweep live, by simp [deadStrip, hmark], mark_isLeast hmark, ?_, ?_⟩
  · rw [sweep, List.map_map]
    rfl
  · intro s hs rel hrel
    cases htarget : ctx.relTarget rel with
    | some t =>
      have hedge : t ∈ ctx.targets s :=
        List.mem_append_left _ (List.mem_filterMap.mpr ⟨rel, hrel, htarget⟩)
      exact Or.inl ⟨t, (mark_isLeast hmark).1.targets s hs t hedge, rfl⟩
    | none =>
      cases rel with
      | sym x => exact Or.inr ⟨x, rfl, htarget⟩
      | subsec t => simp [relTarget, RelocTarget.subsec?] at htarget

end Context

end Mold.MachO.DeadStrip
