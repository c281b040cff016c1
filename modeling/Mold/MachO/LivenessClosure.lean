import Mold.MachO.MarkLiveInvariants
import Mathlib.Data.Fintype.Basic

/-!
# Live objects and the owners of their references

When the marking is over, the owner of every reference of a live object should
be live: the symbols of the other files are cleared.  A reference is examined
once, when its file is scanned, and again after a drain only if a member was
loaded on its behalf.  A member that is on the frontier already counts as
loaded, so a reference it is about to take over is not examined again, and
nothing marks the member if the drain does not also hand it a symbol that is
revisited.

`Link.RevisitsTakeovers` is the condition on the state before a drain under
which this does not happen; in runs in which it holds at every drain the live
objects are closed under references.
-/

namespace Mold.MachO.Resolver

open Mold.Lib

variable {ν : Type*}

/-! ## Closure -/

/-- The owner of every undefined external symbol of a live object file is
alive. -/
def Link.LivenessClosed (L : Link ν) (s : State ν) : Prop :=
  ∀ i ∈ s.objs, s.isAlive (.obj i) = true → ∀ m ∈ (L.files.obj i).syms,
    m.isExtern = true → m.isUndef = true → ∀ file ∈ (s.syms m.name).file, s.isAlive file = true

/-- A symbol is referenced by a live object file whose symbols have been
scanned. -/
def Link.Visited (L : Link ν) (s : State ν) (x : ν) : Prop :=
  ∃ i ∈ s.objs, s.isAlive (.obj i) = true ∧ i ∉ s.liveObjs ∧
    ∃ m ∈ (L.files.obj i).syms, m.isExtern = true ∧ m.isUndef = true ∧ m.name = x

/-- The file to which the comparisons of ranks in `resolve_new_files` leave a
symbol when the frontier of the state is resolved. -/
def Link.frontierOwner [DecidableEq ν] (L : Link ν) (s : State ν) (x : ν) : Option FileRef :=
  s.pendingArchiveBegin.bind fun (objBegin, dylibBegin) =>
    ((L.resolveNewFiles s objBegin dylibBegin).syms x).file

/-- At a drain, the linker options of the new objects bring in no live object
file, and every dead file that is about to take a visited reference over is
also about to own one of the symbols to be revisited. -/
def Link.RevisitsTakeovers [DecidableEq ν] (L : Link ν) (pending : List ν) (s : State ν) : Prop :=
  (∀ w ∈ L.autolink s, ∀ i ∈ w.objs, s.isAlive (.obj i) = false) ∧
    ∀ x, L.Visited s x → ∀ file ∈ L.frontierOwner s x,
      (s.syms x).file ≠ some file → s.isAlive file = false →
        ∃ y ∈ pending, file ∈ L.frontierOwner s y

/-- The condition at a drain for an object file.  There is none elsewhere, and
none while the roots are scanned. -/
def Link.DrainMeets [DecidableEq ν] (L : Link ν) : Config ν → Prop
  | (.drain (some _) (x :: pending), s) => L.RevisitsTakeovers (x :: pending) s
  | _ => True

instance (L : Link ν) (s : State ν) : Decidable (L.LivenessClosed s) := by
  unfold Link.LivenessClosed
  infer_instance

instance [DecidableEq ν] (L : Link ν) (s : State ν) (x : ν) : Decidable (L.Visited s x) := by
  unfold Link.Visited
  infer_instance

instance [Fintype ν] [DecidableEq ν] (L : Link ν) (pending : List ν)
    (s : State ν) : Decidable (L.RevisitsTakeovers pending s) := by
  unfold Link.RevisitsTakeovers
  infer_instance

instance [Fintype ν] [DecidableEq ν] (L : Link ν) : DecidablePred L.DrainMeets
  | (.drain (some _) (x :: pending), s) =>
    inferInstanceAs (Decidable (L.RevisitsTakeovers (x :: pending) s))
  | (.drain (some _) [], _) => isTrue trivial
  | (.drain none _, _) => isTrue trivial
  | (.scan _ _ _, _) => isTrue trivial
  | (.revisit _ _ _, _) => isTrue trivial
  | (.finish _, _) => isTrue trivial
  | (.visit, _) => isTrue trivial
  | (.done, _) => isTrue trivial

/-! ## The invariant -/

/-- A reference has a live owner, if any, or one that is about to be marked
because it owns a symbol of `later`. -/
def State.Settled (s : State ν) (later : List ν) (m : MachSym ν) : Prop :=
  m.isExtern = true → m.isUndef = true → ∀ file,
    (s.syms m.name).file = some file →
      s.isAlive file = true ∨ ∃ y ∈ later, (s.syms y).file = some file

/-- The references of the live objects that have been scanned are settled.
The file `scanner` is left out. -/
def Link.VisitedSettled (L : Link ν) (s : State ν) (scanner : Option ℕ) (later : List ν) : Prop :=
  ∀ i ∈ s.objs, s.isAlive (.obj i) = true → i ∉ s.liveObjs →
    some i ≠ scanner → ∀ m ∈ (L.files.obj i).syms, s.Settled later m

/-- The invariant of the loop over the live objects.  Nothing is required while
the roots are scanned. -/
def Link.ClosureInvariant (L : Link ν) : Config ν → Prop
  | (.scan (some i) todo _, s) =>
    L.VisitedSettled s (some i) [] ∧
      ∃ scanned, (L.files.obj i).syms = scanned ++ todo ∧ ∀ m ∈ scanned, s.Settled [] m
  | (.drain (some _) _, s) => L.VisitedSettled s none []
  | (.revisit (some _) todo _, s) => L.VisitedSettled s none todo
  | (.finish (some _), s) => L.VisitedSettled s none []
  | (.visit, s) => L.VisitedSettled s none []
  | (.done, s) => L.VisitedSettled s none [] ∧ s.liveObjs = []
  | _ => True

section Steps

variable {L : Link ν} {s s' : State ν} {later : List ν}

theorem State.Settled.quiet {m : MachSym ν} (h : s.Settled later m)
    (hquiet : Quiet s s') : s'.Settled later m := by
  intro hextern hundef file hfile
  rw [hquiet.owner_eq] at hfile
  rcases h hextern hundef file hfile with halive | ⟨y, hy, howner⟩
  · exact Or.inl (hquiet.isAlive_mono file halive)
  · exact Or.inr ⟨y, hy, (hquiet.owner_eq y).trans howner⟩

theorem Link.VisitedSettled.quiet {scanner : Option ℕ}
    (h : L.VisitedSettled s scanner later) (hquiet : Quiet s s') :
    L.VisitedSettled s' scanner later := by
  intro i hi halive hlive hne m hm
  obtain ⟨hi', halive', hlive'⟩ := hquiet.visited_before i hi halive hlive
  exact (h i hi' halive' hlive' hne m hm).quiet hquiet

theorem Link.VisitedSettled.markOwner {x : ν} (h : L.VisitedSettled s none (x :: later)) :
    L.VisitedSettled (s.markOwner x) none later := by
  have hmarked := h.quiet (quiet_markOwner s x)
  intro i hi halive hlive hne m hm hextern hundef file hfile
  rcases hmarked i hi halive hlive hne m hm hextern hundef file hfile with
    hfileAlive | ⟨y, hy, howner⟩
  · exact Or.inl hfileAlive
  · rcases List.mem_cons.mp hy with rfl | hy
    · rw [markOwner_syms] at howner
      exact Or.inl (markOwner_isAlive howner)
    · exact Or.inr ⟨y, hy, howner⟩

theorem Link.VisitedSettled.of_scanned {i : ℕ} (h : L.VisitedSettled s (some i) later)
    (hi : ∀ m ∈ (L.files.obj i).syms, s.Settled later m) :
    L.VisitedSettled s none later := by
  intro j hj halive hlive _ m hm
  by_cases hji : j = i
  · rw [hji] at hm
    exact hi m hm
  · exact h j hj halive hlive (by simpa using hji) m hm

end Steps

variable [DecidableEq ν] {L : Link ν} {s s' : State ν}

theorem Link.VisitedSettled.drain {pending : List ν} (h : L.VisitedSettled s none [])
    (hdrain : L.drainArchiveMemberFrontier s = some s')
    (hrevisits : L.RevisitsTakeovers pending s) :
    L.VisitedSettled s' none pending := by
  obtain ⟨objBegin, dylibBegin, hbegin, rfl⟩ := drain_eq_some hdrain
  have hjoin : Joins (L.autolink s) s (L.waitForNewInputFrontier s) :=
    joins_foldl_loadWave L (L.autolink s) s
  intro i hi halive hlive _ m hm hextern hundef file hfile
  have halive' : s.isAlive (.obj i) = true := by
    rw [← hjoin.isAlive_obj]
    exact halive
  have hlive' : i ∉ s.liveObjs := by
    rw [← hjoin.liveObjs_eq]
    exact hlive
  have hi' : i ∈ s.objs := by
    rcases (hjoin.mem_objs i).mp hi with hold | ⟨w, hw, hwi⟩
    · exact hold
    · rw [hrevisits.1 w hw i hwi] at halive'
      cases halive'
  cases hfileAlive : s.isAlive file with
  | true => exact Or.inl (hjoin.isAlive_mono file hfileAlive)
  | false =>
    right
    have htaken : (s.syms m.name).file ≠ some file := by
      intro hbefore
      rcases h i hi' halive' hlive' (by simp) m hm hextern hundef file hbefore with h' | ⟨y, hy, -⟩
      · rw [hfileAlive] at h'
        cases h'
      · cases hy
    have hvisited : L.Visited s m.name :=
      ⟨i, hi', halive', hlive', m, hm, hextern, hundef, rfl⟩
    have howner : ∀ x, L.frontierOwner s x =
        ((L.resolveNewFiles s objBegin dylibBegin).syms x).file := by
      intro x
      rw [Link.frontierOwner, hbegin]
      rfl
    obtain ⟨y, hy, hwinner⟩ := hrevisits.2 m.name hvisited file
      ((howner m.name).trans hfile) htaken hfileAlive
    exact ⟨y, hy, (howner y).symm.trans hwinner⟩

theorem Link.ClosureInvariant.step {c c' : Config ν}
    (hconsistent : L.Consistent c.2) (hc : L.ClosureInvariant c)
    (hdrain : L.DrainMeets c) (h : L.step c = some c') :
    L.ClosureInvariant c' := by
  obtain ⟨control, s⟩ := c
  cases control with
  | scan scanner todo pending =>
    cases todo with
    | nil =>
      cases h
      cases scanner with
      | none => trivial
      | some i =>
        obtain ⟨hvisited, scanned, hsyms, hscanned⟩ := hc
        apply hvisited.of_scanned
        rw [hsyms, List.append_nil]
        exact hscanned
    | cons m todo =>
      cases h
      cases scanner with
      | none => trivial
      | some i =>
        obtain ⟨hvisited, scanned, hsyms, hscanned⟩ := hc
        obtain ⟨hquiet, howner⟩ :=
          scanSymbol_spec hconsistent (some i) m
        refine ⟨hvisited.quiet hquiet, scanned ++ [m], by simp [hsyms], ?_⟩
        intro m' hm'
        rcases List.mem_append.mp hm' with hold | hnew
        · exact (hscanned m' hold).quiet hquiet
        · rw [List.mem_singleton.mp hnew]
          intro hextern hundef file hfile
          have hbefore : (s.syms m.name).file = some file :=
            (hquiet.owner_eq m.name).symm.trans hfile
          exact Or.inl (howner hextern hundef file hbefore)
  | drain scanner pending =>
    cases pending with
    | nil =>
      cases h
      cases scanner with
      | none => trivial
      | some i => exact hc
    | cons x pending =>
      rw [Link.step] at h
      cases hstate : L.drainArchiveMemberFrontier s with
      | none =>
        simp only [hstate] at h
        cases h
        cases scanner with
        | none => trivial
        | some i => exact hc
      | some s' =>
        simp only [hstate] at h
        cases h
        cases scanner with
        | none => trivial
        | some i => exact hc.drain hstate hdrain
  | revisit scanner todo next =>
    cases todo with
    | nil =>
      cases h
      cases scanner with
      | none => trivial
      | some i => exact hc
    | cons x todo =>
      cases h
      cases scanner with
      | none => trivial
      | some i =>
        exact hc.markOwner.quiet (quiet_maybeExtract (hconsistent.markOwner x) x)
  | finish scanner =>
    cases scanner with
    | none =>
      cases h
      intro i hi halive hlive
      exact absurd (List.mem_filter.mpr ⟨hi, halive⟩) hlive
    | some i =>
      cases h
      exact hc.quiet (quiet_markOwners s _)
  | visit =>
    rw [Link.step] at h
    cases hlive : s.liveObjs with
    | nil =>
      simp only [hlive] at h
      split at h
      · cases h
        trivial
      · cases h
        exact ⟨hc, hlive⟩
    | cons i liveObjs =>
      simp only [hlive] at h
      cases h
      refine ⟨?_, [], rfl, by simp⟩
      intro j hj halive hnotMem hne m hm
      have hji : j ≠ i := by simpa using hne
      refine hc j hj halive ?_ (by simp) m hm
      rw [hlive, List.mem_cons, not_or]
      exact ⟨hji, hnotMem⟩
  | done => cases h

/-- In a run in which every drain meets the condition, the live objects are
closed under references when the marking is over, and removing the symbols of
eliminated files takes no owner away from a reference of a live object. -/
theorem Link.livenessClosed_of_revisitsTakeovers (L : Link ν)
    {order : List ℕ} (horder : order.Perm L.dylibs) {s : State ν}
    (hrun : Reaches L.step (L.start order) (.done, s))
    (hdrains : ∀ c, Reaches L.step (L.start order) c → L.DrainMeets c) :
    L.LivenessClosed s ∧
      ∀ i ∈ s.objs, s.isAlive (.obj i) = true → ∀ m ∈ (L.files.obj i).syms,
        m.isExtern = true → m.isUndef = true →
          (s.clearDeadSymbols m.name).file = (s.syms m.name).file := by
  have hinv : L.ClosureInvariant (.done, s) := by
    apply hrun.invariant
    · trivial
    · intro c c' hreach hc hstep
      exact hc.step (L.consistent_of_reaches horder.subset hreach) (hdrains c hreach) hstep
  have hclosed : L.LivenessClosed s := by
    intro i hi halive m hm hextern hundef file hfile
    have hlive : i ∉ s.liveObjs := by
      rw [hinv.2]
      simp
    rcases hinv.1 i hi halive hlive (by simp) m hm hextern hundef file hfile with
      h | ⟨y, hy, -⟩
    · exact h
    · cases hy
  refine ⟨hclosed, ?_⟩
  intro i hi halive m hm hextern hundef
  rw [State.clearDeadSymbols, clearSymbols]
  cases hfile : (s.syms m.name).file with
  | none => exact hfile
  | some file =>
    have hfileAlive := hclosed i hi halive m hm hextern hundef file hfile
    simp [hfileAlive, hfile]

/-- An object file refers to the symbols `0` and `1` and defines the entry
point `2`; an archive member defines `0` and `1`, the former weakly; a dylib
has the given exports. -/
def twoReferences (exports : List (Fin 3 × ℕ))
    (exports_nodup : (exports.map Prod.fst).Nodup) : Link (Fin 3) where
  files :=
    { obj := fun i =>
        let subsec : SubsecRef := { id := i, inputAddr := 0, isTlv := false }
        if i = 0 then
          { priority := 10000
            syms :=
              [{ name := 0, type := .undf }, { name := 1, type := .undf },
                { name := 2, type := .sect, subsec := some subsec }] }
        else
          { priority := 10001
            isAlive := false
            syms :=
              [{ name := 0, type := .sect, weakDef := true,
                 subsec := some subsec },
                { name := 1, type := .sect, subsec := some subsec }] }
      dylib := fun _ => { priority := 8000000, exports, exports_nodup } }
  objs := [0]
  dylibs := [0]
  archiveSymbolMap := fun x => if x = 2 then [] else [1]
  isObjectMember := fun _ => true
  autolink := fun _ => []
  numDylibs := 1
  ltoObject := 2
  roots := [2]
  objcMsgSend := 2
  dyldStubBinder := 2
  members_dead := by
    intro x m hm
    split at hm
    · cases hm
    · rw [List.mem_singleton.mp hm]
      rfl
  autolink_dead := by simp
  hoisted_named := by simp

/-- The dylib exports `0`. -/
def exportedReference : Link (Fin 3) := twoReferences [(0, 0)] (by decide)

def unexportedReference : Link (Fin 3) := twoReferences [] (by decide)

/-- The member is loaded for the symbol `0`, which the dylib keeps, and takes
`1` over after `1` was examined: it stays dead, and `1` loses its owner. -/
theorem exportedReference_not_livenessClosed :
    ∃ s, Reaches exportedReference.step (exportedReference.start [0]) (.done, s) ∧
      ¬ exportedReference.LivenessClosed s ∧
      (s.syms 1).file = some (.obj 1) ∧
      (s.clearDeadSymbols 1).file = none := by
  have hrun : (runSteps exportedReference.step 15
      (exportedReference.start [0])).any (fun c =>
        c.1.isDone && decide (¬ exportedReference.LivenessClosed c.2 ∧
          (c.2.syms 1).file = some (.obj 1) ∧
          (c.2.clearDeadSymbols 1).file = none)) = true := by
    decide +kernel
  obtain ⟨⟨control, s⟩, hc, hfacts⟩ := (Option.any_eq_true _ _).mp hrun
  rw [Bool.and_eq_true, decide_eq_true_eq] at hfacts
  obtain ⟨hdone, hfacts⟩ := hfacts
  cases control with
  | done => exact ⟨s, reaches_of_runSteps hc, hfacts⟩
  | _ => cases hdone

/-- Without the export, the member takes over the symbol it was loaded for, and
every drain of the run meets the condition. -/
theorem unexportedReference_livenessClosed :
    ∃ s, Reaches unexportedReference.step (unexportedReference.start [0]) (.done, s) ∧
      (s.syms 1).file = some (.obj 1) ∧
      unexportedReference.LivenessClosed s := by
  have hrun : (runSteps unexportedReference.step 21
      (unexportedReference.start [0])).any (fun c =>
        c.1.isDone && decide ((c.2.syms 1).file = some (.obj 1))) = true := by
    decide +kernel
  have hdrains : ∀ c,
      Reaches unexportedReference.step (unexportedReference.start [0]) c →
        unexportedReference.DrainMeets c := by
    intro c hreach
    apply hreach.of_runSteps (n := 22)
    · decide +kernel
    · decide +kernel
  obtain ⟨⟨control, s⟩, hc, hfacts⟩ := (Option.any_eq_true _ _).mp hrun
  rw [Bool.and_eq_true, decide_eq_true_eq] at hfacts
  obtain ⟨hdone, howner⟩ := hfacts
  cases control with
  | done =>
    have hreach := reaches_of_runSteps hc
    exact ⟨s, hreach, howner,
      (unexportedReference.livenessClosed_of_revisitsTakeovers
        (List.Perm.refl _) hreach hdrains).1⟩
  | _ => cases hdone

end Mold.MachO.Resolver
