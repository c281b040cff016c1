import Mold.MachO.MarkLive

/-!
# Invariants of the marking phase

`Link.Consistent` says that owners are files of the context and that nothing
happens to a file before it joins the context.  It holds in every
configuration the marking reaches, whatever the archives and the linker options
bring in.

The operations between two drains only mark files and append dead ones; they
are `Quiet`.  A drain may hand symbols to other files, but leaves the marks of
objects alone.
-/

namespace Mold.MachO.Resolver

open Mold.Lib

variable {ν : Type*}

/-- The owner of a symbol is a file of the context.  An object file that is
not in the context is as it was created, and an archive member was created
dead. -/
structure Link.Consistent (L : Link ν) (s : State ν) : Prop where
  owner_listed : ∀ x file, (s.syms x).file = some file → s.isListed file = true
  isAlive_of_notMem : ∀ i, i ∉ s.objs → s.isAlive (.obj i) = (L.files.obj i).isAlive
  members_dead : ∀ x, ∀ m ∈ s.archiveSymbolMap x, (L.files.obj m).isAlive = false

/-- From `s` to `s'` no symbol changes its owner, files may be marked and
marked objects are fed to the loop, and the objects that join are dead. -/
structure Quiet (s s' : State ν) : Prop where
  owner_eq : ∀ x, (s'.syms x).file = (s.syms x).file
  isAlive_mono : ∀ file, s.isAlive file = true → s'.isAlive file = true
  visited_before : ∀ i ∈ s'.objs, s'.isAlive (.obj i) = true →
    i ∉ s'.liveObjs → i ∈ s.objs ∧ s.isAlive (.obj i) = true ∧ i ∉ s.liveObjs

theorem Quiet.refl (s : State ν) : Quiet s s :=
  ⟨fun _ => rfl, fun _ h => h, fun _ hi halive hlive => ⟨hi, halive, hlive⟩⟩

theorem Quiet.trans {s₁ s₂ s₃ : State ν} (h : Quiet s₁ s₂) (h' : Quiet s₂ s₃) : Quiet s₁ s₃ where
  owner_eq x := (h'.owner_eq x).trans (h.owner_eq x)
  isAlive_mono file halive := h'.isAlive_mono file (h.isAlive_mono file halive)
  visited_before i hi halive hlive := by
    obtain ⟨hi₂, halive₂, hlive₂⟩ := h'.visited_before i hi halive hlive
    exact h.visited_before i hi₂ halive₂ hlive₂

section Listed

variable {s s' : State ν}

theorem isListed_obj {i : ℕ} : s.isListed (.obj i) = true ↔ i ∈ s.objs := by
  simp [State.isListed]

theorem isListed_dylib {d : ℕ} : s.isListed (.dylib d) = true ↔ d ∈ s.dylibs := by
  simp [State.isListed]

theorem isListed_mono (hobjs : ∀ i ∈ s.objs, i ∈ s'.objs)
    (hdylibs : ∀ d ∈ s.dylibs, d ∈ s'.dylibs) {file : FileRef}
    (h : s.isListed file = true) : s'.isListed file = true := by
  cases file with
  | obj i => exact isListed_obj.mpr (hobjs i (isListed_obj.mp h))
  | dylib d => exact isListed_dylib.mpr (hdylibs d (isListed_dylib.mp h))

end Listed

/-! ## The invariant rule -/

theorem Link.scanSymbol_cases [DecidableEq ν] (L : Link ν) (s : State ν)
    (scanner : Option ℕ) (m : MachSym ν) :
    ∃ s₁ s₂, (s₁ = s ∨ s₁ = (L.maybeExtractArchiveMember s m.name).1) ∧
      (s₂ = s₁ ∨ s₂ = s₁.globalize m.name) ∧
      ((L.scanSymbol s scanner m).1 = s₂ ∨ (L.scanSymbol s scanner m).1 = s₂.markOwner m.name) ∧
      (m.isExtern = true → m.isUndef = true →
        (L.scanSymbol s scanner m).1 = s₂.markOwner m.name) := by
  by_cases hextern : m.isExtern = true
  · obtain ⟨s₁, hs₁, heq₁⟩ : ∃ s₁, (s₁ = s ∨ s₁ = (L.maybeExtractArchiveMember s m.name).1) ∧
        (if m.isUndef || m.isCommon then L.maybeExtractArchiveMember s m.name
          else (s, false)).1 = s₁ := by
      split
      · exact ⟨_, Or.inr rfl, rfl⟩
      · exact ⟨s, Or.inl rfl, rfl⟩
    obtain ⟨s₂, hs₂, heq₂⟩ : ∃ s₂, (s₂ = s₁ ∨ s₂ = s₁.globalize m.name) ∧
        (if !m.isUndef && !isModuleLocal L.files scanner m
          then s₁.globalize m.name else s₁) = s₂ := by
      split
      · exact ⟨_, Or.inr rfl, rfl⟩
      · exact ⟨s₁, Or.inl rfl, rfl⟩
    have hscan : (L.scanSymbol s scanner m).1 =
        if m.isUndef || (m.isCommon && !(s₂.syms m.name).isCommon)
        then s₂.markOwner m.name else s₂ := by
      simp only [Link.scanSymbol, hextern, Bool.not_true, Bool.false_eq_true, if_false, heq₁, heq₂]
      split <;> rfl
    refine ⟨s₁, s₂, hs₁, hs₂, ?_, ?_⟩
    · rw [hscan]
      split
      · exact Or.inr rfl
      · exact Or.inl rfl
    · intro _ hundef
      rw [hscan, if_pos (by simp [hundef])]
  · refine ⟨s, s, Or.inl rfl, Or.inl rfl, Or.inl ?_, ?_⟩
    · simp [Link.scanSymbol, hextern]
    · exact fun h => absurd h hextern

section InvariantRule

variable [DecidableEq ν] (L : Link ν) {P : State ν → Prop}
  (hextract : ∀ s x, P s → P (L.maybeExtractArchiveMember s x).1)
  (hglobalize : ∀ s x, P s → P (s.globalize x))
  (hmark : ∀ s x, P s → P (s.markOwner x))

include hextract hglobalize hmark

theorem Link.scanSymbol_invariant {s : State ν} (hs : P s) (scanner : Option ℕ) (m : MachSym ν) :
    P (L.scanSymbol s scanner m).1 := by
  obtain ⟨s₁, s₂, hs₁, hs₂, hscan, -⟩ := L.scanSymbol_cases s scanner m
  have h₁ : P s₁ := by
    rcases hs₁ with rfl | rfl
    · exact hs
    · exact hextract s m.name hs
  have h₂ : P s₂ := by
    rcases hs₂ with rfl | rfl
    · exact h₁
    · exact hglobalize s₁ m.name h₁
  rcases hscan with hscan | hscan
  · rw [hscan]
    exact h₂
  · rw [hscan]
    exact hmark s₂ m.name h₂

variable (hliveObjs : ∀ s liveObjs, P s → P { s with liveObjs := liveObjs })
  (hlto : ∀ s, P s → P (L.doLto s))

include hliveObjs hlto

theorem Link.step_invariant {c c' : Config ν}
    (hdrain : ∀ scanner x pending s, c.1 = .drain scanner (x :: pending) →
      L.drainArchiveMemberFrontier c.2 = some s → P c.2 → P s)
    (hc : P c.2) (h : L.step c = some c') : P c'.2 := by
  have hmarkDylib : ∀ s x, P s → P (s.markDylib x) := by
    intro s x hs
    rw [State.markDylib]
    split
    · exact hmark s x hs
    · exact hs
  obtain ⟨control, s⟩ := c
  cases control with
  | scan scanner todo pending =>
    cases todo with
    | nil =>
      cases h
      exact hc
    | cons m todo =>
      cases h
      exact L.scanSymbol_invariant hextract hglobalize hmark hc scanner m
  | drain scanner pending =>
    cases pending with
    | nil =>
      cases h
      exact hc
    | cons x pending =>
      rw [Link.step] at h
      cases hstate : L.drainArchiveMemberFrontier s with
      | none =>
        simp only [hstate] at h
        cases h
        exact hc
      | some s' =>
        simp only [hstate] at h
        cases h
        exact hdrain scanner x pending s' rfl hstate hc
  | revisit scanner todo next =>
    cases todo with
    | nil =>
      cases h
      exact hc
    | cons x todo =>
      cases h
      exact hextract _ x (hmark s x hc)
  | finish scanner =>
    cases scanner with
    | none =>
      cases h
      apply hliveObjs
      split
      · exact hmarkDylib s _ hc
      · exact hmarkDylib _ _ (hmarkDylib s _ hc)
    | some i =>
      cases h
      dsimp only
      generalize (L.files.obj i).personalities = xs
      have hfold : ∀ s, P s → P (xs.foldl State.markOwner s) := by
        induction xs with
        | nil => exact fun _ hs => hs
        | cons x xs ih => exact fun s hs => ih _ (hmark s x hs)
      exact hfold s hc
  | visit =>
    rw [Link.step] at h
    cases hlive : s.liveObjs with
    | nil =>
      simp only [hlive] at h
      split at h
      · cases h
        exact hlto s hc
      · cases h
        exact hc
    | cons i liveObjs =>
      simp only [hlive] at h
      cases h
      exact hliveObjs s liveObjs hc
  | done => cases h

end InvariantRule

section MarkOwner

variable {s : State ν} {x : ν}

theorem markOwner_cases (s : State ν) (x : ν) :
    (s.markOwner x = s ∧ ∀ file, (s.syms x).file = some file → s.isAlive file = true) ∨
    ∃ file, (s.syms x).file = some file ∧ s.isAlive file = false ∧
      s.markOwner x =
        { s with
          isAlive := Function.update s.isAlive file true
          liveObjs := feed s.liveObjs file } := by
  cases hfile : (s.syms x).file with
  | none => exact Or.inl ⟨by simp [State.markOwner, hfile], by simp⟩
  | some file =>
    cases halive : s.isAlive file with
    | true =>
      refine Or.inl ⟨by simp [State.markOwner, hfile, halive], ?_⟩
      rintro f hf
      rw [← Option.some.inj hf]
      exact halive
    | false =>
      exact Or.inr ⟨file, rfl, halive,
        by simp [State.markOwner, hfile, halive]⟩

@[simp] theorem markOwner_syms : (s.markOwner x).syms = s.syms := by
  rcases markOwner_cases s x with ⟨h, -⟩ | ⟨file, -, -, h⟩ <;> rw [h]

@[simp] theorem markOwner_objs : (s.markOwner x).objs = s.objs := by
  rcases markOwner_cases s x with ⟨h, -⟩ | ⟨file, -, -, h⟩ <;> rw [h]

@[simp] theorem markOwner_dylibs : (s.markOwner x).dylibs = s.dylibs := by
  rcases markOwner_cases s x with ⟨h, -⟩ | ⟨file, -, -, h⟩ <;> rw [h]

@[simp] theorem markOwner_archiveSymbolMap :
    (s.markOwner x).archiveSymbolMap = s.archiveSymbolMap := by
  rcases markOwner_cases s x with ⟨h, -⟩ | ⟨file, -, -, h⟩ <;> rw [h]

@[simp] theorem markOwner_isListed (file : FileRef) :
    (s.markOwner x).isListed file = s.isListed file := by
  cases file <;> simp [State.isListed]

theorem markOwner_isAlive {file : FileRef} (hfile : (s.syms x).file = some file) :
    (s.markOwner x).isAlive file = true := by
  rcases markOwner_cases s x with ⟨h, halive⟩ | ⟨file', hfile', -, h⟩
  · rw [h]
    exact halive file hfile
  · rw [hfile] at hfile'
    rw [h, Option.some.inj hfile']
    exact Function.update_self _ _ _

theorem quiet_markOwner (s : State ν) (x : ν) : Quiet s (s.markOwner x) := by
  rcases markOwner_cases s x with ⟨h, -⟩ | ⟨file, -, -, h⟩
  · rw [h]
    exact Quiet.refl s
  · rw [h]
    refine ⟨fun _ => rfl, ?_, ?_⟩
    · intro f hf
      by_cases heq : f = file
      · simp [heq]
      · simpa [Function.update_of_ne heq] using hf
    · intro i hi halive hlive
      have hne : FileRef.obj i ≠ file := by
        rintro rfl
        exact hlive (by simp [feed])
      simp only [Function.update_of_ne hne] at halive
      refine ⟨hi, halive, ?_⟩
      intro hmem
      apply hlive
      cases file with
      | obj j => exact List.mem_append_left _ hmem
      | dylib d => exact hmem

theorem Link.Consistent.markOwner {L : Link ν} (hs : L.Consistent s) (x : ν) :
    L.Consistent (s.markOwner x) where
  owner_listed y file hfile := by
    rw [markOwner_isListed]
    exact hs.owner_listed y file (by simpa using hfile)
  isAlive_of_notMem i hi := by
    rw [markOwner_objs] at hi
    rcases markOwner_cases s x with ⟨h, -⟩ | ⟨file, hfile, -, h⟩
    · rw [h]
      exact hs.isAlive_of_notMem i hi
    · have hne : FileRef.obj i ≠ file := by
        rintro rfl
        exact hi (isListed_obj.mp (hs.owner_listed x _ hfile))
      rw [h]
      simp only [Function.update_of_ne hne]
      exact hs.isAlive_of_notMem i hi
  members_dead y m hm := hs.members_dead y m (by simpa using hm)

end MarkOwner

section Extract

variable [DecidableEq ν] {L : Link ν} {s : State ν}

theorem Link.Consistent.maybeExtract (hs : L.Consistent s) (x : ν) :
    L.Consistent (L.maybeExtractArchiveMember s x).1 := by
  rcases L.maybeExtractArchiveMember_cases s x with
    ⟨isLoaded, pending, -, h⟩ | ⟨isLoaded, pending, -, m, -, -, -, h⟩
  · rw [h]
    exact ⟨hs.owner_listed, hs.isAlive_of_notMem, hs.members_dead⟩
  · rw [h]
    refine ⟨?_, ?_, hs.members_dead⟩
    · intro y file hfile
      refine isListed_mono ?_ ?_ (hs.owner_listed y file hfile)
      · exact fun i hi => List.mem_append_left _ hi
      · exact fun d hd => hd
    · intro i hi
      exact hs.isAlive_of_notMem i fun hmem => hi (List.mem_append_left _ hmem)

theorem quiet_maybeExtract (hs : L.Consistent s) (x : ν) :
    Quiet s (L.maybeExtractArchiveMember s x).1 := by
  rcases L.maybeExtractArchiveMember_cases s x with
    ⟨isLoaded, pending, -, h⟩ | ⟨isLoaded, pending, -, m, hm, -, -, h⟩
  · rw [h]
    exact ⟨fun _ => rfl, fun _ h => h,
      fun _ hi halive hlive => ⟨hi, halive, hlive⟩⟩
  · rw [h]
    refine ⟨fun _ => rfl, fun _ h => h, ?_⟩
    intro i hi halive hlive
    refine ⟨?_, halive, hlive⟩
    by_contra hnew
    rcases List.mem_append.mp hi with hmem | hmem
    · exact hnew hmem
    · rw [List.mem_singleton.mp hmem] at halive hnew
      have hdead := hs.isAlive_of_notMem m hnew
      rw [hs.members_dead x m hm] at hdead
      rw [hdead] at halive
      cases halive

end Extract

section Scan

variable [DecidableEq ν] {L : Link ν} {s : State ν}

theorem globalize_file (s : State ν) (x y : ν) :
    ((s.globalize x).syms y).file = (s.syms y).file := by
  by_cases hy : y = x
  · simp [State.globalize, hy]
  · simp [State.globalize, hy]

theorem quiet_globalize (s : State ν) (x : ν) : Quiet s (s.globalize x) :=
  ⟨globalize_file s x, fun _ h => h,
    fun _ hi halive hlive => ⟨hi, halive, hlive⟩⟩

theorem Link.Consistent.globalize (hs : L.Consistent s) (x : ν) :
    L.Consistent (s.globalize x) where
  owner_listed y file hfile :=
    hs.owner_listed y file (by rw [← globalize_file s x y]; exact hfile)
  isAlive_of_notMem := hs.isAlive_of_notMem
  members_dead := hs.members_dead

theorem scanSymbol_spec (hs : L.Consistent s) (scanner : Option ℕ) (m : MachSym ν) :
    Quiet s (L.scanSymbol s scanner m).1 ∧
      (m.isExtern = true → m.isUndef = true → ∀ file,
        (s.syms m.name).file = some file → (L.scanSymbol s scanner m).1.isAlive file = true) := by
  obtain ⟨s₁, s₂, hs₁, hs₂, hscan, hundef⟩ := L.scanSymbol_cases s scanner m
  have hquiet₁ : Quiet s s₁ := by
    rcases hs₁ with rfl | rfl
    · exact Quiet.refl s₁
    · exact quiet_maybeExtract hs m.name
  have hquiet₂ : Quiet s s₂ := by
    rcases hs₂ with rfl | rfl
    · exact hquiet₁
    · exact hquiet₁.trans (quiet_globalize s₁ m.name)
  constructor
  · rcases hscan with hscan | hscan
    · rw [hscan]
      exact hquiet₂
    · rw [hscan]
      exact hquiet₂.trans (quiet_markOwner s₂ m.name)
  · intro hextern hundefined file hfile
    rw [hundef hextern hundefined]
    exact markOwner_isAlive ((hquiet₂.owner_eq m.name).trans hfile)

end Scan

/-! ## Draining the frontier -/

/-- What the rounds of linker options leave as it was, and where the files and
members that joined come from. -/
structure Joins (waves : List (AutolinkWave ν)) (s s' : State ν) : Prop where
  syms_eq : s'.syms = s.syms
  isAlive_obj : ∀ i, s'.isAlive (.obj i) = s.isAlive (.obj i)
  isAlive_mono : ∀ file, s.isAlive file = true → s'.isAlive file = true
  mem_objs : ∀ i, i ∈ s'.objs ↔ i ∈ s.objs ∨ ∃ w ∈ waves, i ∈ w.objs
  dylibs_mono : ∀ d ∈ s.dylibs, d ∈ s'.dylibs
  mem_archiveSymbolMap : ∀ x m, m ∈ s'.archiveSymbolMap x →
    m ∈ s.archiveSymbolMap x ∨ ∃ w ∈ waves, ∃ e ∈ w.members, e.2 = m
  liveObjs_eq : s'.liveObjs = s.liveObjs

section Drain

variable {L : Link ν} {s s' : State ν}

theorem Link.Consistent.joins (hs : L.Consistent s)
    (h : Joins (L.autolink s) s s') : L.Consistent s' where
  owner_listed x file hfile := by
    rw [h.syms_eq] at hfile
    exact isListed_mono (fun i hi => (h.mem_objs i).mpr (Or.inl hi))
      h.dylibs_mono (hs.owner_listed x file hfile)
  isAlive_of_notMem i hi := by
    rw [h.isAlive_obj]
    exact hs.isAlive_of_notMem i fun hmem =>
      hi ((h.mem_objs i).mpr (Or.inl hmem))
  members_dead x m hm := by
    rcases h.mem_archiveSymbolMap x m hm with hold | ⟨w, hw, e, he, rfl⟩
    · exact hs.members_dead x m hold
    · exact L.autolink_dead s w hw e he

variable [DecidableEq ν]

theorem joins_loadWave (L : Link ν) (s : State ν) (w : AutolinkWave ν) :
    Joins [w] s (L.loadWave s w) where
  syms_eq := rfl
  isAlive_obj i := by simp [Link.loadWave]
  isAlive_mono file h := by simp [Link.loadWave, h]
  mem_objs i := by simp [Link.loadWave]
  dylibs_mono d hd :=
    List.mem_append_left _ (List.mem_append_left _ hd)
  mem_archiveSymbolMap x m hm := by
    rcases List.mem_append.mp hm with h | h
    · exact Or.inl h
    · obtain ⟨e, he, rfl⟩ := List.mem_map.mp h
      exact Or.inr ⟨w, by simp, e, List.mem_of_mem_filter he, rfl⟩
  liveObjs_eq := rfl

theorem joins_foldl_loadWave (L : Link ν) (waves : List (AutolinkWave ν))
    (s : State ν) : Joins waves s (waves.foldl L.loadWave s) := by
  induction waves generalizing s with
  | nil =>
    exact ⟨rfl, fun _ => rfl, fun _ h => h, by simp, fun _ h => h,
      fun _ _ h => Or.inl h, rfl⟩
  | cons w waves ih =>
    have hw := joins_loadWave L s w
    have hrest := ih (L.loadWave s w)
    rw [List.foldl_cons]
    refine ⟨hrest.syms_eq.trans hw.syms_eq,
      fun i => (hrest.isAlive_obj i).trans (hw.isAlive_obj i),
      fun file h => hrest.isAlive_mono file (hw.isAlive_mono file h), ?_,
      fun d hd => hrest.dylibs_mono d (hw.dylibs_mono d hd), ?_,
      hrest.liveObjs_eq.trans hw.liveObjs_eq⟩
    · intro i
      rw [hrest.mem_objs, hw.mem_objs]
      simp [or_assoc]
    · intro x m hm
      rcases hrest.mem_archiveSymbolMap x m hm with h | ⟨v, hv, h⟩
      · rcases hw.mem_archiveSymbolMap x m h with h | ⟨v, hv, h⟩
        · exact Or.inl h
        · rw [List.mem_singleton.mp hv] at h
          exact Or.inr ⟨w, List.mem_cons_self, h⟩
      · exact Or.inr ⟨v, List.mem_cons_of_mem w hv, h⟩

theorem drain_eq_some (h : L.drainArchiveMemberFrontier s = some s') :
    ∃ objBegin dylibBegin, s.pendingArchiveBegin = some (objBegin, dylibBegin) ∧
      s' = { L.resolveNewFiles s objBegin dylibBegin with
        pendingArchiveBegin := none
        pendingArchiveSymbols := [] } := by
  obtain ⟨⟨objBegin, dylibBegin⟩, hbegin, heq⟩ := Option.map_eq_some_iff.mp h
  exact ⟨objBegin, dylibBegin, hbegin, heq.symm⟩

theorem Link.Consistent.resolveNewFiles (hs : L.Consistent s) (objBegin dylibBegin : ℕ) :
    L.Consistent (L.resolveNewFiles s objBegin dylibBegin) := by
  have hjoin := joins_foldl_loadWave L (L.autolink s) s
  have hs₁ := hs.joins hjoin
  refine ⟨?_, hs₁.isAlive_of_notMem, hs₁.members_dead⟩
  intro x file hfile
  rcases resolveObjectSymbols_file hfile with hdylibs | ⟨i, hi, rfl⟩
  · rcases resolveDylibs_file hdylibs with hold | ⟨d, hd, rfl⟩
    · exact hs₁.owner_listed x file hold
    · exact isListed_dylib.mpr (List.mem_of_mem_drop hd)
  · exact isListed_obj.mpr (List.mem_of_mem_drop hi)

theorem Link.Consistent.drain (hs : L.Consistent s)
    (h : L.drainArchiveMemberFrontier s = some s') : L.Consistent s' := by
  obtain ⟨objBegin, dylibBegin, -, rfl⟩ := drain_eq_some h
  have hr := hs.resolveNewFiles objBegin dylibBegin
  exact ⟨hr.owner_listed, hr.isAlive_of_notMem, hr.members_dead⟩

end Drain

section Rest

variable {L : Link ν} {s : State ν}

theorem quiet_markOwners (s : State ν) (xs : List ν) : Quiet s (xs.foldl State.markOwner s) := by
  induction xs generalizing s with
  | nil => exact Quiet.refl s
  | cons x xs ih => exact (quiet_markOwner s x).trans (ih (s.markOwner x))

theorem clearSymbols_file {cleared : FileRef → Bool} {syms : ν → Symbol ℕ}
    {x : ν} {file : FileRef}
    (h : (clearSymbols cleared syms x).file = some file) :
    (syms x).file = some file ∧ cleared file = false := by
  rw [clearSymbols] at h
  cases hfile : (syms x).file with
  | none =>
    rw [hfile] at h
    simp only at h
    rw [hfile] at h
    cases h
  | some f =>
    simp only [hfile] at h
    cases hcleared : cleared f with
    | true =>
      rw [if_pos hcleared] at h
      cases h
    | false =>
      rw [if_neg (by simp [hcleared]), hfile] at h
      cases h
      exact ⟨rfl, hcleared⟩

variable [DecidableEq ν]

theorem Link.Consistent.doLto (hs : L.Consistent s) : L.Consistent (L.doLto s) where
  owner_listed x file hfile := by
    rcases resolveObjectFile_file hfile with hclear | rfl
    · refine isListed_mono ?_ ?_ (hs.owner_listed x file (clearSymbols_file hclear).1)
      · exact fun i hi => List.mem_append_left _ hi
      · exact fun d hd => hd
    · exact isListed_obj.mpr (by simp [Link.doLto])
  isAlive_of_notMem i hi := by
    simp only [Link.doLto, List.mem_append, List.mem_singleton, not_or] at hi
    have hne : FileRef.obj i ≠ .obj L.ltoObject := by
      simpa using hi.2
    simp only [Link.doLto, Function.update_of_ne hne, hi.1, decide_false,
      Bool.false_and, Bool.not_false, Bool.and_true]
    exact hs.isAlive_of_notMem i hi.1
  members_dead := hs.members_dead

theorem initialState_consistent (L : Link ν) {order : List ℕ}
    (horder : order ⊆ L.dylibs) : L.Consistent (L.initialState order) where
  owner_listed x file hfile := by
    rcases resolveDylibs_file hfile with hobjs | ⟨d, hd, rfl⟩
    · rcases resolveObjectSymbols_file hobjs with hnone | ⟨i, hi, rfl⟩
      · cases hnone
      · exact isListed_obj.mpr hi
    · exact isListed_dylib.mpr (horder hd)
  isAlive_of_notMem _ _ := rfl
  members_dead := L.members_dead

theorem Link.Consistent.step {c c' : Config ν} (hc : L.Consistent c.2)
    (h : L.step c = some c') : L.Consistent c'.2 := by
  apply L.step_invariant (P := L.Consistent) _ _ _ _ _ _ hc h
  · exact fun s x hs => hs.maybeExtract x
  · exact fun s x hs => hs.globalize x
  · exact fun s x hs => hs.markOwner x
  · exact fun s l hs =>
      ⟨hs.owner_listed, hs.isAlive_of_notMem, hs.members_dead⟩
  · exact fun s hs => hs.doLto
  · exact fun _ _ _ s' _ hdrain hs => hs.drain hdrain

theorem Link.consistent_of_reaches {order : List ℕ} (horder : order ⊆ L.dylibs)
    {c : Config ν} (h : Reaches L.step (L.start order) c) : L.Consistent c.2 := by
  apply h.invariant (P := fun c => L.Consistent c.2)
  · exact initialState_consistent L horder
  · exact fun _ _ _ hb hstep => hb.step hstep

end Rest

end Mold.MachO.Resolver
