import Mold.Lib.DepthFirst

/-!
# Squashing of text dylibs

A `.tbd` file may contain several text dylibs: the main one, and others for the libraries
that it re-exports.  `squash` of `tapi.cc` copies the symbols of all that are re-exported,
directly or through others, to the main one.

It looks libraries up by install name, among all but the main one, and follows them by plain
recursion.  So it does not end if a library re-exports itself through others, takes the main
one for a library of another file, and sees only the last of several with one name.  The
main theorem says that it is right in all other cases.
-/

namespace Mold.MachO

open Mold.Lib

variable {ν : Type*} [DecidableEq ν]

structure TextDylib (ν : Type*) where
  installName : ν
  reexportedLibs : List ν
  exports : Finset ν
  weakExports : Finset ν
  deriving DecidableEq

namespace TextDylib

/-! ## The pass -/

def mapOf (rest : List (TextDylib ν)) : ν → Option (TextDylib ν) :=
  rest.foldl (fun map tbd => Function.update map tbd.installName (some tbd)) fun _ => none

/-- What `visit` writes: the exports of the main one, and `remainings`. -/
structure Squashing (ν : Type*) where
  exports : Finset ν
  weakExports : Finset ν
  remainings : List ν := []
  deriving DecidableEq

def Squashing.merge (acc : Squashing ν) (child : TextDylib ν) : Squashing ν :=
  { acc with
    exports := acc.exports ∪ child.exports
    weakExports := acc.weakExports ∪ child.weakExports }

def Squashing.push (acc : Squashing ν) (lib : ν) : Squashing ν :=
  { acc with remainings := acc.remainings ++ [lib] }

/-- The loop of `visit`, with fuel. -/
def visit (map : ν → Option (TextDylib ν)) : ℕ → Squashing ν → List ν → Option (Squashing ν)
  | 0, _, _ => none
  | _ + 1, acc, [] => some acc
  | fuel + 1, acc, lib :: libs =>
    match map lib with
    | some child =>
      (visit map fuel (acc.merge child) child.reexportedLibs).bind fun acc =>
        visit map fuel acc libs
    | none => visit map fuel (acc.push lib) libs

def squash (fuel : ℕ) (main : TextDylib ν) (rest : List (TextDylib ν)) : Option (TextDylib ν) :=
  (visit (mapOf rest) fuel { exports := main.exports, weakExports := main.weakExports }
      main.reexportedLibs).map fun acc =>
    { main with
      exports := acc.exports
      weakExports := acc.weakExports
      reexportedLibs := acc.remainings }

inductive Reached (main : TextDylib ν) (rest : List (TextDylib ν)) : TextDylib ν → Prop
  | main : Reached main rest main
  | step {tbd child : TextDylib ν} (h : Reached main rest tbd) (hmem : child ∈ main :: rest)
      (hlib : child.installName ∈ tbd.reexportedLibs) : Reached main rest child

/-- The result has the exports of all documents that can be reached, and re-exports the
libraries that can be reached and that the file does not define. -/
structure Squashes (main : TextDylib ν) (rest : List (TextDylib ν)) (res : TextDylib ν) :
    Prop where
  exports : ∀ sym, sym ∈ res.exports ↔ ∃ tbd, Reached main rest tbd ∧ sym ∈ tbd.exports
  weakExports : ∀ sym, sym ∈ res.weakExports ↔ ∃ tbd, Reached main rest tbd ∧ sym ∈ tbd.weakExports
  reexportedLibs : ∀ lib, lib ∈ res.reexportedLibs ↔
    (∃ tbd, Reached main rest tbd ∧ lib ∈ tbd.reexportedLibs) ∧
      ∀ tbd ∈ main :: rest, tbd.installName ≠ lib

/-! ## The libraries of a file -/

section

variable {main tbd : TextDylib ν} {rest : List (TextDylib ν)} {lib lib' : ν}

def lastNamed (rest : List (TextDylib ν)) (lib : ν) : Option (TextDylib ν) :=
  rest.reverse.find? fun tbd => tbd.installName = lib

theorem mapOf_eq (rest : List (TextDylib ν)) : mapOf rest = lastNamed rest := by
  funext lib
  induction rest using List.reverseRecOn with
  | nil => rfl
  | append_singleton rest tbd ih =>
    rw [mapOf, List.foldl_append, ← mapOf, lastNamed, List.reverse_append,
      List.reverse_singleton, List.singleton_append, List.find?_cons]
    by_cases hname : tbd.installName = lib
    · rw [decide_eq_true hname, ← hname]
      exact Function.update_self _ _ _
    · rw [decide_eq_false hname]
      exact (Function.update_of_ne (Ne.symm hname) _ _).trans ih

theorem of_lastNamed (h : lastNamed rest lib = some tbd) : tbd ∈ rest ∧ tbd.installName = lib :=
  ⟨List.mem_reverse.mp (List.mem_of_find?_eq_some h),
    by simpa using List.find?_some h⟩

theorem lastNamed_eq_none_iff : lastNamed rest lib = none ↔ ∀ tbd ∈ rest, tbd.installName ≠ lib := by
  rw [lastNamed, List.find?_eq_none]
  simp only [List.mem_reverse, decide_eq_true_eq, ne_eq]

/-- The libraries that a library of the file re-exports. -/
def libsOf (rest : List (TextDylib ν)) (lib : ν) : List ν :=
  match lastNamed rest lib with
  | some tbd => tbd.reexportedLibs
  | none => []

theorem mem_libsOf_iff :
    lib' ∈ libsOf rest lib ↔ ∃ tbd, lastNamed rest lib = some tbd ∧ lib' ∈ tbd.reexportedLibs := by
  rw [libsOf]
  cases hlast : lastNamed rest lib with
  | none => simp
  | some tbd => simp

/-- The library is re-exported, directly or through others. -/
def ReachesLib (main : TextDylib ν) (rest : List (TextDylib ν)) (lib : ν) : Prop :=
  ∃ first ∈ main.reexportedLibs, Relation.ReflTransGen (Edge (libsOf rest)) first lib

/-- The text dylib is the main one, or the last one for a library that is re-exported. -/
def Found (main : TextDylib ν) (rest : List (TextDylib ν)) (tbd : TextDylib ν) : Prop :=
  tbd = main ∨ ∃ lib, ReachesLib main rest lib ∧ lastNamed rest lib = some tbd

theorem reachesLib_iff :
    ReachesLib main rest lib ↔ ∃ tbd, Found main rest tbd ∧ lib ∈ tbd.reexportedLibs := by
  constructor
  · rintro ⟨first, hfirst, hreach⟩
    rcases hreach.cases_tail with rfl | ⟨prev, hprev, hedge⟩
    · exact ⟨main, .inl rfl, hfirst⟩
    · obtain ⟨tbd, hlast, hlib⟩ := mem_libsOf_iff.mp hedge
      exact ⟨tbd, .inr ⟨prev, ⟨first, hfirst, hprev⟩, hlast⟩, hlib⟩
  · rintro ⟨tbd, rfl | ⟨prev, ⟨first, hfirst, hreach⟩, hlast⟩, hlib⟩
    · exact ⟨lib, hlib, .refl⟩
    · exact ⟨first, hfirst, hreach.tail (mem_libsOf_iff.mpr ⟨tbd, hlast, hlib⟩)⟩

theorem Found.reached (h : Found main rest tbd) : Reached main rest tbd := by
  have hlibs : ∀ first lib, first ∈ main.reexportedLibs →
      Relation.ReflTransGen (Edge (libsOf rest)) first lib →
        ∀ tbd, lastNamed rest lib = some tbd → Reached main rest tbd := by
    intro first lib hfirst hreach
    induction hreach with
    | refl =>
      intro tbd hlast
      obtain ⟨hmem, rfl⟩ := of_lastNamed hlast
      exact .step .main (List.mem_cons_of_mem _ hmem) hfirst
    | tail _ hedge ih =>
      intro tbd hlast
      obtain ⟨hmem, rfl⟩ := of_lastNamed hlast
      obtain ⟨prev, hprev, hlib⟩ := mem_libsOf_iff.mp hedge
      exact .step (ih prev hprev) (List.mem_cons_of_mem _ hmem) hlib
  rcases h with rfl | ⟨lib, ⟨first, hfirst, hreach⟩, hlast⟩
  · exact .main
  · exact hlibs first lib hfirst hreach tbd hlast

/-! ## What the pass does -/

/-- What `visit` does for a library, besides following it. -/
def visitLib (rest : List (TextDylib ν)) (acc : Squashing ν) (lib : ν) : Squashing ν :=
  match lastNamed rest lib with
  | some child => acc.merge child
  | none => acc.push lib

variable {fuel : ℕ}

theorem visit_of_descend {libs order : List ν} (acc : Squashing ν)
    (h : descend (libsOf rest) fuel libs = some order) :
    visit (mapOf rest) fuel acc libs = some (order.foldl (visitLib rest) acc) := by
  induction fuel generalizing libs order acc with
  | zero => cases h
  | succ fuel ih =>
    cases libs with
    | nil =>
      cases h
      rfl
    | cons lib libs =>
      obtain ⟨below, others, hbelow, hothers, rfl⟩ := descend_cons_eq_some_iff.mp h
      rw [visit, mapOf_eq, List.foldl_cons, List.foldl_append]
      cases hlast : lastNamed rest lib with
      | some child =>
        have hlibs : libsOf rest lib = child.reexportedLibs := by rw [libsOf, hlast]
        rw [hlibs] at hbelow
        have hlib : visitLib rest acc lib = acc.merge child := by rw [visitLib, hlast]
        dsimp only
        rw [← mapOf_eq, ih (acc.merge child) hbelow, Option.bind_some, ih _ hothers, hlib]
      | none =>
        have hlibs : libsOf rest lib = [] := by rw [libsOf, hlast]
        have hnil : below = [] := by
          rw [hlibs] at hbelow
          cases fuel with
          | zero => cases hbelow
          | succ fuel => exact (Option.some.inj hbelow).symm
        have hlib : visitLib rest acc lib = acc.push lib := by rw [visitLib, hlast]
        dsimp only
        rw [← mapOf_eq, ih (acc.push lib) hothers, hnil, hlib]
        rfl

theorem descend_of_visit {libs : List ν} {acc res : Squashing ν}
    (h : visit (mapOf rest) fuel acc libs = some res) :
    ∃ order, descend (libsOf rest) (fuel + 1) libs = some order ∧
      res = order.foldl (visitLib rest) acc := by
  induction fuel generalizing libs acc res with
  | zero => cases h
  | succ fuel ih =>
    cases libs with
    | nil =>
      cases h
      exact ⟨[], rfl, rfl⟩
    | cons lib libs =>
      rw [visit, mapOf_eq] at h
      cases hlast : lastNamed rest lib with
      | some child =>
        have hlibs : libsOf rest lib = child.reexportedLibs := by rw [libsOf, hlast]
        have hlib : visitLib rest acc lib = acc.merge child := by rw [visitLib, hlast]
        rw [hlast, ← mapOf_eq] at h
        obtain ⟨acc', hchild, hrest⟩ := Option.bind_eq_some_iff.mp h
        obtain ⟨below, hbelow, rfl⟩ := ih hchild
        obtain ⟨others, hothers, rfl⟩ := ih hrest
        rw [← hlibs] at hbelow
        refine ⟨_, descend_cons_eq_some_iff.mpr ⟨below, others, hbelow, hothers, rfl⟩, ?_⟩
        rw [List.foldl_cons, List.foldl_append, hlib]
      | none =>
        have hbelow : descend (libsOf rest) (fuel + 1) (libsOf rest lib) = some [] := by
          rw [show libsOf rest lib = [] by rw [libsOf, hlast]]
          rfl
        have hlib : visitLib rest acc lib = acc.push lib := by rw [visitLib, hlast]
        rw [hlast, ← mapOf_eq] at h
        obtain ⟨others, hothers, rfl⟩ := ih h
        refine ⟨_, descend_cons_eq_some_iff.mpr ⟨[], others, hbelow, hothers, rfl⟩, ?_⟩
        rw [List.foldl_cons, List.nil_append, hlib]

variable {order : List ν} {acc : Squashing ν}

theorem mem_exports_foldl {sym : ν} :
    sym ∈ (order.foldl (visitLib rest) acc).exports ↔
      sym ∈ acc.exports ∨ ∃ lib ∈ order, ∃ tbd, lastNamed rest lib = some tbd ∧
        sym ∈ tbd.exports := by
  induction order generalizing acc with
  | nil => simp
  | cons lib order ih =>
    rw [List.foldl_cons, ih, List.exists_mem_cons_iff, ← or_assoc, visitLib]
    cases hlast : lastNamed rest lib with
    | some child => simp [Squashing.merge]
    | none => simp [Squashing.push]

theorem mem_weakExports_foldl {sym : ν} :
    sym ∈ (order.foldl (visitLib rest) acc).weakExports ↔
      sym ∈ acc.weakExports ∨ ∃ lib ∈ order, ∃ tbd, lastNamed rest lib = some tbd ∧
        sym ∈ tbd.weakExports := by
  induction order generalizing acc with
  | nil => simp
  | cons lib order ih =>
    rw [List.foldl_cons, ih, List.exists_mem_cons_iff, ← or_assoc, visitLib]
    cases hlast : lastNamed rest lib with
    | some child => simp [Squashing.merge]
    | none => simp [Squashing.push]

theorem mem_remainings_foldl :
    lib' ∈ (order.foldl (visitLib rest) acc).remainings ↔
      lib' ∈ acc.remainings ∨ lib' ∈ order ∧ lastNamed rest lib' = none := by
  induction order generalizing acc with
  | nil => simp
  | cons lib order ih =>
    rw [List.foldl_cons, ih, List.mem_cons, or_and_right, ← or_assoc, visitLib]
    cases hlast : lastNamed rest lib with
    | some child =>
      have hnot : ¬ (lib' = lib ∧ lastNamed rest lib' = none) := by
        rintro ⟨rfl, hnone⟩
        rw [hlast] at hnone
        cases hnone
      simp [Squashing.merge, hnot]
    | none =>
      have heq : lib' = lib ∧ lastNamed rest lib' = none ↔ lib' = lib := by
        refine and_iff_left_of_imp ?_
        rintro rfl
        exact hlast
      simp [Squashing.push, heq]

theorem squash_spec {res : TextDylib ν} (h : squash fuel main rest = some res) :
    (∀ sym, sym ∈ res.exports ↔ ∃ tbd, Found main rest tbd ∧ sym ∈ tbd.exports) ∧
      (∀ sym, sym ∈ res.weakExports ↔ ∃ tbd, Found main rest tbd ∧ sym ∈ tbd.weakExports) ∧
      ∀ lib, lib ∈ res.reexportedLibs ↔ ReachesLib main rest lib ∧ lastNamed rest lib = none := by
  obtain ⟨acc, hvisit, rfl⟩ := Option.map_eq_some_iff.mp h
  obtain ⟨order, horder, rfl⟩ := descend_of_visit hvisit
  have hmem : ∀ lib, lib ∈ order ↔ ReachesLib main rest lib := fun lib => mem_descend_iff horder
  have hfound : ∀ P : TextDylib ν → Prop, (∃ tbd, Found main rest tbd ∧ P tbd) ↔
      P main ∨ ∃ lib ∈ order, ∃ tbd, lastNamed rest lib = some tbd ∧ P tbd := by
    intro P
    constructor
    · rintro ⟨tbd, rfl | ⟨lib, hlib, hlast⟩, hP⟩
      · exact .inl hP
      · exact .inr ⟨lib, (hmem lib).mpr hlib, tbd, hlast, hP⟩
    · rintro (hP | ⟨lib, hlib, tbd, hlast, hP⟩)
      · exact ⟨main, .inl rfl, hP⟩
      · exact ⟨tbd, .inr ⟨lib, (hmem lib).mp hlib, hlast⟩, hP⟩
  refine ⟨fun sym => ?_, fun sym => ?_, fun lib => ?_⟩
  · exact mem_exports_foldl.trans (hfound fun tbd => sym ∈ tbd.exports).symm
  · exact mem_weakExports_foldl.trans (hfound fun tbd => sym ∈ tbd.weakExports).symm
  · refine mem_remainings_foldl.trans ?_
    rw [hmem, or_iff_right List.not_mem_nil]

theorem exists_squash_iff (main : TextDylib ν) (rest : List (TextDylib ν)) :
    (∃ fuel res, squash fuel main rest = some res) ↔
      ∀ lib, ReachesLib main rest lib → ¬ Relation.TransGen (Edge (libsOf rest)) lib lib := by
  have hends : (∃ fuel res, squash fuel main rest = some res) ↔
      ∃ fuel order, descend (libsOf rest) fuel main.reexportedLibs = some order := by
    constructor
    · rintro ⟨fuel, res, h⟩
      obtain ⟨acc, hvisit, rfl⟩ := Option.map_eq_some_iff.mp h
      obtain ⟨order, horder, -⟩ := descend_of_visit hvisit
      exact ⟨fuel + 1, order, horder⟩
    · rintro ⟨fuel, order, horder⟩
      exact ⟨fuel, _, by rw [squash, visit_of_descend _ horder]; rfl⟩
  let libs : List ν := main.reexportedLibs ++ rest.flatMap reexportedLibs
  rw [hends, exists_descend_iff (s := {lib | lib ∈ libs}) (List.finite_toSet libs)
    (fun lib hlib => List.mem_append_left _ hlib) fun lib _ lib' hlib' => ?_]
  · constructor
    · rintro h lib ⟨first, hfirst, hreach⟩
      exact h first hfirst lib hreach
    · exact fun h first hfirst lib hreach => h lib ⟨first, hfirst, hreach⟩
  · obtain ⟨tbd, hlast, hmem⟩ := mem_libsOf_iff.mp hlib'
    exact List.mem_append_right _ (List.mem_flatMap.mpr ⟨tbd, (of_lastNamed hlast).1, hmem⟩)

/-- What a text dylib has is also found in those that the pass sees. -/
structure Covered (main : TextDylib ν) (rest : List (TextDylib ν)) (tbd : TextDylib ν) : Prop where
  exports : ∀ sym ∈ tbd.exports, ∃ found, Found main rest found ∧ sym ∈ found.exports
  weakExports : ∀ sym ∈ tbd.weakExports, ∃ found, Found main rest found ∧ sym ∈ found.weakExports
  reexportedLibs : ∀ lib ∈ tbd.reexportedLibs, (∀ tbd ∈ main :: rest, tbd.installName ≠ lib) →
    ReachesLib main rest lib

/-- No library is re-exported by itself, directly or through others, and none that is
re-exported has the name of the main text dylib, unless another one has that name too.  What
can be reached by a name that is used more than once is not lost. -/
structure WellLinked (main : TextDylib ν) (rest : List (TextDylib ν)) : Prop where
  acyclic : ∀ lib, ReachesLib main rest lib → ¬ Relation.TransGen (Edge (libsOf rest)) lib lib
  notMain : ReachesLib main rest main.installName → lastNamed rest main.installName ≠ none
  covered : ∀ tbd, Reached main rest tbd → Covered main rest tbd

/-- The pass ends with the right result if and only if the file is well linked. -/
theorem squashes_iff (main : TextDylib ν) (rest : List (TextDylib ν)) :
    (∃ fuel res, squash fuel main rest = some res ∧ Squashes main rest res) ↔
      WellLinked main rest := by
  constructor
  · rintro ⟨fuel, res, hsquash, h⟩
    obtain ⟨hexports, hweak, hlibs⟩ := squash_spec hsquash
    refine ⟨(exists_squash_iff main rest).mp ⟨fuel, res, hsquash⟩, fun hreach hnone => ?_,
      fun tbd htbd => ⟨fun sym hsym => ?_, fun sym hsym => ?_, fun lib hlib hnot => ?_⟩⟩
    · have hmem := (hlibs main.installName).mpr ⟨hreach, hnone⟩
      exact ((h.reexportedLibs _).mp hmem).2 main List.mem_cons_self rfl
    · exact (hexports sym).mp ((h.exports sym).mpr ⟨tbd, htbd, hsym⟩)
    · exact (hweak sym).mp ((h.weakExports sym).mpr ⟨tbd, htbd, hsym⟩)
    · exact ((hlibs lib).mp ((h.reexportedLibs lib).mpr ⟨⟨tbd, htbd, hlib⟩, hnot⟩)).1
  · intro h
    obtain ⟨fuel, res, hsquash⟩ := (exists_squash_iff main rest).mpr h.acyclic
    obtain ⟨hexports, hweak, hlibs⟩ := squash_spec hsquash
    refine ⟨fuel, res, hsquash, fun sym => ?_, fun sym => ?_, fun lib => ?_⟩
    · rw [hexports]
      constructor
      · rintro ⟨tbd, htbd, hsym⟩
        exact ⟨tbd, htbd.reached, hsym⟩
      · rintro ⟨tbd, htbd, hsym⟩
        exact (h.covered tbd htbd).exports sym hsym
    · rw [hweak]
      constructor
      · rintro ⟨tbd, htbd, hsym⟩
        exact ⟨tbd, htbd.reached, hsym⟩
      · rintro ⟨tbd, htbd, hsym⟩
        exact (h.covered tbd htbd).weakExports sym hsym
    · rw [hlibs]
      constructor
      · rintro ⟨hreach, hnone⟩
        obtain ⟨tbd, htbd, hlib⟩ := reachesLib_iff.mp hreach
        refine ⟨⟨tbd, htbd.reached, hlib⟩, fun tbd hmem => ?_⟩
        rcases List.mem_cons.mp hmem with rfl | hmem
        · rintro rfl
          exact h.notMain hreach hnone
        · exact lastNamed_eq_none_iff.mp hnone tbd hmem
      · rintro ⟨⟨tbd, htbd, hlib⟩, hnot⟩
        refine ⟨(h.covered tbd htbd).reexportedLibs lib hlib hnot, ?_⟩
        exact lastNamed_eq_none_iff.mpr fun tbd hmem => hnot tbd (List.mem_cons_of_mem _ hmem)

end

def cyclicTbds : List (TextDylib ℕ) :=
  [⟨1, [2], {10}, ∅⟩, ⟨2, [1], {20}, ∅⟩]

theorem not_squashes_cyclicTbds :
    ¬ ∃ fuel res, squash fuel ⟨0, [1], ∅, ∅⟩ cyclicTbds = some res ∧
      Squashes ⟨0, [1], ∅, ∅⟩ cyclicTbds res := by
  rintro ⟨fuel, res, hsquash, -⟩
  refine (exists_squash_iff _ _).mp ⟨fuel, res, hsquash⟩ 1 ⟨1, List.mem_singleton_self 1, .refl⟩ ?_
  have hfirst : Edge (libsOf cyclicTbds) 1 2 := List.mem_singleton_self 2
  have hsecond : Edge (libsOf cyclicTbds) 2 1 := List.mem_singleton_self 1
  exact (Relation.TransGen.single hfirst).tail hsecond

end TextDylib

end Mold.MachO
