import Mold.MachO.DeadStrip
import Mold.MachO.SplitSubsections
import Mathlib.Data.List.Pairwise

/-!
# Elimination of overridden weak definitions

Without `-dead_strip`, `remove_unreferenced_subsections` of `main.cc` kills the
subsections of weak definitions that another file overrides.  It decides for
each entry of a symbol table, but liveness is a property of the subsection,
which other entries may share, and which relocations may reach without going
through the overridden symbol.

The main theorem says exactly when nothing that is still needed is killed: no
subsection of an overridden weak definition is shared with a symbol that the
file still owns, and such subsections are reached only from one another.
-/

namespace Mold.MachO.Subsections

open DeadStrip

variable {τ σ : Type*}

/-- An entry of the symbol table of an object file, with its symbol and its
`sym_to_subsec`. -/
structure SymEntry (τ σ : Type*) where
  sym : τ
  isSect : Bool
  weakDef : Bool
  altEntry : Bool := false
  value : UInt64
  symToSubsec : Option σ

/-- What this pass reads of an object file besides its subsections.
`subsectionsViaSymbols` is the flag of the Mach-O header, and `lookup` is the
table that `find_subsection` uses. -/
structure SymbolTable (τ σ : Type*) where
  subsectionsViaSymbols : Bool
  machSyms : List (SymEntry τ σ)
  lookup : List (Option ℕ) := []

/-- A link after symbol resolution.  Every subsection is created by one file,
in whose list it occurs once, and `sym_to_subsec` points into that list. -/
structure Link (τ σ : Type*) extends Context τ σ where
  internalObj : Option FileRef
  table : FileRef → SymbolTable τ σ
  inputAddr : σ → UInt32
  isLocal : τ → Bool
  subsections_nodup : (objs.flatMap Object.subsections).Nodup
  symToSubsec_mem : ∀ file ∈ objs, ∀ ent ∈ (table file.file).machSyms,
    ∀ s ∈ ent.symToSubsec, s ∈ file.subsections

/-- What eliminating subsections leaves: the flags `is_alive`, and the list of
subsections of every object file. -/
structure Eliminated (σ : Type*) where
  isAlive : σ → Bool
  subsections : List (List σ)

namespace Link

variable (link : Link τ σ)

/-- Is the entry a weak definition that another file overrides, in a file that
the pass looks at? -/
def isOverridden (file : Object τ σ) (ent : SymEntry τ σ) : Bool :=
  link.internalObj != some file.file && (link.table file.file).subsectionsViaSymbols &&
    (link.sym ent.sym).file != some file.file &&
    ent.isSect && ent.weakDef && !ent.altEntry

/-- The subsection of an entry: that of `sym_to_subsec`, or the one found by
address where there is none. -/
def entrySubsec (file : Object τ σ) (ent : SymEntry τ σ) : Option σ :=
  match ent.symToSubsec with
  | some s => some s
  | none => findSubsection link.inputAddr file.subsections
      (link.table file.file).lookup ent.value.toUInt32

/-- The subsections whose `is_alive` the pass clears for a file. -/
def killedBy (file : Object τ σ) : List σ :=
  ((link.table file.file).machSyms.filter (link.isOverridden file)).filterMap
    (link.entrySubsec file)

/-- The relocation reaches `s` without a global symbol: it names the subsection
itself, or a local symbol in it. -/
def ReachesDirectly (rel : RelocTarget τ σ) (s : σ) : Prop :=
  rel = .subsec s ∨ ∃ x, rel = .sym x ∧ link.isLocal x = true ∧ (link.sym x).subsec = some s

def HoldsOverridden (file : Object τ σ) (s : σ) : Prop :=
  ∃ ent ∈ (link.table file.file).machSyms,
    link.isOverridden file ent = true ∧ link.entrySubsec file ent = some s

/-- Overridden weak definitions are apart from the rest of their files: they
share no subsection with a symbol that the file owns, and their subsections
are referred to directly only from subsections of overridden definitions. -/
structure OverriddenApart : Prop where
  owned : ∀ file ∈ link.objs, ∀ s, link.HoldsOverridden file s →
    ∀ x, (link.sym x).file = some file.file → (link.sym x).subsec ≠ some s
  references : ∀ file ∈ link.objs, ∀ s, link.HoldsOverridden file s →
    ∀ other ∈ link.objs, ∀ t ∈ other.subsections,
      ∀ rel ∈ (link.subsec t).rels, link.ReachesDirectly rel s → link.HoldsOverridden other t

/-! ## Killed subsections -/

variable {link}

theorem mem_killedBy {file : Object τ σ} {s : σ} :
    s ∈ link.killedBy file ↔ link.HoldsOverridden file s := by
  simp only [killedBy, HoldsOverridden, List.mem_filterMap, List.mem_filter]
  constructor
  · rintro ⟨ent, ⟨hent, hover⟩, hs⟩
    exact ⟨ent, hent, hover, hs⟩
  · rintro ⟨ent, hent, hover, hs⟩
    exact ⟨ent, ⟨hent, hover⟩, hs⟩

theorem HoldsOverridden.mem_subsections {file : Object τ σ}
    (hfile : file ∈ link.objs) {s : σ} (h : link.HoldsOverridden file s) :
    s ∈ file.subsections := by
  obtain ⟨ent, hent, -, hs⟩ := h
  rw [entrySubsec] at hs
  split at hs
  · next hgiven =>
      obtain rfl : _ = s := Option.some.inj hs
      exact link.symToSubsec_mem file hfile ent hent _ hgiven
  · exact mem_of_findSubsection _ hs

theorem file_unique {file other : Object τ σ} (hfile : file ∈ link.objs)
    (hother : other ∈ link.objs) {s : σ} (hs : s ∈ file.subsections)
    (hs' : s ∈ other.subsections) : file = other := by
  by_contra hne
  have hdisjoint := (List.nodup_flatMap.mp link.subsections_nodup).2
  have hsymm : Std.Symm (Function.onFun List.Disjoint (Object.subsections (τ := τ) (σ := σ))) :=
    ⟨fun _ _ h => h.symm⟩
  exact hdisjoint.forall hfile hother hne hs hs'

variable [DecidableEq σ]

variable (link) in
/-- `remove_unreferenced_subsections`.  Every subsection is alive at first. -/
def removeUnreferencedSubsections : Eliminated σ where
  isAlive s := !link.objs.any fun file => decide (s ∈ link.killedBy file)
  subsections := link.objs.map fun file =>
    file.subsections.filter fun s => !decide (s ∈ link.killedBy file)

variable (link) in
/-- No subsection is killed that a symbol of its file points into, or that a
subsection that stays alive refers to directly. -/
def KeepsNeeded : Prop :=
  ∀ file ∈ link.objs, ∀ s ∈ file.subsections,
    link.removeUnreferencedSubsections.isAlive s = false →
      (∀ x, (link.sym x).file = some file.file → (link.sym x).subsec ≠ some s) ∧
      ∀ other ∈ link.objs, ∀ t ∈ other.subsections,
        link.removeUnreferencedSubsections.isAlive t = true →
          ∀ rel ∈ (link.subsec t).rels, ¬ link.ReachesDirectly rel s

theorem isAlive_eq_false_iff {s : σ} :
    link.removeUnreferencedSubsections.isAlive s = false ↔
      ∃ file ∈ link.objs, link.HoldsOverridden file s := by
  simp [removeUnreferencedSubsections, mem_killedBy]

theorem isAlive_eq_false_iff_of_mem {file : Object τ σ}
    (hfile : file ∈ link.objs) {s : σ} (hs : s ∈ file.subsections) :
    link.removeUnreferencedSubsections.isAlive s = false ↔ link.HoldsOverridden file s := by
  rw [isAlive_eq_false_iff]
  constructor
  · rintro ⟨other, hother, h⟩
    rwa [file_unique hfile hother hs (h.mem_subsections hother)]
  · exact fun h => ⟨file, hfile, h⟩

/-- The pass keeps everything that is needed if and only if overridden weak
definitions are apart from the rest of their files. -/
theorem keepsNeeded_iff_overriddenApart (link : Link τ σ) :
    link.KeepsNeeded ↔ link.OverriddenApart := by
  constructor
  · intro h
    constructor
    · intro file hfile s hs
      have hmem := hs.mem_subsections hfile
      exact (h file hfile s hmem ((isAlive_eq_false_iff_of_mem hfile hmem).mpr hs)).1
    · intro file hfile s hs other hother t ht rel hrel hreaches
      have hmem := hs.mem_subsections hfile
      have hkept := (h file hfile s hmem ((isAlive_eq_false_iff_of_mem hfile hmem).mpr hs)).2
      by_contra hlive
      rw [← isAlive_eq_false_iff_of_mem hother ht, Bool.not_eq_false] at hlive
      exact hkept other hother t ht hlive rel hrel hreaches
  · intro h file hfile s hs hkilled
    have hover := (isAlive_eq_false_iff_of_mem hfile hs).mp hkilled
    refine ⟨h.owned file hfile s hover, ?_⟩
    intro other hother t ht hlive rel hrel hreaches
    have hdead := (isAlive_eq_false_iff_of_mem hother ht).mpr
      (h.references file hfile s hover other hother t ht rel hrel hreaches)
    rw [hlive] at hdead
    exact absurd hdead (by decide)

end Link

def aliasSection : InputSection where
  hdr := { type := 0, attr := 0 }
  addr := 0
  size := 8

def aliasSplit : Split :=
  splitSubsectionsViaSymbols [some aliasSection] [{ value := 0 }, { value := 0 }]

/-- The first file defines `_f` weakly, and `_g` as an alias of it; the second
file overrides `_f`. -/
def aliasLink : Link String (FileRef × ℕ) where
  outputType := .execute
  u := []
  entry := none
  stubHelper := false
  dyldStubBinder := "dyld_stub_binder"
  sym name :=
    if name = "_g" then
      { file := some (.obj 0), subsec := some (.obj 0, 0) }
    else if name = "_f" then
      { file := some (.obj 1), subsec := some (.obj 1, 0) }
    else
      {}
  subsec _ := { hdr := { type := 0, attr := 0 }, rels := [], unwindRecords := [] }
  objs := [
    { file := .obj 0, syms := ["_f", "_g"], initFunctions := [],
      subsections := [(.obj 0, 0)], cies := [] },
    { file := .obj 1, syms := ["_f"], initFunctions := [],
      subsections := [(.obj 1, 0)], cies := [] }]
  internalObj := none
  table
    | .obj 0 => {
        subsectionsViaSymbols := true
        machSyms := [
          { sym := "_f", isSect := true, weakDef := true, value := 0,
            symToSubsec := (aliasSplit.symToSubsec 0).map (.obj 0, ·) },
          { sym := "_g", isSect := true, weakDef := false, value := 0,
            symToSubsec := (aliasSplit.symToSubsec 1).map (.obj 0, ·) }] }
    | _ => {
        subsectionsViaSymbols := true
        machSyms := [
          { sym := "_f", isSect := true, weakDef := false, value := 0,
            symToSubsec := some (.obj 1, 0) }] }
  inputAddr _ := 0
  isLocal _ := false
  subsections_nodup := by decide
  symToSubsec_mem := by decide

/-- The subsection of the alias is killed, although the first file owns it. -/
theorem aliasLink_not_keepsNeeded : ¬ aliasLink.KeepsNeeded := by
  intro h
  have hkilled : aliasLink.removeUnreferencedSubsections.isAlive (.obj 0, 0) =
      false := by
    decide
  have hkept := h _ List.mem_cons_self (.obj 0, 0) List.mem_cons_self hkilled
  exact hkept.1 "_g" rfl rfl

end Mold.MachO.Subsections
