import Mold.Elf.SymbolVersionsProgress
import Mathlib.Data.List.Dedup
import Mathlib.Data.List.Perm.Subperm

/-!
# The version tables agree

A reader that follows the chains finds every definition and every requirement, the
indices are pairwise distinct, and an entry of `.gnu.version` for an imported symbol
is the index of its version in the record of its library.
-/

namespace Mold.Elf

open Lib

/-! ## Specification -/

/-- The definitions that a reader finds, none if there is no section. -/
def VersionTables.readDefinitions (t : VersionTables) : Option (List Verdef) :=
  if t.verdef.buf = [] then some []
  else t.definitions.map (·.map Prod.snd)

/-- The requirements that a reader finds, none if there is no section. -/
def VersionTables.readRequirements (t : VersionTables) : Option (List (Verneed × List Vernaux)) :=
  if t.verneed.buf = [] then some [] else t.requirements

def VersionContext.DistinctVersions (ctx : VersionContext) (lib : SharedLib) : Prop :=
  ∀ p ∈ versionedSymbols ctx, ∀ q ∈ versionedSymbols ctx, p.1.lib = some lib → q.1.lib = some lib →
    p.1.getVersion = q.1.getVersion → p.1.verIdx = q.1.verIdx

/-- The entry of a symbol is the index of its version in the only record of its library. -/
def ImportedAgrees (ctx : VersionContext) (versym : List ℕ)
    (reqs : List (Verneed × List Vernaux)) (p : VersionedSymbol × ℕ) (lib : SharedLib) :
    Prop :=
  ∃ r ∈ reqs, r.1.vnFile = lib.soname ∧ (∀ r' ∈ reqs, r'.1.vnFile = lib.soname → r' = r) ∧
    ∃ a ∈ r.2, a.vnaName = p.1.getVersion ∧ versym[p.2]? = some a.vnaOther ∧
      (ctx.DistinctVersions lib → ∀ a' ∈ r.2, a'.vnaName = a.vnaName → a' = a)

/-- The tables agree, where symbols of object files have the indices `objIndex`. -/
structure VersionsAgree (ctx : VersionContext) (objIndex : VersionedSymbol → ℕ)
    (t : VersionTables) (defs : List Verdef) (reqs : List (Verneed × List Vernaux)) :
    Prop where
  definitions : t.readDefinitions = some defs
  requirements : t.readRequirements = some reqs
  defs_count : defs.length = t.verdef.shInfo
  defs_fit : t.verdef.buf.length ≤ ctx.versionDefinitions.length + 1
  reqs_count : reqs.length = t.verneed.shInfo
  auxs_count : ∀ r ∈ reqs, r.2.length = r.1.vnCnt
  reqs_fit : t.verneed.buf.length ≤ 2 * (versionedSymbols ctx).length
  distinct : (defs.map Verdef.vdNdx ++ (reqs.flatMap Prod.snd).map Vernaux.vnaOther).Nodup
  imported : ∀ p ∈ versionedSymbols ctx, ∀ lib, p.1.lib = some lib →
    ImportedAgrees ctx t.versym reqs p lib
  objects : t.versym ≠ [] → ∀ p ∈ ctx.indexed, p.1.lib = none →
    t.versym[p.2]? = some (objIndex p.1)

def objectIndex (ctx : VersionContext) (sym : VersionedSymbol) : ℕ :=
  if ctx.versionDefinitions = [] then 1 else sym.verIdx

def requiredVersions (ctx : VersionContext) : List (Option SharedLib × ℕ) :=
  ((versionedSymbols ctx).map fun p => (p.1.lib, p.1.verIdx)).dedup

theorem indexed_map_snd (ctx : VersionContext) :
    ctx.indexed.map Prod.snd = List.range' 1 ctx.symbols.length := by
  rw [VersionContext.indexed, List.zipIdx_map_snd]

variable {ctx : VersionContext} {p : VersionedSymbol × ℕ}

theorem mem_indexed
    (hp : p ∈ ctx.indexed) : p.1 ∈ ctx.symbols ∧ 0 < p.2 ∧ p.2 < ctx.dynsymSize := by
  have hsym : p.1 ∈ ctx.symbols := by
    have hmem := List.mem_map_of_mem (f := Prod.fst) hp
    rwa [VersionContext.indexed, List.zipIdx_map_fst] at hmem
  have hpos : p.2 ∈ List.range' 1 ctx.symbols.length := by
    rw [← indexed_map_snd]
    exact List.mem_map_of_mem hp
  have hne : ctx.symbols ≠ [] := List.ne_nil_of_mem hsym
  rw [List.mem_range'_1] at hpos
  refine ⟨hsym, hpos.1, ?_⟩
  rw [VersionContext.dynsymSize, if_neg (by simp [hne])]
  omega

theorem mem_versionedSymbols (hp : p ∈ versionedSymbols ctx) :
    p ∈ ctx.indexed ∧ (∃ lib ∈ ctx.dsos, p.1.lib = some lib) ∧
      verNdxLastReserved < p.1.verIdx := by
  obtain ⟨hmem, hcond⟩ := List.mem_filter.mp hp
  rw [Bool.and_eq_true, decide_eq_true_eq] at hcond
  obtain ⟨lib, hlib⟩ := Option.isSome_iff_exists.mp hcond.1
  exact ⟨hmem, ⟨lib, ctx.owned p.1 (mem_indexed hmem).1 lib hlib, hlib⟩, hcond.2⟩

theorem sortedSymbols_perm (ctx : VersionContext) :
    (sortedSymbols ctx).Perm (versionedSymbols ctx) :=
  List.mergeSort_perm _ _

theorem sortedSymbols_sorted (ctx : VersionContext) :
    ((sortedSymbols ctx).map Prod.fst).Pairwise fun s s' => symKey s ≤ symKey s' := by
  rw [List.pairwise_map]
  have hsorted := @List.pairwise_mergeSort _
    (fun p q : VersionedSymbol × ℕ => decide (verneedKey p ≤ verneedKey q))
    (fun p q r hpq hqr => decide_eq_true
      (le_trans (of_decide_eq_true hpq) (of_decide_eq_true hqr)))
    (fun p q => by
      rw [Bool.or_eq_true, decide_eq_true_eq, decide_eq_true_eq]
      exact le_total _ _)
    (versionedSymbols ctx)
  exact hsorted.imp fun hle => of_decide_eq_true hle

theorem sortedSymbols_nodup (ctx : VersionContext) : ((sortedSymbols ctx).map Prod.snd).Nodup := by
  rw [((sortedSymbols_perm ctx).map _).nodup_iff]
  refine List.Nodup.sublist (List.Sublist.map _ List.filter_sublist) ?_
  rw [indexed_map_snd]
  exact List.nodup_range'

theorem length_resizeVersym (size : ℕ) (versym : List ℕ) :
    (resizeVersym size versym).length = size := by
  rw [resizeVersym, List.length_set, List.length_append, List.length_take, List.length_replicate]
  omega

variable {versym : List ℕ}

theorem getElem?_resizeVersym_self {size i : ℕ} (hsize : versym.length = size) (hi : 0 < i) :
    (resizeVersym size versym)[i]? = versym[i]? := by
  rw [resizeVersym, List.getElem?_set_ne (Nat.ne_of_lt hi), List.take_of_length_le
    (Nat.le_of_eq hsize), hsize, Nat.sub_self, List.replicate_zero, List.append_nil]

theorem getElem?_resizeVersym_nil {size i : ℕ} (hi : 0 < i) (hlt : i < size) :
    (resizeVersym size [])[i]? = some 1 := by
  rw [resizeVersym, List.getElem?_set_ne (Nat.ne_of_lt hi), List.take_nil, List.nil_append,
    List.length_nil, Nat.sub_zero, List.getElem?_replicate, if_pos hlt]

theorem foldl_set_spec (l : List (VersionedSymbol × ℕ)) (versym : List ℕ)
    (hnodup : (l.map Prod.snd).Nodup) :
    (l.foldl (fun versym p => versym.set p.2 p.1.verIdx) versym).length = versym.length ∧
    (∀ i, i ∉ l.map Prod.snd →
      (l.foldl (fun versym p => versym.set p.2 p.1.verIdx) versym)[i]? = versym[i]?) ∧
    (∀ p ∈ l, p.2 < versym.length →
      (l.foldl (fun versym p => versym.set p.2 p.1.verIdx) versym)[p.2]? = some p.1.verIdx) := by
  induction l generalizing versym with
  | nil => exact ⟨rfl, fun _ _ => rfl, fun p hp => absurd hp List.not_mem_nil⟩
  | cons q l ih =>
    rw [List.map_cons, List.nodup_cons] at hnodup
    obtain ⟨hlength, hkept, hwritten⟩ := ih (versym.set q.2 q.1.verIdx) hnodup.2
    rw [List.length_set] at hlength hwritten
    simp only [List.foldl_cons]
    refine ⟨hlength, fun i hi => ?_, fun p hp hlt => ?_⟩
    · rw [List.map_cons, List.mem_cons, not_or] at hi
      rw [hkept i hi.2, List.getElem?_set_ne (Ne.symm hi.1)]
    · rcases List.mem_cons.mp hp with rfl | hp
      · rw [hkept _ hnodup.1, List.getElem?_set_self hlt]
      · exact hwritten p hp hlt

/-- What `VerdefSection::construct` leaves. -/
structure VerdefDone (ctx : VersionContext) (sec : VerdefSection) (versym : List ℕ) : Prop where
  empty : ctx.versionDefinitions = [] → sec = {} ∧ versym = []
  buf : ctx.versionDefinitions ≠ [] → sec.buf =
    chainDefs (Verdef.mk' ctx.basename 1 verFlgBase) 2 ctx.versionDefinitions
  shInfo : ctx.versionDefinitions ≠ [] → sec.shInfo = ctx.versionDefinitions.length + 1
  length : ctx.versionDefinitions ≠ [] → versym.length = ctx.dynsymSize
  versym : ctx.versionDefinitions ≠ [] → ∀ p ∈ ctx.indexed, versym[p.2]? = some p.1.verIdx

theorem constructVerdef_spec {sec : VerdefSection} (h : constructVerdef ctx = some (sec, versym)) :
    VerdefDone ctx sec versym := by
  by_cases hdefs : ctx.versionDefinitions = []
  · rw [constructVerdef, if_pos hdefs] at h
    obtain ⟨rfl, rfl⟩ := Prod.mk.inj (Option.some.inj h)
    exact ⟨fun _ => ⟨rfl, rfl⟩, fun hne => absurd hdefs hne, fun hne => absurd hdefs hne,
      fun hne => absurd hdefs hne, fun hne => absurd hdefs hne⟩
  · rw [constructVerdef, if_neg hdefs] at h
    split at h
    · cases h
    · obtain ⟨rfl, rfl⟩ := Prod.mk.inj (Option.some.inj h)
      obtain ⟨hbuf, hinfo⟩ := @writeAll_eq (VerdefSection.write {} ctx.basename 1 verFlgBase) []
        (Verdef.mk' ctx.basename 1 verFlgBase) rfl rfl 2 ctx.versionDefinitions
      have hnodup : (ctx.indexed.map Prod.snd).Nodup := by
        rw [indexed_map_snd]
        exact List.nodup_range'
      obtain ⟨hlength, -, hwritten⟩ := foldl_set_spec ctx.indexed
        (resizeVersym ctx.dynsymSize []) hnodup
      rw [length_resizeVersym] at hlength hwritten
      refine ⟨fun hnil => absurd hnil hdefs, fun _ => hbuf, fun _ => ?_, fun _ => hlength,
        fun _ p hp => hwritten p hp (mem_indexed hp).2.2⟩
      rw [hinfo, Nat.add_comm]
      rfl

/-! ## `.gnu.version_r` -/

def firstVeridx (ctx : VersionContext) : ℕ :=
  (verNdxLastReserved + ctx.versionDefinitions.length) % 2 ^ 16

theorem constructVerneed_progress (versym : List ℕ) (hne : versionedSymbols ctx ≠ []) :
    ∃ prev done lib before last, Progress (firstVeridx ctx)
      (resizeVersym ctx.dynsymSize versym) (sortedSymbols ctx) prev
      (constructVerneed ctx versym) done lib before last := by
  have hmem : ∀ p ∈ sortedSymbols ctx, (∃ lib ∈ ctx.dsos, p.1.lib = some lib) ∧
      p.2 < (resizeVersym ctx.dynsymSize versym).length := by
    intro p hp
    have hp' := (sortedSymbols_perm ctx).subset hp
    obtain ⟨hindexed, hlib, -⟩ := mem_versionedSymbols hp'
    exact ⟨hlib, by rw [length_resizeVersym]; exact (mem_indexed hindexed).2.2⟩
  have hsorted := sortedSymbols_sorted ctx
  have hnodup := sortedSymbols_nodup ctx
  rw [constructVerneed, if_neg hne]
  cases hsyms : sortedSymbols ctx with
  | nil =>
    have hnil := (sortedSymbols_perm ctx).symm
    rw [hsyms] at hnil
    exact absurd hnil.eq_nil hne
  | cons p l =>
    rw [hsyms] at hmem hsorted hnodup
    obtain ⟨⟨lib, hlib, hplib⟩, hpos⟩ := hmem p List.mem_cons_self
    have hfirst := Progress.first (firstVeridx ctx) _ hplib hpos
    exact hfirst.run ctx.dsos_unique hlib l hsorted
      (fun q hq => (hmem q (List.mem_cons_of_mem _ hq)).1)
      (fun q hq => (hmem q (List.mem_cons_of_mem _ hq)).2) hnodup

section Filled

variable {ctx : VersionContext} {start : ℕ} {versym₀ : List ℕ} {prev : VersionedSymbol}
  {st : VerneedState} {done : List VersionGroup} {lib : SharedLib}
  {before : List VersionEntry} {last : VersionEntry}

theorem Progress.length_le
    (h : Progress start versym₀ (sortedSymbols ctx) prev st done lib before last) :
    (flatEntries (done ++ [⟨lib, before ++ [last]⟩])).length ≤ (requiredVersions ctx).length := by
  rw [← List.length_map fun x : SharedLib × VersionEntry => (some x.1, x.2.sym.verIdx)]
  refine (List.subperm_of_subset ?_ ?_).length_le
  · rw [List.nodup_iff_pairwise_ne, List.pairwise_map]
    refine h.sorted.imp fun {x y} hlt heq => ?_
    obtain ⟨hlib, hver⟩ := Prod.mk.inj heq
    rw [entryKey, entryKey, Option.some.inj hlib, hver] at hlt
    exact lt_irrefl _ hlt
  · intro key hkey
    obtain ⟨x, hx, rfl⟩ := List.mem_map.mp hkey
    obtain ⟨hlib, hmem⟩ := h.entries_own x hx
    obtain ⟨p, hp, hsym⟩ := List.mem_map.mp hmem
    rw [requiredVersions, List.mem_dedup]
    refine List.mem_map.mpr ⟨p, (sortedSymbols_perm ctx).subset hp, ?_⟩
    rw [hsym, hlib]

theorem Progress.indices_eq
    (h : Progress start versym₀ (sortedSymbols ctx) prev st done lib before last)
    (hlt : start + (requiredVersions ctx).length < 2 ^ 16) :
    (flatEntries (done ++ [⟨lib, before ++ [last]⟩])).map (fun x => x.2.idx) =
      List.range' (start + 1) (flatEntries (done ++ [⟨lib, before ++ [last]⟩])).length := by
  have hle := h.length_le
  refine h.indices.trans ((List.map_congr_left fun i hi => ?_).trans (List.map_id _))
  rw [List.mem_range'_1] at hi
  exact Nat.mod_eq_of_lt (by omega)

theorem encodeEntries_map_other (l : List VersionEntry) :
    (encodeEntries l).map Vernaux.vnaOther = l.map VersionEntry.idx := by
  induction l with
  | nil => rfl
  | cons e l ih =>
    cases l with
    | nil => rfl
    | cons e' l => rw [encodeEntries, List.map_cons, ih]; rfl

theorem encodeEntries_map_name (l : List VersionEntry) :
    (encodeEntries l).map Vernaux.vnaName = l.map fun e => e.sym.getVersion := by
  induction l with
  | nil => rfl
  | cons e l ih =>
    cases l with
    | nil => rfl
    | cons e' l => rw [encodeEntries, List.map_cons, ih]; rfl

def readGroups (done : List VersionGroup) (g : VersionGroup) : List (Verneed × List Vernaux) :=
  (placeGroups 0 done g).map fun p => (p.2.1.need p.2.2, encodeEntries p.2.1.entries)

theorem readGroups_map_file (done : List VersionGroup) (g : VersionGroup) :
    (readGroups done g).map (fun r => r.1.vnFile) = (done ++ [g]).map fun d => d.lib.soname := by
  rw [readGroups, ← placeGroups_map 0 done g, List.map_map, List.map_map]
  rfl

theorem readGroups_map_other (done : List VersionGroup) (g : VersionGroup) :
    ((readGroups done g).flatMap Prod.snd).map Vernaux.vnaOther =
      (flatEntries (done ++ [g])).map fun x => x.2.idx := by
  rw [readGroups, flatEntries, List.map_flatMap, List.map_flatMap, List.flatMap_map,
    ← placeGroups_map 0 done g, List.flatMap_map]
  refine List.flatMap_congr fun p _ => ?_
  rw [encodeEntries_map_other, List.map_map]
  rfl

theorem length_encodeFront_le {groups : List VersionGroup} (hne : ∀ g ∈ groups, g.entries ≠ []) :
    (encodeFront groups).length ≤ 2 * (flatEntries groups).length := by
  induction groups with
  | nil => exact Nat.zero_le _
  | cons g groups ih =>
    have hrest := ih fun d hd => hne d (List.mem_cons_of_mem _ hd)
    have hpos := List.length_pos_iff.mpr (hne g List.mem_cons_self)
    rw [encodeFront, List.flatMap_cons, List.length_append, length_encodeGroup,
      VersionGroup.numRecords]
    rw [flatEntries, List.flatMap_cons, List.length_append, List.length_map]
    rw [encodeFront, flatEntries] at hrest
    omega

theorem Progress.entries_ne_nil
    (h : Progress start versym₀ (sortedSymbols ctx) prev st done lib before last) :
    ∀ g ∈ done ++ [VersionGroup.mk lib (before ++ [last])], g.entries ≠ [] := by
  intro g hg
  rcases List.mem_append.mp hg with hg | hg
  · exact h.nonempty g hg
  · obtain rfl := List.mem_singleton.mp hg
    exact List.append_ne_nil_of_right_ne_nil _ (List.cons_ne_nil _ _)

theorem Progress.length_buf_le
    (h : Progress start versym₀ (sortedSymbols ctx) prev st done lib before last) :
    st.buf.length ≤ 2 * (versionedSymbols ctx).length := by
  have hbuf : st.buf.length = (encodeFront (done ++ [⟨lib, before ++ [last]⟩])).length := by
    rw [h.filling.buf, encodeFront_append, List.length_append, List.length_append,
      length_encodeGroup, length_encodeGroup]
  have hdedup : (requiredVersions ctx).length ≤ (versionedSymbols ctx).length := by
    rw [← List.length_map fun p : VersionedSymbol × ℕ => (p.1.lib, p.1.verIdx)]
    exact (List.dedup_sublist _).length_le
  have hfront := length_encodeFront_le h.entries_ne_nil
  have hle := h.length_le
  omega

variable {g : VersionGroup}

theorem Progress.group_sorted
    (h : Progress start versym₀ (sortedSymbols ctx) prev st done lib before last)
    (hg : g ∈ done ++ [⟨lib, before ++ [last]⟩]) :
    g.entries.Pairwise fun e e' => e.sym.verIdx < e'.sym.verIdx := by
  have hsub : (g.entries.map fun e => (g.lib, e)).Sublist
      (flatEntries (done ++ [⟨lib, before ++ [last]⟩])) := by
    rw [flatEntries, List.flatMap_def]
    exact List.sublist_flatten_of_mem (List.mem_map_of_mem hg)
  have hsorted := h.sorted.sublist hsub
  rw [List.pairwise_map] at hsorted
  refine hsorted.imp fun {e e'} hlt => ?_
  rcases Prod.Lex.lt_iff.mp hlt with hlib | ⟨-, hver⟩
  · exact absurd hlib (lt_irrefl _)
  · exact hver

theorem Progress.mem_group
    (h : Progress start versym₀ (sortedSymbols ctx) prev st done lib before last)
    (hg : g ∈ done ++ [⟨lib, before ++ [last]⟩]) {e : VersionEntry}
    (he : e ∈ g.entries) : e.sym.lib = some g.lib ∧ ∃ i, (e.sym, i) ∈ versionedSymbols ctx := by
  have hflat : (g.lib, e) ∈ flatEntries (done ++ [⟨lib, before ++ [last]⟩]) :=
    List.mem_flatMap.mpr ⟨g, hg, List.mem_map_of_mem he⟩
  obtain ⟨hlib, hmem⟩ := h.entries_own _ hflat
  obtain ⟨p, hp, hsym⟩ := List.mem_map.mp hmem
  refine ⟨hlib, p.2, ?_⟩
  rw [← hsym]
  exact (sortedSymbols_perm ctx).subset hp

theorem Progress.names_nodup
    (h : Progress start versym₀ (sortedSymbols ctx) prev st done lib before last)
    (hg : g ∈ done ++ [⟨lib, before ++ [last]⟩])
    (hnames : ctx.DistinctVersions g.lib) :
    ((encodeEntries g.entries).map Vernaux.vnaName).Nodup := by
  rw [encodeEntries_map_name, List.nodup_iff_pairwise_ne, List.pairwise_map]
  refine (h.group_sorted hg).imp_of_mem fun {e e'} he he' hlt heq => ?_
  obtain ⟨hlib, i, hi⟩ := h.mem_group hg he
  obtain ⟨hlib', j, hj⟩ := h.mem_group hg he'
  exact absurd (hnames _ hi _ hj hlib hlib' heq) (Nat.ne_of_lt hlt)

theorem exists_aux_mem {l : List VersionEntry} {e : VersionEntry} (he : e ∈ l) :
    ∃ next, e.aux next ∈ encodeEntries l := by
  induction l with
  | nil => exact absurd he List.not_mem_nil
  | cons e' l ih =>
    cases l with
    | nil =>
      obtain rfl := List.mem_singleton.mp he
      exact ⟨0, List.mem_singleton_self _⟩
    | cons e'' l =>
      rcases List.mem_cons.mp he with rfl | he
      · exact ⟨verneedSize, List.mem_cons_self⟩
      · obtain ⟨next, hnext⟩ := ih he
        exact ⟨next, List.mem_cons_of_mem _ hnext⟩

theorem Progress.imported
    (h : Progress start versym₀ (sortedSymbols ctx) prev st done lib before last)
    (hp : p ∈ versionedSymbols ctx) {owner : SharedLib}
    (howner : p.1.lib = some owner) :
    ImportedAgrees ctx st.versym (readGroups done ⟨lib, before ++ [last]⟩) p owner := by
  obtain ⟨x, hx, hlib, hver, hget⟩ := h.found p ((sortedSymbols_perm ctx).symm.subset hp)
  obtain ⟨g, hg, hmem⟩ := List.mem_flatMap.mp hx
  obtain ⟨e, he, rfl⟩ := List.mem_map.mp hmem
  obtain rfl := Option.some.inj (howner.symm.trans hlib)
  have hplaced := hg
  rw [← placeGroups_map 0 done ⟨lib, before ++ [last]⟩] at hplaced
  obtain ⟨q, hq, rfl⟩ := List.mem_map.mp hplaced
  have hfiles : ((readGroups done ⟨lib, before ++ [last]⟩).map fun r => r.1.vnFile).Nodup := by
    rw [readGroups_map_file, List.nodup_iff_pairwise_ne, List.pairwise_map]
    refine h.libs.imp fun {d d'} hlt heq => ?_
    rw [SharedLib.sonameKey, SharedLib.sonameKey, heq] at hlt
    exact lt_irrefl _ hlt
  have hr : (q.2.1.need q.2.2, encodeEntries q.2.1.entries) ∈
      readGroups done ⟨lib, before ++ [last]⟩ := List.mem_map.mpr ⟨q, hq, rfl⟩
  obtain ⟨next, hnext⟩ := exists_aux_mem he
  obtain ⟨hsymlib, -⟩ := h.mem_group hg he
  have hname : e.sym.getVersion = p.1.getVersion := by
    rw [VersionedSymbol.getVersion, VersionedSymbol.getVersion, hsymlib, howner, hver]
  refine ⟨_, hr, rfl, fun r' hr' hfile => List.inj_on_of_nodup_map hfiles hr' hr hfile,
    e.aux next, hnext, hname, hget, fun hnames a' ha' heq => ?_⟩
  exact List.inj_on_of_nodup_map (h.names_nodup hg hnames) ha' hnext heq

end Filled

variable {t : VersionTables}

theorem definitions_agree
    (h : VerdefDone ctx t.verdef versym) (hlt : ctx.versionDefinitions.length + 1 < 2 ^ 16) :
    ∃ defs, t.readDefinitions = some defs ∧ defs.length = t.verdef.shInfo ∧
      t.verdef.buf.length ≤ ctx.versionDefinitions.length + 1 ∧
      (defs.map Verdef.vdNdx).Sublist (List.range' 1 (ctx.versionDefinitions.length + 1)) := by
  by_cases hdefs : ctx.versionDefinitions = []
  · obtain ⟨hsec, -⟩ := h.empty hdefs
    refine ⟨[], ?_, by rw [hsec]; rfl, by rw [hsec]; exact Nat.zero_le _, List.nil_sublist _⟩
    rw [VersionTables.readDefinitions, hsec, if_pos rfl]
  · have hbuf := h.buf hdefs
    have hlength := length_chainDefs (Verdef.mk' ctx.basename 1 verFlgBase) 2
      ctx.versionDefinitions
    have hne : t.verdef.buf ≠ [] := by
      rw [hbuf]
      exact List.ne_nil_of_length_pos (by rw [hlength]; exact Nat.succ_pos _)
    refine ⟨_, ?_, hlength.trans (h.shInfo hdefs).symm, ?_, ?_⟩
    · rw [VersionTables.readDefinitions, if_neg hne, VersionTables.definitions_eq rfl hbuf,
        Option.map_some, placeDefs_map_snd]
    · rw [hbuf, hlength]
    · have hndx : (List.range' 2 ctx.versionDefinitions.length).map (· % 2 ^ 16) =
          List.range' 2 ctx.versionDefinitions.length := by
        refine (List.map_congr_left fun i hi => ?_).trans (List.map_id _)
        rw [List.mem_range'_1] at hi
        exact Nat.mod_eq_of_lt (by omega)
      rw [chainDefs_map_ndx, hndx, List.range'_succ]
      exact List.Sublist.refl _

theorem requirements_agree (ht : t.verneed = constructVerneed ctx versym)
    (hlt : ctx.versionDefinitions.length + (requiredVersions ctx).length + 1 < 2 ^ 16) :
    ∃ reqs, t.readRequirements = some reqs ∧ reqs.length = t.verneed.shInfo ∧
      (∀ r ∈ reqs, r.2.length = r.1.vnCnt) ∧
      t.verneed.buf.length ≤ 2 * (versionedSymbols ctx).length ∧
      (∃ k, (reqs.flatMap Prod.snd).map Vernaux.vnaOther =
        List.range' (ctx.versionDefinitions.length + 2) k) ∧
      ∀ p ∈ versionedSymbols ctx, ∀ lib, p.1.lib = some lib →
        ImportedAgrees ctx t.versym reqs p lib := by
  by_cases hsyms : versionedSymbols ctx = []
  · have hbuf : t.verneed.buf = [] := by
      rw [ht, constructVerneed, if_pos hsyms]
    have hinfo : t.verneed.shInfo = 0 := by
      rw [ht, constructVerneed, if_pos hsyms]
    refine ⟨[], by rw [VersionTables.readRequirements, if_pos hbuf], hinfo.symm,
      fun r hr => absurd hr List.not_mem_nil, by rw [hbuf]; exact Nat.zero_le _, ⟨0, rfl⟩,
      fun p hp => ?_⟩
    rw [hsyms] at hp
    exact absurd hp List.not_mem_nil
  · obtain ⟨prev, done, lib, before, last, h⟩ := constructVerneed_progress versym hsyms
    rw [← ht] at h
    have hstart : firstVeridx ctx = ctx.versionDefinitions.length + 1 := by
      rw [firstVeridx, verNdxLastReserved, Nat.add_comm]
      exact Nat.mod_eq_of_lt (by omega)
    have hne : t.verneed.buf ≠ [] := by
      rw [h.filling.buf]
      exact List.append_ne_nil_of_right_ne_nil _ (List.cons_ne_nil _ _)
    refine ⟨readGroups done ⟨lib, before ++ [last]⟩, ?_, ?_, ?_, h.length_buf_le,
      ⟨(flatEntries (done ++ [⟨lib, before ++ [last]⟩])).length, ?_⟩,
      fun p hp owner howner => h.imported hp howner⟩
    · rw [VersionTables.readRequirements, if_neg hne,
        VersionTables.requirements_eq h.filling.buf h.entries_ne_nil]
      rfl
    · rw [h.filling.shInfo, ← List.length_map fun r : Verneed × List Vernaux => r.1.vnFile,
        readGroups_map_file, List.length_map, List.length_append]
      rfl
    · intro r hr
      obtain ⟨q, -, rfl⟩ := List.mem_map.mp hr
      exact length_encodeEntries _
    · rw [readGroups_map_other, h.indices_eq (by rw [hstart]; omega), hstart]

theorem objects_agree
    (h : VerdefDone ctx t.verdef versym) (ht : t.verneed = constructVerneed ctx versym)
    (hversym : t.versym ≠ []) (hp : p ∈ ctx.indexed)
    (hlib : p.1.lib = none) : t.versym[p.2]? = some (objectIndex ctx p.1) := by
  obtain ⟨-, hpos, hlt⟩ := mem_indexed hp
  have hresize : (resizeVersym ctx.dynsymSize versym)[p.2]? = some (objectIndex ctx p.1) := by
    by_cases hdefs : ctx.versionDefinitions = []
    · rw [(h.empty hdefs).2, getElem?_resizeVersym_nil hpos hlt, objectIndex, if_pos hdefs]
    · rw [getElem?_resizeVersym_self (h.length hdefs) hpos, h.versym hdefs p hp,
        objectIndex, if_neg hdefs]
  by_cases hsyms : versionedSymbols ctx = []
  · have heq : t.versym = versym := by
      rw [VersionTables.versym, ht, constructVerneed, if_pos hsyms]
    by_cases hdefs : ctx.versionDefinitions = []
    · exact absurd (heq.trans (h.empty hdefs).2) hversym
    · rw [heq, h.versym hdefs p hp, objectIndex, if_neg hdefs]
  · obtain ⟨prev, done, lib, before, last, hprogress⟩ :=
      constructVerneed_progress versym hsyms
    have hfresh : p.2 ∉ (sortedSymbols ctx).map Prod.snd := by
      intro hmem
      obtain ⟨q, hq, heq⟩ := List.mem_map.mp hmem
      obtain ⟨hindexed, ⟨owner, -, howner⟩, -⟩ :=
        mem_versionedSymbols ((sortedSymbols_perm ctx).subset hq)
      have hnodup : (ctx.indexed.map Prod.snd).Nodup := by
        rw [indexed_map_snd]
        exact List.nodup_range'
      obtain rfl := List.inj_on_of_nodup_map hnodup hindexed hp heq
      rw [hlib] at howner
      cases howner
    rw [VersionTables.versym, ht, hprogress.kept _ hfresh, hresize]

/-- The version tables agree, where a symbol of an object file has its own index if
the output defines versions. -/
theorem versions_agree (ctx : VersionContext)
    (hdynsym : ctx.versionDefinitions ≠ [] → ctx.dynsymSize ≠ 0)
    (hlt : ctx.versionDefinitions.length + (requiredVersions ctx).length + 1 < 2 ^ 16) :
    ∃ t defs reqs, constructVersions ctx = some t ∧
      VersionsAgree ctx (objectIndex ctx) t defs reqs := by
  obtain ⟨⟨sec, versym⟩, hverdef⟩ : ∃ p, constructVerdef ctx = some p := by
    by_cases hdefs : ctx.versionDefinitions = []
    · exact ⟨_, by rw [constructVerdef, if_pos hdefs]⟩
    · exact ⟨_, by rw [constructVerdef, if_neg hdefs, if_neg (hdynsym hdefs)]⟩
  have hdone := constructVerdef_spec hverdef
  let t : VersionTables := ⟨sec, constructVerneed ctx versym⟩
  obtain ⟨defs, hdefs, hdefsCount, hdefsFit, hndx⟩ :=
    definitions_agree (t := t) hdone (by omega)
  obtain ⟨reqs, hreqs, hreqsCount, hauxs, hreqsFit, ⟨k, hother⟩, himported⟩ :=
    requirements_agree (t := t) rfl hlt
  refine ⟨t, defs, reqs, by rw [constructVersions, hverdef]; rfl, ⟨hdefs, hreqs,
    hdefsCount, hdefsFit, hreqsCount, hauxs, hreqsFit, ?_, himported,
    fun hversym p hp hlib => objects_agree hdone rfl hversym hp hlib⟩⟩
  have hrange : List.range' 1 (ctx.versionDefinitions.length + 1) ++
      List.range' (ctx.versionDefinitions.length + 2) k =
        List.range' 1 (ctx.versionDefinitions.length + 1 + k) := by
    have happend := @List.range'_append_1 1 (ctx.versionDefinitions.length + 1) k
    rwa [Nat.add_comm 1 (ctx.versionDefinitions.length + 1)] at happend
  rw [hother]
  refine List.Nodup.sublist (hndx.append_right _) ?_
  rw [hrange]
  exact List.nodup_range'

def exampleLib : SharedLib where
  soname := [108]
  versionStrings := [[], [], [86, 49], [86, 50]]

def exampleVersions (versionDefinitions : List (List UInt8)) : VersionContext where
  basename := [97]
  versionDefinitions := versionDefinitions
  dsos := [exampleLib]
  dsos_unique := List.nodup_singleton _
  keepDynsym := false
  symbols := [⟨none, 0⟩, ⟨some exampleLib, 3⟩, ⟨some exampleLib, 2⟩]
  owned := by decide

theorem versions_agree_exampleVersions :
    ∃ t defs reqs, constructVersions (exampleVersions [[88]]) = some t ∧
      VersionsAgree (exampleVersions [[88]]) (objectIndex (exampleVersions [[88]])) t defs reqs :=
  versions_agree (exampleVersions [[88]]) (fun _ => by decide) (by decide)

/-- Without version definitions a symbol of an object file has the index of global
symbols and not its own. -/
theorem not_versions_agree_verIdx :
    ¬ ∀ ctx t, constructVersions ctx = some t →
      ∃ defs reqs, VersionsAgree ctx VersionedSymbol.verIdx t defs reqs := by
  intro hall
  have hverdef : constructVerdef (exampleVersions []) = some ({}, []) := rfl
  obtain ⟨defs, reqs, h⟩ := hall (exampleVersions [])
    ⟨{}, constructVerneed (exampleVersions []) []⟩ rfl
  obtain ⟨r, -, -, -, a, -, -, hget, -⟩ := h.imported (⟨some exampleLib, 3⟩, 2)
    (by decide) exampleLib rfl
  have hne : (constructVerneed (exampleVersions []) []).versym ≠ [] := by
    intro hnil
    rw [VersionTables.versym, hnil] at hget
    cases hget
  have hobject : (⟨none, 0⟩, 1) ∈ (exampleVersions []).indexed := by decide
  have hown := h.objects hne _ hobject rfl
  have hglobal := objects_agree
    (t := ⟨{}, constructVerneed (exampleVersions []) []⟩) (constructVerdef_spec hverdef)
    rfl hne hobject rfl
  exact absurd (Option.some.inj (hglobal.symm.trans hown)) (by decide)

end Mold.Elf
