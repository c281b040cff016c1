import Mold.MachO.MarkLiveInvariants

/-!
# The dylibs of a link and their install names

`dedup_dylibs_by_install_name` runs once, when all inputs that are named on the
command line have been read: of the dylibs with one install name it keeps the
first.  Dylibs without an install name, and the main executable that
`-bundle_loader` names, are always kept.  Later, linker options of extracted
archive members append dylibs again, and `collect_hoisted_dylibs` appends the
system libraries that these reexport; only the latter looks at install names.
-/

namespace Mold.MachO.Resolver

open Mold.Lib

variable {ν : Type*}

/-- The variables of `dedup_dylibs_by_install_name`, with the records of the
dylibs, which it merges. -/
structure DedupState (ν : Type*) where
  dylib : ℕ → DylibFile ν
  canonicalByInstall : String → Option ℕ := fun _ => none
  redirect : ℕ → ℕ := id
  kept : List ℕ := []

def mergeFlags (canonical file : DylibFile ν) : DylibFile ν :=
  { canonical with
    isAlive := canonical.isAlive || file.isAlive
    isWeak := canonical.isWeak && file.isWeak
    isReexported := canonical.isReexported || file.isReexported }

/-- One iteration of the first loop of `dedup_dylibs_by_install_name`. -/
def dedupDylib (s : DedupState ν) (d : ℕ) : DedupState ν :=
  let file := s.dylib d
  if file.isMainExecutable || file.installName = "" then
    { s with kept := s.kept ++ [d] }
  else
    match s.canonicalByInstall file.installName with
    | none =>
      { s with
        canonicalByInstall :=
          Function.update s.canonicalByInstall file.installName (some d)
        kept := s.kept ++ [d] }
    | some canonical =>
      { s with
        redirect := Function.update s.redirect d canonical
        dylib := Function.update s.dylib canonical (mergeFlags (s.dylib canonical) file) }

/-- `dedup_dylibs_by_install_name`: the dylibs that are kept and the records of
all dylibs afterwards. -/
def dedupDylibsByInstallName (dylib : ℕ → DylibFile ν) (dylibs : List ℕ) :
    List ℕ × (ℕ → DylibFile ν) :=
  let s := dylibs.foldl dedupDylib { dylib }
  (s.kept, fun d =>
    if d ∈ s.kept then
      { s.dylib d with
        hoistedLibs := ((s.dylib d).hoistedLibs.map s.redirect).eraseDups }
    else s.dylib d)

def Link.ReadFrom (L : Link ν) (dylib : ℕ → DylibFile ν) (read : List ℕ) :
    Prop :=
  (L.dylibs, L.files.dylib) = dedupDylibsByInstallName dylib read

/-! ## Listed install names -/

def importable (dylib : ℕ → DylibFile ν) (dylibs : List ℕ) : List ℕ :=
  dylibs.filter fun d => !(dylib d).isMainExecutable

def installNames (dylib : ℕ → DylibFile ν) (dylibs : List ℕ) : List String :=
  (importable dylib dylibs).map fun d => (dylib d).installName

section Names

variable {dylib dylib' : ℕ → DylibFile ν}

@[simp] theorem installNames_append (l l' : List ℕ) :
    installNames dylib (l ++ l') = installNames dylib l ++ installNames dylib l' := by
  simp [installNames, importable]

theorem mem_installNames {l : List ℕ} {name : String} :
    name ∈ installNames dylib l ↔ ∃ d ∈ l,
      (dylib d).isMainExecutable = false ∧ (dylib d).installName = name := by
  simp [installNames, importable, and_assoc]

theorem installNames_singleton {d : ℕ} (h : (dylib d).isMainExecutable = false) :
    installNames dylib [d] = [(dylib d).installName] := by
  simp [installNames, importable, h]

theorem installNames_singleton_of_main {d : ℕ}
    (h : (dylib d).isMainExecutable = true) : installNames dylib [d] = [] := by
  simp [installNames, importable, h]

theorem installNames_congr (hname : ∀ d, (dylib' d).installName = (dylib d).installName)
    (hmain : ∀ d, (dylib' d).isMainExecutable = (dylib d).isMainExecutable)
    (l : List ℕ) : installNames dylib' l = installNames dylib l := by
  simp [installNames, importable, hname, hmain]

end Names

section Dedup

variable {dylib : ℕ → DylibFile ν}

/-- The invariant of the first loop over the dylibs `seen`.  The map knows the
install names of the kept dylibs, and of these only the empty one can occur
twice. -/
structure DedupInvariant (dylib : ℕ → DylibFile ν) (seen : List ℕ) (s : DedupState ν) : Prop where
  installName_eq : ∀ d, (s.dylib d).installName = (dylib d).installName
  isMainExecutable_eq : ∀ d, (s.dylib d).isMainExecutable = (dylib d).isMainExecutable
  canonical_of_mem : ∀ name ∈ installNames dylib s.kept, name ≠ "" →
    (s.canonicalByInstall name).isSome = true
  named_nodup : ((installNames dylib s.kept).filter (· ≠ "")).Nodup
  unnamed : (installNames dylib s.kept).filter (· = "") =
    (installNames dylib seen).filter (· = "")

theorem DedupInvariant.step {seen : List ℕ} {s : DedupState ν}
    (h : DedupInvariant dylib seen s) (d : ℕ) :
    DedupInvariant dylib (seen ++ [d]) (dedupDylib s d) := by
  rw [dedupDylib, h.isMainExecutable_eq, h.installName_eq]
  cases hmain : (dylib d).isMainExecutable with
  | true =>
    have hnames := installNames_singleton_of_main hmain
    simp only [Bool.true_or, if_true]
    refine ⟨h.installName_eq, h.isMainExecutable_eq, ?_, ?_, ?_⟩
    · simpa [hnames] using h.canonical_of_mem
    · simpa [hnames] using h.named_nodup
    · simpa [hnames] using h.unnamed
  | false =>
    have hnames := installNames_singleton hmain
    by_cases hempty : (dylib d).installName = ""
    · simp only [hempty, Bool.false_or, decide_true, if_true]
      refine ⟨h.installName_eq, h.isMainExecutable_eq, ?_, ?_, ?_⟩
      · intro name hname hne
        simp only [installNames_append, hnames, hempty, List.mem_append,
          List.mem_singleton, hne, or_false] at hname
        exact h.canonical_of_mem name hname hne
      · simpa [hnames, hempty] using h.named_nodup
      · simpa [hnames, hempty] using h.unnamed
    · simp only [hempty, Bool.false_or, decide_false, Bool.false_eq_true, if_false]
      cases hcanonical : s.canonicalByInstall (dylib d).installName with
      | none =>
        have hfresh : (dylib d).installName ∉ installNames dylib s.kept := by
          intro hmem
          have hsome := h.canonical_of_mem _ hmem hempty
          rw [hcanonical] at hsome
          cases hsome
        refine ⟨h.installName_eq, h.isMainExecutable_eq, ?_, ?_, ?_⟩
        · intro name hname hne
          simp only [installNames_append, hnames, List.mem_append, List.mem_singleton] at hname
          by_cases heq : name = (dylib d).installName
          · simp [heq]
          · simp only [heq, or_false] at hname
            simpa [Function.update_of_ne heq] using h.canonical_of_mem name hname hne
        · rw [installNames_append, hnames, List.filter_append, List.nodup_append_comm]
          simpa [hempty, hfresh] using h.named_nodup
        · simpa [hnames, hempty] using h.unnamed
      | some canonical =>
        refine ⟨?_, ?_, h.canonical_of_mem, h.named_nodup, ?_⟩
        · intro e
          by_cases he : e = canonical
          · subst he
            simpa [mergeFlags] using h.installName_eq e
          · simpa [Function.update_of_ne he] using h.installName_eq e
        · intro e
          by_cases he : e = canonical
          · subst he
            simpa [mergeFlags] using h.isMainExecutable_eq e
          · simpa [Function.update_of_ne he] using h.isMainExecutable_eq e
        · simpa [hnames, hempty] using h.unnamed

theorem DedupInvariant.foldl (read seen : List ℕ) {s : DedupState ν}
    (h : DedupInvariant dylib seen s) :
    DedupInvariant dylib (seen ++ read) (read.foldl dedupDylib s) := by
  induction read generalizing seen s with
  | nil => simpa using h
  | cons d read ih =>
    have hrest := ih (seen ++ [d]) (h.step d)
    rw [List.append_assoc, List.singleton_append] at hrest
    exact hrest

theorem Link.ReadFrom.installNames_nodup {L : Link ν} {read : List ℕ} (h : L.ReadFrom dylib read)
    (hunnamed : ((installNames dylib read).filter (· = "")).length ≤ 1) :
    (installNames L.files.dylib L.dylibs).Nodup := by
  have hinv : DedupInvariant dylib ([] ++ read) (read.foldl dedupDylib { dylib }) := by
    apply DedupInvariant.foldl
    exact ⟨fun _ => rfl, fun _ => rfl, by simp [installNames, importable],
      by simp [installNames, importable], rfl⟩
  rw [List.nil_append] at hinv
  have hkept : L.dylibs = (read.foldl dedupDylib { dylib }).kept :=
    congrArg Prod.fst h
  have hfiles : L.files.dylib = (dedupDylibsByInstallName dylib read).2 :=
    congrArg Prod.snd h
  have hnames : installNames L.files.dylib L.dylibs =
      installNames dylib (read.foldl dedupDylib { dylib }).kept := by
    rw [hkept]
    apply installNames_congr
    · intro d
      rw [hfiles, ← hinv.installName_eq d]
      simp only [dedupDylibsByInstallName]
      split <;> rfl
    · intro d
      rw [hfiles, ← hinv.isMainExecutable_eq d]
      simp only [dedupDylibsByInstallName]
      split <;> rfl
  rw [hnames, List.nodup_iff_count_le_one]
  intro name
  by_cases hempty : name = ""
  · rw [← hinv.unnamed, ← List.countP_eq_length_filter] at hunnamed
    subst hempty
    calc
      _ = List.countP (· = "") (installNames dylib
            (read.foldl dedupDylib { dylib }).kept) := by
          rw [List.count]
          congr
      _ ≤ 1 := hunnamed
  · have hcount := List.nodup_iff_count_le_one.mp hinv.named_nodup name
    rwa [List.count_filter (by simp [hempty])] at hcount

end Dedup

section Hoist

variable {F : Files ν}

/-- The install names of `pushed` are new: they are distinct, not among `seen`,
and not empty. -/
structure NewNames (F : Files ν) (seen : List String) (pushed : List ℕ) : Prop where
  nodup : (pushed.map fun d => (F.dylib d).installName).Nodup
  fresh : ∀ d ∈ pushed, (F.dylib d).installName ∉ seen
  named : ∀ d ∈ pushed, (F.dylib d).installName ≠ ""

theorem newNames_hoistLibs (libs : List ℕ) (seen : List String)
    (hnamed : ∀ h ∈ libs, (F.dylib h).installName ≠ "") :
    NewNames F seen (hoistLibs F libs seen).1 ∧
      ∀ name, name ∈ (hoistLibs F libs seen).2 ↔ name ∈ seen ∨
        ∃ d ∈ (hoistLibs F libs seen).1, (F.dylib d).installName = name := by
  induction libs generalizing seen with
  | nil => exact ⟨⟨by simp [hoistLibs], by simp [hoistLibs],
      by simp [hoistLibs]⟩, by simp [hoistLibs]⟩
  | cons h libs ih =>
    have hlibs : ∀ h ∈ libs, (F.dylib h).installName ≠ "" :=
      fun h hh => hnamed h (List.mem_cons_of_mem _ hh)
    rw [hoistLibs]
    by_cases hseen : (F.dylib h).installName ∈ seen
    · rw [if_pos hseen]
      exact ih seen hlibs
    · rw [if_neg hseen]
      obtain ⟨hnew, hmem⟩ := ih ((F.dylib h).installName :: seen) hlibs
      refine ⟨⟨?_, ?_, ?_⟩, ?_⟩
      · rw [List.map_cons, List.nodup_cons]
        refine ⟨?_, hnew.nodup⟩
        intro hname
        obtain ⟨d, hd, heq⟩ := List.mem_map.mp hname
        exact hnew.fresh d hd (by simp [heq])
      · intro d hd
        rcases List.mem_cons.mp hd with rfl | hd
        · exact hseen
        · exact fun hname => hnew.fresh d hd (List.mem_cons_of_mem _ hname)
      · intro d hd
        rcases List.mem_cons.mp hd with rfl | hd
        · exact hnamed d List.mem_cons_self
        · exact hnew.named d hd
      · intro name
        rw [hmem name]
        simp only [List.mem_cons, exists_eq_or_imp, or_assoc]
        constructor
        · rintro (rfl | h | h)
          · exact Or.inr (Or.inl rfl)
          · exact Or.inl h
          · exact Or.inr (Or.inr h)
        · rintro (h | rfl | h)
          · exact Or.inr (Or.inl h)
          · exact Or.inl rfl
          · exact Or.inr (Or.inr h)

theorem NewNames.append {seen seen' : List String} {l l' : List ℕ}
    (h : NewNames F seen l) (h' : NewNames F seen' l')
    (hseen : ∀ name, name ∈ seen' ↔ name ∈ seen ∨
      ∃ d ∈ l, (F.dylib d).installName = name) : NewNames F seen (l ++ l') where
  nodup := by
    rw [List.map_append, List.nodup_append]
    refine ⟨h.nodup, h'.nodup, ?_⟩
    rintro name hname name' hname' rfl
    obtain ⟨d, hd, heq⟩ := List.mem_map.mp hname
    obtain ⟨d', hd', heq'⟩ := List.mem_map.mp hname'
    exact h'.fresh d' hd' ((hseen _).mpr (Or.inr ⟨d, hd, heq.trans heq'.symm⟩))
  fresh d hd := by
    rcases List.mem_append.mp hd with hd | hd
    · exact h.fresh d hd
    · exact fun hname => h'.fresh d hd ((hseen _).mpr (Or.inl hname))
  named d hd := by
    rcases List.mem_append.mp hd with hd | hd
    · exact h.named d hd
    · exact h'.named d hd

theorem newNames_hoistLoop
    (hnamed : ∀ d, ∀ h ∈ (F.dylib d).hoistedLibs, (F.dylib h).installName ≠ "")
    (fuel : ℕ) (todo : List ℕ) (seen : List String) :
    NewNames F seen (hoistLoop F fuel todo seen) := by
  induction fuel generalizing todo seen with
  | zero => exact ⟨by simp [hoistLoop], by simp [hoistLoop], by simp [hoistLoop]⟩
  | succ fuel ih =>
    cases todo with
    | nil =>
      exact ⟨by simp [hoistLoop], by simp [hoistLoop], by simp [hoistLoop]⟩
    | cons d todo =>
      obtain ⟨hnew, hmem⟩ := newNames_hoistLibs (F := F) (F.dylib d).hoistedLibs seen (hnamed d)
      exact hnew.append (ih _ _) hmem

theorem installNames_collectHoistedDylibs {L : Link ν} {dylibs : List ℕ}
    (h : (installNames L.files.dylib dylibs).Nodup) :
    (installNames L.files.dylib (L.collectHoistedDylibs dylibs)).Nodup := by
  have hnew := newNames_hoistLoop L.hoisted_named L.numDylibs dylibs
    ((dylibs.map fun d => (L.files.dylib d).installName).filter (· ≠ ""))
  rw [Link.collectHoistedDylibs, installNames_append, List.nodup_append]
  refine ⟨h, ?_, ?_⟩
  · exact hnew.nodup.sublist (List.filter_sublist.map _)
  · rintro name hname name' hname' rfl
    obtain ⟨d, hd, -, rfl⟩ := mem_installNames.mp hname
    obtain ⟨e, he, -, heq⟩ := mem_installNames.mp hname'
    apply hnew.fresh e he
    rw [List.mem_filter, heq]
    refine ⟨List.mem_map_of_mem hd, ?_⟩
    rw [← heq]
    simpa using hnew.named e he

end Hoist

section Runs

variable [DecidableEq ν] {L : Link ν}

/-- The dylibs that the linker options push have distinct install names that
are not listed yet. -/
def Link.FreshWaves (L : Link ν) : State ν → List (AutolinkWave ν) → Prop
  | _, [] => True
  | s, w :: waves =>
    (installNames L.files.dylib w.dylibs).Nodup ∧
      (∀ name ∈ installNames L.files.dylib w.dylibs, name ∉ installNames L.files.dylib s.dylibs) ∧
      L.FreshWaves (L.loadWave s w) waves

instance Link.decidableFreshWaves (L : Link ν) : (s : State ν) →
    (waves : List (AutolinkWave ν)) → Decidable (L.FreshWaves s waves)
  | _, [] => isTrue trivial
  | s, w :: waves =>
    have := L.decidableFreshWaves (L.loadWave s w) waves
    inferInstanceAs (Decidable (_ ∧ _ ∧ _))

def Link.AutolinkFresh (L : Link ν) : Config ν → Prop
  | (.drain _ (_ :: _), s) => L.FreshWaves s (L.autolink s)
  | _ => True

instance (L : Link ν) : DecidablePred L.AutolinkFresh := by
  intro c
  unfold Link.AutolinkFresh
  split <;> infer_instance

def Link.NamesDistinct (L : Link ν) (s : State ν) : Prop :=
  (installNames L.files.dylib s.dylibs).Nodup

theorem Link.NamesDistinct.foldl_loadWave (waves : List (AutolinkWave ν))
    {s : State ν} (hs : L.NamesDistinct s) (hfresh : L.FreshWaves s waves) :
    L.NamesDistinct (waves.foldl L.loadWave s) := by
  induction waves generalizing s with
  | nil => exact hs
  | cons w waves ih =>
    obtain ⟨hnodup, hlisted, hrest⟩ := hfresh
    apply ih _ hrest
    apply installNames_collectHoistedDylibs
    rw [installNames_append, List.nodup_append]
    refine ⟨hs, hnodup, ?_⟩
    rintro name hname name' hname' rfl
    exact hlisted name hname' hname

theorem Link.NamesDistinct.step {c c' : Config ν} (hc : L.NamesDistinct c.2)
    (hfresh : L.AutolinkFresh c) (h : L.step c = some c') :
    L.NamesDistinct c'.2 := by
  apply L.step_invariant (P := L.NamesDistinct) _ _ _ _ _ _ hc h
  · intro s x hs
    rcases L.maybeExtractArchiveMember_cases s x with
      ⟨isLoaded, pending, -, heq⟩ | ⟨isLoaded, pending, -, m, -, -, -, heq⟩
    · rw [heq]
      exact hs
    · rw [heq]
      exact hs
  · exact fun s x hs => hs
  · intro s x hs
    rw [Link.NamesDistinct, markOwner_dylibs]
    exact hs
  · exact fun s liveObjs hs => hs
  · exact fun s hs => hs
  · intro scanner x pending s hcontrol hdrain hs
    obtain ⟨control, t⟩ := c
    cases hcontrol
    obtain ⟨objBegin, dylibBegin, -, rfl⟩ := drain_eq_some hdrain
    exact Link.NamesDistinct.foldl_loadWave _ hs hfresh

theorem Link.namesDistinct_of_reaches {order : List ℕ} {c : Config ν}
    (hread : (installNames L.files.dylib L.dylibs).Nodup)
    (h : Reaches L.step (L.start order) c)
    (hfresh : ∀ c, Reaches L.step (L.start order) c → L.AutolinkFresh c) :
    L.NamesDistinct c.2 := by
  apply h.invariant (P := fun c => L.NamesDistinct c.2)
  · exact hread
  · exact fun b c hreach hb hstep => hb.step (hfresh b hreach) hstep

end Runs

end Mold.MachO.Resolver
