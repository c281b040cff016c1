import Mold.Elf.ArchiveExtraction

/-!
# The result of archive extraction

For files with distinct small priorities every run of `do_resolve_symbols` ends
in the same result.  The live files are the least set that is closed under the
references, a section is left if all its groups are kept by its file, and every
symbol belongs to its definition of least rank in what is left.
-/

namespace Mold.Elf

open Lib

variable {ν : Type*}

theorem groupOwners_spec [DecidableEq ν] (updates : List (ν × ℕ)) (s : ν) :
    (∀ u ∈ updates, u.1 = s → groupOwners updates s ≤ u.2) ∧ groupOwners updates s ≤ 2 ^ 32 - 1 ∧
      (groupOwners updates s = 2 ^ 32 - 1 ∨
        ∃ u ∈ updates, u.1 = s ∧ groupOwners updates s = u.2) := by
  induction updates using List.reverseRecOn with
  | nil => exact ⟨by simp, le_rfl, Or.inl rfl⟩
  | append_singleton updates u ih =>
    obtain ⟨hle, hbound, hmem⟩ := ih
    have hstep : groupOwners (updates ++ [u]) =
        Function.update (groupOwners updates) u.1 (min (groupOwners updates u.1) u.2) := by
      rw [groupOwners, List.foldl_append]
      rfl
    rw [hstep]
    by_cases hs : u.1 = s
    · subst hs
      rw [Function.update_self]
      refine ⟨?_, le_trans (min_le_left _ _) hbound, ?_⟩
      · intro v hv hvs
        rcases List.mem_append.mp hv with hv | hv
        · exact le_trans (min_le_left _ _) (hle v hv hvs)
        · rw [List.mem_singleton.mp hv]
          exact min_le_right _ _
      · rcases min_choice (groupOwners updates u.1) u.2 with hmin | hmin
        · rw [hmin]
          rcases hmem with hmem | ⟨v, hv, hvs⟩
          · exact Or.inl hmem
          · exact Or.inr ⟨v, List.mem_append_left _ hv, hvs⟩
        · exact Or.inr ⟨u, List.mem_append_right _ (List.mem_singleton_self u), rfl, hmin⟩
    · rw [Function.update_of_ne (Ne.symm hs)]
      refine ⟨?_, hbound, ?_⟩
      · intro v hv hvs
        rcases List.mem_append.mp hv with hv | hv
        · exact hle v hv hvs
        · rw [List.mem_singleton.mp hv] at hvs
          exact absurd hvs hs
      · rcases hmem with hmem | ⟨v, hv, hvs⟩
        · exact Or.inl hmem
        · exact Or.inr ⟨v, List.mem_append_left _ hv, hvs⟩

theorem groupOwners_congr [DecidableEq ν] {updates updates' : List (ν × ℕ)}
    (h : ∀ u, u ∈ updates ↔ u ∈ updates') : groupOwners updates = groupOwners updates' := by
  have hle : ∀ us us' : List (ν × ℕ), (∀ u, u ∈ us ↔ u ∈ us') →
      ∀ s, groupOwners us s ≤ groupOwners us' s := by
    intro us us' hiff s
    obtain ⟨hmin, hbound, -⟩ := groupOwners_spec us s
    obtain ⟨-, -, hmem⟩ := groupOwners_spec us' s
    rcases hmem with hmem | ⟨u, hu, hus, hmem⟩
    · rw [hmem]
      exact hbound
    · rw [hmem]
      exact hmin u ((hiff u).mpr hu) hus
  funext s
  exact le_antisymm (hle _ _ h s) (hle _ _ (fun u => (h u).symm) s)

theorem map_kill_kill (isec : Option (Option ObjectFile.Section)) :
    (isec.map (Option.map ObjectFile.Section.kill)).map (Option.map ObjectFile.Section.kill) =
      isec.map (Option.map ObjectFile.Section.kill) := by
  rcases isec with _ | _ | isec <;> rfl

theorem getElem?_killSections (sections : List (Option ObjectFile.Section))
    (members : List ℕ) (k : ℕ) :
    (killSections sections members)[k]? =
      if k ∈ members then sections[k]?.map (Option.map ObjectFile.Section.kill)
      else sections[k]? := by
  induction members generalizing sections with
  | nil => rfl
  | cons i members ih =>
    change (killSections (sections.modify i _) members)[k]? = _
    rw [ih, List.getElem?_modify]
    by_cases hik : i = k
    · subst hik
      simp only [List.mem_cons, true_or, if_true]
      split
      · exact map_kill_kill _
      · rfl
    · have hki : k ≠ i := Ne.symm hik
      simp [hik, hki]

theorem getElem?_killGroups (owner : ν → ℕ) (file : ObjectFile ν) (k : ℕ) :
    (file.killGroups owner).sections[k]? =
      if ∃ ref ∈ file.comdatGroups, owner ref.signature ≠ file.priority ∧ k ∈ ref.members
      then file.sections[k]?.map (Option.map ObjectFile.Section.kill)
      else file.sections[k]? := by
  rw [ObjectFile.killGroups]
  simp only
  generalize file.sections = sections
  induction file.comdatGroups generalizing sections with
  | nil => simp
  | cons ref refs ih =>
    rw [List.foldl_cons, ih]
    by_cases howner : owner ref.signature ≠ file.priority
    · rw [if_pos howner, getElem?_killSections]
      simp only [List.mem_cons, exists_eq_or_imp, howner, ne_eq, not_false_eq_true, true_and]
      by_cases hk : k ∈ ref.members
      · rw [if_pos hk, map_kill_kill, if_pos (Or.inl hk), ite_self]
      · simp only [hk, if_false, false_or]
    · rw [if_neg howner]
      simp only [List.mem_cons, exists_eq_or_imp, howner, false_and, false_or]

/-! ## The marking -/

namespace ResolveInput

variable [DecidableEq ν] {L : ResolveInput ν} {file : FileRef}

theorem owner_mem {x : ν} (h : L.owner x = some file) : file ∈ L.ctx.files := by
  obtain ⟨claim, hclaim, hfile⟩ := Option.bind_eq_some_iff.mp h
  obtain ⟨-, file', hmem, hclaims⟩ := Context.mem_of_definition hclaim
  obtain ⟨esym, hbacked⟩ := Context.exists_backed hclaims
  obtain rfl := Option.some.inj (hbacked.record_file.symm.trans hfile)
  exact hmem

theorem Extracted.mem {weak : FileRef → Bool}
    (h : L.Extracted weak file) : file ∈ L.ctx.files := by
  cases h with
  | initial hfile _ => exact hfile
  | named _ howner => exact owner_mem howner
  | reference _ _ howner => exact owner_mem howner

section Preliminary

variable (h : L.ctx.PrioritiesApart) {first : List (Claim ν)}
  (hfirst : L.ctx.ClaimSchedule L.isAlive first)

include h hfirst

theorem preliminary_apply (x : ν) : L.preliminary first x =
    ((L.ctx.definition L.isAlive x).map Claim.record).getD {} :=
  Context.resolveSymbols_eq_definition h hfirst rfl

theorem preliminary_file (x : ν) : (L.preliminary first x).file = L.owner x := by
  rw [preliminary_apply h hfirst, owner]
  cases L.ctx.definition L.isAlive x <;> rfl

theorem preliminary_isCommon (x : ν) :
    (L.ctx.esym (L.preliminary first x)).any ElfSym.isCommon = L.ownerIsCommon x := by
  rw [preliminary_apply h hfirst, ownerIsCommon]
  cases L.ctx.definition L.isAlive x <;> rfl

theorem mem_keeps_iff (file owner : FileRef) :
    owner ∈ L.ctx.keeps (L.preliminary first) file ↔
      ∃ x, L.Refers FileRef.isDso file x ∧ L.owner x = some owner := by
  cases file with
  | obj i =>
    simp only [Context.keeps, List.mem_filterMap, Context.objectKeeps,
      preliminary_file h hfirst, preliminary_isCommon h hfirst]
    constructor
    · rintro ⟨esym, hesym, hkeeps⟩
      split at hkeeps
      · cases hkeeps
      case isFalse hweak =>
        split at hkeeps
        case isTrue hkeep =>
          refine ⟨esym.sym, ⟨esym, hesym, rfl, fun hw => absurd hw hweak, ?_⟩, hkeeps⟩
          simpa using hkeep
        case isFalse => cases hkeeps
    · rintro ⟨x, ⟨esym, hesym, rfl, hweak, hkeep⟩, howner⟩
      refine ⟨esym, hesym, ?_⟩
      have hstrong : ¬ esym.isWeak = true := fun hw => absurd (hweak hw) Bool.false_ne_true
      rw [if_neg hstrong, if_pos (by simpa using hkeep), howner]
  | dso i =>
    simp only [Context.keeps, List.mem_filterMap, Context.sharedKeeps, preliminary_file h hfirst]
    constructor
    · rintro ⟨esym, hesym, hkeeps⟩
      split at hkeeps
      case isTrue hundef =>
        exact ⟨esym.sym, ⟨esym, hesym, rfl, fun _ => rfl, Or.inl hundef⟩, hkeeps⟩
      case isFalse => cases hkeeps
    · rintro ⟨x, ⟨esym, hesym, rfl, -, hkeep⟩, howner⟩
      refine ⟨esym, hesym, ?_⟩
      have hcommon : esym.isCommon = false := (L.ctx.dso i).notCommon esym hesym
      have hundef : esym.isUndef = true := by simpa [hcommon] using hkeep
      rw [if_pos hundef, howner]

theorem markSymbols_iff (file : FileRef) :
    L.markSymbols (L.preliminary first) file = true ↔
      L.isAlive file = true ∨ ∃ x ∈ L.undefined ++ L.requireDefined, L.owner x = some file := by
  rw [markSymbols]
  generalize L.undefined ++ L.requireDefined = names
  generalize L.isAlive = isAlive
  induction names generalizing isAlive with
  | nil => simp
  | cons x names ih =>
    rw [List.foldl_cons, ih, preliminary_file h hfirst]
    cases howner : L.owner x with
    | none => simp [howner]
    | some owner =>
      by_cases heq : file = owner
      · subst heq
        simp [howner]
      · simp [howner, heq, Ne.symm heq]

theorem mem_roots_of_keeps (a b : FileRef) (hb : b ∈ L.ctx.keeps (L.preliminary first) a)
    (halive : L.markSymbols (L.preliminary first) b = true) :
    b ∈ L.ctx.files.filter (L.markSymbols (L.preliminary first)) := by
  obtain ⟨x, -, howner⟩ := (mem_keeps_iff h hfirst a b).mp hb
  exact List.mem_filter.mpr ⟨owner_mem howner, halive⟩

theorem marked_iff {m : Marking FileRef} (hm : L.MarksLive (L.preliminary first) m)
    (hfile : file ∈ L.ctx.files) :
    m.marked file = true ↔ L.Extracted FileRef.isDso file := by
  have hstart : ∀ file ∈ L.ctx.files, L.markSymbols (L.preliminary first) file = true →
      L.Extracted FileRef.isDso file := by
    intro file hfile halive
    rcases (markSymbols_iff h hfirst file).mp halive with halive | ⟨x, hx, howner⟩
    · exact Extracted.initial hfile halive
    · exact Extracted.named hx howner
  rw [hm.marked_iff (mem_roots_of_keeps h hfirst) fun r hr => (List.mem_filter.mp hr).2]
  constructor
  · rintro (halive | ⟨r, hr, hreach⟩)
    · exact hstart file hfile halive
    · clear hfile
      induction hreach with
      | refl => exact hstart r (List.mem_filter.mp hr).1 (List.mem_filter.mp hr).2
      | @tail a b _ hb ih =>
        obtain ⟨x, hx, howner⟩ := (mem_keeps_iff h hfirst a b).mp hb
        exact Extracted.reference ih hx howner
  · intro hextracted
    clear hfile
    induction hextracted with
    | initial hfile halive => exact Or.inl ((markSymbols_iff h hfirst _).mpr (Or.inl halive))
    | named hx howner => exact Or.inl ((markSymbols_iff h hfirst _).mpr (Or.inr ⟨_, hx, howner⟩))
    | @reference file owner x hextracted hx howner ih =>
      have hedge : owner ∈ L.ctx.keeps (L.preliminary first) file :=
        (mem_keeps_iff h hfirst file owner).mpr ⟨x, hx, howner⟩
      right
      rcases ih with halive | ⟨r, hr, hreach⟩
      · exact ⟨file, List.mem_filter.mpr ⟨hextracted.mem, halive⟩,
          Relation.ReflTransGen.single hedge⟩
      · exact ⟨r, hr, hreach.tail hedge⟩

theorem marked_eq {m m' : Marking FileRef} (hm : L.MarksLive (L.preliminary first) m)
    (hm' : L.MarksLive (L.preliminary first) m') : m.marked = m'.marked := by
  have hroots : ∀ r ∈ L.ctx.files.filter (L.markSymbols (L.preliminary first)),
      L.markSymbols (L.preliminary first) r = true := fun r hr => (List.mem_filter.mp hr).2
  funext file
  rw [Bool.eq_iff_iff, hm.marked_iff (mem_roots_of_keeps h hfirst) hroots,
    hm'.marked_iff (mem_roots_of_keeps h hfirst) hroots]

theorem within_start : Marking.Within L.ctx.files.toFinset
      (Marking.start (L.ctx.keeps (L.preliminary first)) (L.markSymbols (L.preliminary first))
        (L.ctx.files.filter (L.markSymbols (L.preliminary first)))) ∧
    ∀ a ∈ L.ctx.files.toFinset, ∀ b ∈ L.ctx.keeps (L.preliminary first) a,
      b ∈ L.ctx.files.toFinset := by
  have hnext : ∀ a b, b ∈ L.ctx.keeps (L.preliminary first) a → b ∈ L.ctx.files.toFinset := by
    intro a b hb
    obtain ⟨x, -, howner⟩ := (mem_keeps_iff h hfirst a b).mp hb
    exact List.mem_toFinset.mpr (owner_mem howner)
  refine ⟨?_, fun a _ => hnext a⟩
  rintro b ⟨l, hl, hb⟩
  obtain ⟨r, -, rfl⟩ := List.mem_map.mp hl
  exact hnext r b hb

theorem exists_marksLive : ∃ m, L.MarksLive (L.preliminary first) m := by
  obtain ⟨hwithin, hnext⟩ := within_start h hfirst
  exact Marking.exists_finished hnext hwithin

end Preliminary

section Left

variable (alive : FileRef → Bool) (owner : ν → ℕ)

omit [DecidableEq ν] in
theorem files_eraseDead (ctx : Context ν) :
    (ctx.eraseDead alive).files = ctx.files.filter alive := by
  simp only [Context.files, Context.eraseDead, List.filter_append, List.filter_map]
  rfl

omit [DecidableEq ν] in
theorem priority_eliminateComdats (ctx : Context ν) :
    (ctx.eliminateComdats owner).priority = ctx.priority := by
  funext file
  cases file with
  | obj i =>
    simp only [Context.priority, Context.eliminateComdats]
    split <;> rfl
  | dso i => rfl

omit [DecidableEq ν] in
theorem elfSyms_eliminateComdats (ctx : Context ν) :
    (ctx.eliminateComdats owner).elfSyms = ctx.elfSyms := by
  funext file
  cases file with
  | obj i =>
    simp only [Context.elfSyms, Context.eliminateComdats]
    split <;> rfl
  | dso i => rfl

omit [DecidableEq ν] in
theorem prioritiesApart_left (h : L.ctx.PrioritiesApart) :
    ((L.ctx.eraseDead alive).eliminateComdats owner).PrioritiesApart := by
  have hfiles : ((L.ctx.eraseDead alive).eliminateComdats owner).files =
      L.ctx.files.filter alive := files_eraseDead alive L.ctx
  have hpriority : ((L.ctx.eraseDead alive).eliminateComdats owner).priority =
      L.ctx.priority := priority_eliminateComdats owner (L.ctx.eraseDead alive)
  constructor
  · rw [hfiles, hpriority]
    exact h.nodup.sublist (List.filter_sublist.map _)
  · rw [hfiles, hpriority]
    intro file hfile
    exact h.lt file (List.mem_of_mem_filter hfile)

end Left

theorem file_clearSymbols (h : L.ctx.PrioritiesApart) {first : List (Claim ν)}
    (hfirst : L.ctx.ClaimSchedule L.isAlive first) (x : ν) :
    (L.ctx.clearSymbols (L.preliminary first) x).file = none := by
  rw [Context.clearSymbols, preliminary_file h hfirst]
  cases howner : L.owner x with
  | none =>
    simp only
    rw [preliminary_file h hfirst, howner]
  | some file =>
    simp only
    rw [if_pos (owner_mem howner)]

theorem groupOwners_eq_iff (h : L.ctx.PrioritiesApart) {r : Resolution ν}
    {alive : FileRef → Bool} (hobjs : r.ctx.objs = (L.ctx.eraseDead alive).objs)
    {updates : List (ν × ℕ)}
    (hupdates : Interleaving
      ((L.ctx.eraseDead alive).objs.map (L.ctx.eraseDead alive).groupUpdates) updates)
    {i : ℕ} (hi : i ∈ r.ctx.objs) {ref : ComdatGroupRef ν}
    (href : ref ∈ (L.ctx.obj i).comdatGroups) :
    groupOwners updates ref.signature = (L.ctx.obj i).priority ↔
      L.OwnsGroup r i ref.signature := by
  have hmem : ∀ u, u ∈ updates ↔ ∃ j ∈ r.ctx.objs, ∃ ref ∈ (L.ctx.obj j).comdatGroups,
      u = (ref.signature, (L.ctx.obj j).priority) := by
    intro u
    rw [hupdates.mem_iff, hobjs]
    constructor
    · rintro ⟨l, hl, hu⟩
      obtain ⟨j, hj, rfl⟩ := List.mem_map.mp hl
      obtain ⟨ref, href, rfl⟩ := List.mem_map.mp hu
      exact ⟨j, hj, ref, href, rfl⟩
    · rintro ⟨j, hj, ref, href, rfl⟩
      exact ⟨_, List.mem_map_of_mem hj, List.mem_map_of_mem href⟩
  obtain ⟨hle, -, hleast⟩ := groupOwners_spec updates ref.signature
  have hself := hle _ ((hmem _).mpr ⟨i, hi, ref, href, rfl⟩) rfl
  have hfile : FileRef.obj i ∈ L.ctx.files := by
    rw [hobjs] at hi
    exact List.mem_append_left _ (List.mem_map_of_mem (List.mem_of_mem_filter hi))
  have hlt : (L.ctx.obj i).priority < 2 ^ 24 := h.lt _ hfile
  constructor
  · rintro heq j hj ⟨ref', href', hsig⟩
    rw [← heq]
    exact hle _ ((hmem _).mpr ⟨j, hj, ref', href', rfl⟩) hsig
  · intro howns
    apply le_antisymm hself
    rcases hleast with hleast | ⟨u, hu, hsig, hleast⟩
    · omega
    · obtain ⟨j, hj, ref', href', rfl⟩ := (hmem u).mp hu
      rw [hleast]
      exact howns j hj ⟨ref', href', hsig⟩

section Run

variable (h : L.ctx.PrioritiesApart) {first second : List (Claim ν)}
  {m : Marking FileRef} {updates : List (ν × ℕ)}
  (hfirst : L.ctx.ClaimSchedule L.isAlive first)
  (hupdates : Interleaving
    ((L.ctx.eraseDead m.marked).objs.map (L.ctx.eraseDead m.marked).groupUpdates) updates)
  (hsecond : ((L.ctx.eraseDead m.marked).eliminateComdats
    (groupOwners updates)).ClaimSchedule m.marked second)

include h

theorem sectionsKept_finish (hupdates : Interleaving
    ((L.ctx.eraseDead m.marked).objs.map (L.ctx.eraseDead m.marked).groupUpdates) updates)
    (syms : ν → ResolvedSymbol) (second : List (Claim ν)) :
    L.SectionsKept (L.finish syms m.marked (groupOwners updates) second) := by
  intro i hi k isec hisec
  have howner := fun ref href =>
    @groupOwners_eq_iff _ _ _ h _ m.marked rfl _ hupdates _ hi ref href
  have hobj : (L.finish syms m.marked (groupOwners updates) second).ctx.obj i =
      (L.ctx.obj i).killGroups (groupOwners updates) := if_pos hi
  rw [hobj, getElem?_killGroups, hisec]
  split
  case isTrue hlost =>
    obtain ⟨ref, href, hne, hk⟩ := hlost
    refine ⟨isec.kill, rfl, ?_⟩
    constructor
    · intro halive
      cases halive
    · rintro ⟨-, hkept⟩
      exact absurd ((howner ref href).mpr (hkept ref href hk)) hne
  case isFalse hkept =>
    refine ⟨isec, rfl, ?_⟩
    constructor
    · intro halive
      refine ⟨halive, ?_⟩
      intro ref href hk
      apply (howner ref href).mp
      by_contra hne
      exact hkept ⟨ref, href, hne, hk⟩
    · exact And.left

include hfirst hsecond

theorem syms_finish (x : ν) :
    (L.finish (L.preliminary first) m.marked (groupOwners updates) second).syms x =
      ((((L.ctx.eraseDead m.marked).eliminateComdats (groupOwners updates)).definition
        m.marked x).map Claim.record).getD (L.ctx.clearSymbols (L.preliminary first) x) :=
  Context.resolveSymbols_eq_definition (prioritiesApart_left m.marked (groupOwners updates) h)
    hsecond (file_clearSymbols h hfirst x)

theorem extractsLeast_finish (hmark : L.MarksLive (L.preliminary first) m) :
    L.ExtractsLeast FileRef.isDso
      (L.finish (L.preliminary first) m.marked (groupOwners updates) second) where
  live file hfile := marked_iff h hfirst hmark hfile
  files := files_eraseDead m.marked L.ctx
  elfSyms := elfSyms_eliminateComdats (groupOwners updates) (L.ctx.eraseDead m.marked)
  undefined x hx := by
    rw [syms_finish h hfirst hsecond]
    rw [show ((L.ctx.eraseDead m.marked).eliminateComdats (groupOwners updates)).definition
      m.marked x = none from hx]
    exact file_clearSymbols h hfirst x
  defined x claim hx := by
    rw [syms_finish h hfirst hsecond]
    rw [show ((L.ctx.eraseDead m.marked).eliminateComdats (groupOwners updates)).definition
      m.marked x = some claim from hx]
    rfl

end Run

theorem deterministic (h : L.ctx.PrioritiesApart) : L.Deterministic := by
  intro r r' hr hr'
  obtain @⟨first, second, m, updates, hfirst, hmark, hupdates, hsecond⟩ := hr
  obtain @⟨first', second', m', updates', hfirst', hmark', hupdates', hsecond'⟩ := hr'
  have hpreliminary : L.preliminary first' = L.preliminary first := by
    funext x
    rw [preliminary_apply h hfirst, preliminary_apply h hfirst']
  rw [hpreliminary] at hmark' ⊢
  have hmarked : m.marked = m'.marked := marked_eq h hfirst hmark hmark'
  rw [← hmarked] at hupdates' hsecond' ⊢
  have howners : groupOwners updates' = groupOwners updates := by
    apply groupOwners_congr
    intro u
    rw [hupdates.mem_iff, hupdates'.mem_iff]
  rw [howners] at hsecond' ⊢
  have hsyms : (L.finish (L.preliminary first) m.marked (groupOwners updates) second).syms =
      (L.finish (L.preliminary first) m.marked (groupOwners updates) second').syms := by
    funext x
    rw [syms_finish h hfirst hsecond, syms_finish h hfirst hsecond']
  rw [finish, finish, Resolution.mk.injEq]
  exact ⟨rfl, rfl, hsyms⟩

theorem exists_resolves (h : L.ctx.PrioritiesApart) : ∃ r, L.Resolves r := by
  have hfirst : L.ctx.ClaimSchedule L.isAlive _ :=
    ⟨_, _, Interleaving.flatten _, Interleaving.flatten _, rfl⟩
  obtain ⟨m, hmark⟩ := exists_marksLive h hfirst
  exact ⟨_, Resolves.run hfirst hmark (Interleaving.flatten _)
    ⟨_, _, Interleaving.flatten _, Interleaving.flatten _, rfl⟩⟩

theorem Resolves.extracts (h : L.ctx.PrioritiesApart) {r : Resolution ν}
    (hr : L.Resolves r) : L.ExtractsLeast FileRef.isDso r ∧ L.SectionsKept r := by
  obtain ⟨hfirst, hmark, hupdates, hsecond⟩ := hr
  exact ⟨extractsLeast_finish h hfirst hsecond hmark, sectionsKept_finish h hupdates _ _⟩

/-- The marking ends, runs exist, every run leaves the least set of files, and all runs
agree. -/
theorem resolves_correct (h : L.ctx.PrioritiesApart) :
    L.MarkingEnds ∧ (∃ r, L.Resolves r) ∧
      (∀ r, L.Resolves r → L.ExtractsLeast FileRef.isDso r ∧ L.SectionsKept r) ∧
      L.Deterministic := by
  refine ⟨?_, exists_resolves h, fun r hr => hr.extracts h, deterministic h⟩
  intro first hfirst
  obtain ⟨hwithin, hnext⟩ := within_start h hfirst
  exact Marking.acc_step hnext hwithin

end ResolveInput

/-! ## Small links -/

/-- A shared library refers weakly to a symbol that an archive member defines. -/
def weakReference : ResolveInput Unit where
  ctx :=
    { obj := fun _ =>
        { priority := 10000
          elfSyms := [{ sym := (), stShndx := .undef }, { sym := (), stShndx := .abs }] }
      dso := fun _ =>
        { priority := 10001
          elfSyms := [{ sym := (), stShndx := .undef, isWeak := true }]
          notCommon := by decide }
      objs := [0]
      dsos := [0] }
  isAlive file := file.isDso

theorem weakReference_prioritiesApart : weakReference.ctx.PrioritiesApart where
  nodup := by decide
  lt := by decide

/-- The archive member is extracted. -/
theorem resolves_correct_weakReference :
    ∃ r, weakReference.Resolves r ∧ r.isAlive (.obj 0) = true := by
  obtain ⟨-, ⟨r, hr⟩, hleast, -⟩ :=
    ResolveInput.resolves_correct weakReference_prioritiesApart
  refine ⟨r, hr, ((hleast r hr).1.live (.obj 0) (by decide)).mpr ?_⟩
  have hlib : weakReference.Extracted FileRef.isDso (.dso 0) :=
    ResolveInput.Extracted.initial (by decide) rfl
  exact ResolveInput.Extracted.reference hlib
    ⟨_, List.mem_cons_self, rfl, fun _ => rfl, Or.inl rfl⟩ (by decide)

theorem weakReference_not_extractsStrongly : ¬ weakReference.ExtractsStrongly := by
  intro hstrongly
  obtain ⟨r, hr⟩ := ResolveInput.exists_resolves weakReference_prioritiesApart
  have hlib : weakReference.Extracted FileRef.isDso (.dso 0) :=
    ResolveInput.Extracted.initial (by decide) rfl
  have hextracted : weakReference.Extracted FileRef.isDso (.obj 0) :=
    ResolveInput.Extracted.reference hlib
      ⟨_, List.mem_cons_self, rfl, fun _ => rfl, Or.inl rfl⟩ (by decide)
  have hmember : FileRef.obj 0 ∈ weakReference.ctx.files := by decide
  have halive := ((hr.extracts weakReference_prioritiesApart).1.live _ hmember).mpr hextracted
  have hclosed : ∀ file, weakReference.Extracted (fun _ => false) file → file = .dso 0 := by
    intro file hfile
    induction hfile with
    | @initial file hfile halive =>
      have hcases : file = .obj 0 ∨ file = .dso 0 := List.mem_pair.mp hfile
      rcases hcases with rfl | rfl
      · cases halive
      · rfl
    | named hx _ => cases hx
    | reference _ hx _ ih =>
      obtain ⟨esym, hesym, -, hweak, -⟩ := hx
      subst ih
      obtain rfl := List.mem_singleton.mp hesym
      exact absurd (hweak rfl) Bool.false_ne_true
  have hmember := hclosed _ (((hstrongly.1 r hr).1.live _ hmember).mp halive)
  cases hmember

/-- A strong and a weak definition, whose ranks are equal because the priority of the
strong one reaches into the ranks. -/
def largePriority : ResolveInput Unit where
  ctx :=
    { obj := fun i =>
        { priority := if i = 0 then 2 ^ 24 + 1 else 1
          elfSyms := [{ sym := (), stShndx := .undef },
            { sym := (), stShndx := .abs, isWeak := i ≠ 0 }] }
      dso := fun _ => SharedFile.empty
      objs := [0, 1]
      dsos := [] }
  isAlive _ := true

theorem largePriority_not_deterministic : ¬ largePriority.Deterministic := by
  intro hdeterministic
  have hfirst : largePriority.ctx.ClaimSchedule largePriority.isAlive _ :=
    ⟨_, _, Interleaving.flatten _, Interleaving.flatten _, rfl⟩
  have hmark : ∀ syms, largePriority.MarksLive syms
      { marked := fun _ => true, tasks := [[], []] } :=
    fun syms => ⟨Relation.ReflTransGen.refl, by simp [Marking.Finished]⟩
  have hstrong := ResolveInput.Resolves.run hfirst (hmark _) (Interleaving.flatten _)
    ⟨_, _, Interleaving.flatten _, Interleaving.flatten _, rfl⟩
  have hweak := ResolveInput.Resolves.run hfirst (hmark _) (Interleaving.flatten _)
    ⟨_, _, (Interleaving.flatten _).of_perm (List.reverse_perm _), Interleaving.flatten _, rfl⟩
  have howner := congrArg (fun r => (r.syms ()).file) (hdeterministic _ _ hstrong hweak)
  exact absurd howner (by decide)

/-- Two files share the group `false`, and the section of the second one is also a member
of the group `true`, which only this file has. -/
def sharedMember : ResolveInput Bool where
  ctx :=
    { obj := fun i =>
        { priority := 10000 + i
          elfSyms := []
          sections := [some { name := ".text" }]
          comdatGroups := { signature := false, members := [0] } ::
            if i = 0 then [] else [{ signature := true, members := [0] }] }
      dso := fun _ => SharedFile.empty
      objs := [0, 1]
      dsos := [] }
  isAlive _ := true

theorem sharedMember_prioritiesApart : sharedMember.ctx.PrioritiesApart where
  nodup := by decide
  lt := by decide

theorem sharedMember_not_extractsStrongly : ¬ sharedMember.ExtractsStrongly := by
  intro hstrongly
  obtain ⟨r, hr⟩ := ResolveInput.exists_resolves sharedMember_prioritiesApart
  obtain ⟨hleast, hsections⟩ := hr.extracts sharedMember_prioritiesApart
  have hobjs : ∀ i ∈ sharedMember.ctx.objs, i ∈ r.ctx.objs := by
    intro i hi
    have hfile : FileRef.obj i ∈ sharedMember.ctx.files :=
      List.mem_append_left _ (List.mem_map_of_mem hi)
    have hleft : FileRef.obj i ∈ r.ctx.files := by
      rw [hleast.files, List.mem_filter]
      exact ⟨hfile, (hleast.live _ hfile).mpr (ResolveInput.Extracted.initial hfile rfl)⟩
    simpa [Context.files] using hleft
  have hone := hobjs 1 (by decide)
  have howns : sharedMember.OwnsGroup r 1 true := by
    rintro j - ⟨ref, href, hsig⟩
    cases j with
    | zero =>
      obtain rfl := List.mem_singleton.mp href
      cases hsig
    | succ j => exact Nat.add_le_add_left (Nat.le_add_left 1 j) 10000
  obtain ⟨isec, hisec, halive⟩ := ((hstrongly.1 r hr).2 1 hone { signature := true, members := [0] }
    (by decide) 0 (by decide) { name := ".text" } rfl rfl).mpr howns
  obtain ⟨isec', hisec', hkept⟩ := hsections 1 hone 0 { name := ".text" } rfl
  obtain rfl : isec' = isec := by
    rw [hisec] at hisec'
    simpa using hisec'.symm
  have hshared := (hkept.mp halive).2 { signature := false, members := [0] } (by decide)
    (by decide) 0 (hobjs 0 (by decide)) ⟨_, List.mem_cons_self, rfl⟩
  exact absurd hshared (by decide)

/-- Weak references of shared libraries count, priorities may collide with ranks, and a
section may be a member of several groups. -/
theorem not_extractsStrongly :
    ((weakReference.ctx.files.map weakReference.ctx.priority).Nodup ∧
        ¬ weakReference.ExtractsStrongly) ∧
      ((largePriority.ctx.files.map largePriority.ctx.priority).Nodup ∧
        ¬ largePriority.ExtractsStrongly) ∧
      (sharedMember.ctx.files.map sharedMember.ctx.priority).Nodup ∧
        ¬ sharedMember.ExtractsStrongly :=
  ⟨⟨by decide, weakReference_not_extractsStrongly⟩,
    ⟨by decide, fun h => largePriority_not_deterministic h.2⟩,
    by decide, sharedMember_not_extractsStrongly⟩

end Mold.Elf
