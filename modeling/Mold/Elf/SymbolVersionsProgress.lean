import Mold.Elf.SymbolVersionsRead

/-!
# The loop over the versioned symbols

The symbols come sorted by library and version.  So a library is begun once, its
versions are added in increasing order, and the index that was given last is the
one of the version of the symbol at hand.
-/

namespace Mold.Elf

open Lib

def flatEntries (groups : List VersionGroup) : List (SharedLib × VersionEntry) :=
  groups.flatMap fun g => g.entries.map fun e => (g.lib, e)

theorem flatEntries_append (groups : List VersionGroup) (g : VersionGroup) :
    flatEntries (groups ++ [g]) = flatEntries groups ++ g.entries.map fun e => (g.lib, e) := by
  rw [flatEntries, List.flatMap_append, List.flatMap_singleton]
  rfl

def symKey (sym : VersionedSymbol) : List ℕ ×ₗ ℕ := verneedKey (sym, 0)

def entryKey (x : SharedLib × VersionEntry) : List ℕ ×ₗ ℕ :=
  toLex (x.1.sonameKey, x.2.sym.verIdx)

theorem symKey_of_lib {sym : VersionedSymbol} {lib : SharedLib} (h : sym.lib = some lib) :
    symKey sym = toLex (lib.sonameKey, sym.verIdx) := by
  rw [symKey, verneedKey, h]
  rfl

theorem sonameKey_inj {lib lib' : SharedLib} (h : lib.sonameKey = lib'.sonameKey) :
    lib.soname = lib'.soname :=
  List.map_injective_iff.mpr (fun _ _ => UInt8.toNat.inj) h

/-! ## The state between two symbols -/

/-- The symbols `processed` have got their entries, the last of them was `prev`. -/
structure Progress (start : ℕ) (versym₀ : List ℕ) (processed : List (VersionedSymbol × ℕ))
    (prev : VersionedSymbol) (st : VerneedState) (done : List VersionGroup)
    (lib : SharedLib) (before : List VersionEntry) (last : VersionEntry) : Prop where
  filling : Filling st done lib before last
  prev_lib : prev.lib = some lib
  prev_ver : last.sym.verIdx = prev.verIdx
  libs : (done ++ [VersionGroup.mk lib (before ++ [last])]).Pairwise fun g g' =>
    g.lib.sonameKey < g'.lib.sonameKey
  nonempty : ∀ g ∈ done, g.entries ≠ []
  entries_own : ∀ x ∈ flatEntries (done ++ [VersionGroup.mk lib (before ++ [last])]),
    x.2.sym.lib = some x.1 ∧ x.2.sym ∈ processed.map Prod.fst
  sorted : (flatEntries (done ++ [VersionGroup.mk lib (before ++ [last])])).Pairwise fun x y =>
    entryKey x < entryKey y
  le_prev : ∀ x ∈ flatEntries (done ++ [VersionGroup.mk lib (before ++ [last])]),
    entryKey x ≤ symKey prev
  indices : (flatEntries (done ++ [VersionGroup.mk lib (before ++ [last])])).map
      (fun x => x.2.idx) =
    (List.range' (start + 1)
      (flatEntries (done ++ [VersionGroup.mk lib (before ++ [last])])).length).map (· % 2 ^ 16)
  veridx : st.veridx =
    (start + (flatEntries (done ++ [VersionGroup.mk lib (before ++ [last])])).length) % 2 ^ 16
  found : ∀ p ∈ processed, ∃ x ∈ flatEntries (done ++ [VersionGroup.mk lib (before ++ [last])]),
    p.1.lib = some x.1 ∧ x.2.sym.verIdx = p.1.verIdx ∧ st.versym[p.2]? = some x.2.idx
  kept : ∀ i, i ∉ processed.map Prod.snd → st.versym[i]? = versym₀[i]?
  length : st.versym.length = versym₀.length

variable {start : ℕ} {versym₀ : List ℕ} {processed : List (VersionedSymbol × ℕ)}
  {prev : VersionedSymbol} {st : VerneedState} {done : List VersionGroup}
  {lib : SharedLib} {before : List VersionEntry} {last : VersionEntry}

theorem Filling.assign (h : Filling st done lib before last) (idx : ℕ) :
    Filling (st.assign idx) done lib before last :=
  ⟨h.buf, h.verneed, h.aux, h.shInfo, h.veridx⟩

theorem current_mem_flatEntries :
    (lib, last) ∈ flatEntries (done ++ [VersionGroup.mk lib (before ++ [last])]) := by
  rw [flatEntries_append, List.map_append]
  simp

theorem getElem?_assign {versym : List ℕ} {i : ℕ} (hi : i < versym.length) (v : ℕ) :
    (versym.set i v)[i]? = some v := by
  rw [List.getElem?_set_self hi]

section Step

variable {p : VersionedSymbol × ℕ} {done' : List VersionGroup} {lib' : SharedLib}
  {before' : List VersionEntry} {last' : VersionEntry} {st' : VerneedState}

theorem found_assign (h : Progress start versym₀ processed prev st done lib before last)
    (hversym : st'.versym = st.versym) (hveridx : st'.veridx = last'.idx)
    (hlib : p.1.lib = some lib') (hver : last'.sym.verIdx = p.1.verIdx)
    (hsub : ∀ x ∈ flatEntries (done ++ [VersionGroup.mk lib (before ++ [last])]),
      x ∈ flatEntries (done' ++ [VersionGroup.mk lib' (before' ++ [last'])]))
    (hpos : p.2 < versym₀.length) (hnew : p.2 ∉ processed.map Prod.snd) :
    ∀ q ∈ processed ++ [p],
      ∃ x ∈ flatEntries (done' ++ [VersionGroup.mk lib' (before' ++ [last'])]),
      q.1.lib = some x.1 ∧ x.2.sym.verIdx = q.1.verIdx ∧
        (st'.assign p.2).versym[q.2]? = some x.2.idx := by
  intro q hq
  rcases List.mem_append.mp hq with hq | hq
  · obtain ⟨x, hx, hqlib, hqver, hget⟩ := h.found q hq
    have hne : p.2 ≠ q.2 := fun heq => hnew (heq ▸ List.mem_map_of_mem hq)
    refine ⟨x, hsub x hx, hqlib, hqver, ?_⟩
    rw [VerneedState.assign, hversym, List.getElem?_set_ne hne, hget]
  · obtain rfl := List.mem_singleton.mp hq
    refine ⟨(lib', last'), current_mem_flatEntries, hlib, hver, ?_⟩
    rw [VerneedState.assign, hversym, hveridx]
    exact getElem?_assign (by rw [h.length]; exact hpos) _

theorem kept_assign (h : Progress start versym₀ processed prev st done lib before last)
    (hversym : st'.versym = st.versym) :
    (∀ i, i ∉ (processed ++ [p]).map Prod.snd → (st'.assign p.2).versym[i]? = versym₀[i]?) ∧
    (st'.assign p.2).versym.length = versym₀.length := by
  constructor
  · intro i hi
    rw [List.map_append, List.mem_append, not_or] at hi
    have hne : p.2 ≠ i := fun heq => hi.2 (List.mem_singleton.mpr heq.symm)
    rw [VerneedState.assign, hversym, List.getElem?_set_ne hne]
    exact h.kept i hi.1
  · rw [VerneedState.assign, hversym, List.length_set, h.length]

theorem Progress.extend (h : Progress start versym₀ processed prev st done lib before last)
    (hfilling : Filling st' done' lib' before' (st.nextEntry p.1))
    (hversym : st'.versym = st.versym) (hlib : p.1.lib = some lib')
    (hflat : flatEntries (done' ++ [VersionGroup.mk lib' (before' ++ [st.nextEntry p.1])]) =
      flatEntries (done ++ [VersionGroup.mk lib (before ++ [last])]) ++ [(lib', st.nextEntry p.1)])
    (hlibs : (done' ++ [VersionGroup.mk lib' (before' ++ [st.nextEntry p.1])]).Pairwise fun g g' =>
      g.lib.sonameKey < g'.lib.sonameKey)
    (hnonempty : ∀ g ∈ done', g.entries ≠ []) (hlt : symKey prev < symKey p.1)
    (hpos : p.2 < versym₀.length) (hnew : p.2 ∉ processed.map Prod.snd) :
    Progress start versym₀ (processed ++ [p]) p.1 (st'.assign p.2) done' lib' before'
      (st.nextEntry p.1) := by
  have hkey : entryKey (lib', st.nextEntry p.1) = symKey p.1 := (symKey_of_lib hlib).symm
  have hidx : (st.nextEntry p.1).idx =
      (start + (flatEntries (done ++ [VersionGroup.mk lib (before ++ [last])])).length + 1) %
        2 ^ 16 := by
    have hmod := Nat.mod_add_mod
      (start + (flatEntries (done ++ [VersionGroup.mk lib (before ++ [last])])).length) (2 ^ 16) 1
    rw [VerneedState.nextEntry, h.veridx]
    exact hmod
  obtain ⟨hkept, hlength⟩ := kept_assign (p := p) h hversym
  refine ⟨hfilling.assign _, hlib, rfl, hlibs, hnonempty, ?_, ?_, ?_, ?_, ?_,
    found_assign h hversym hfilling.veridx hlib rfl ?_ hpos hnew, hkept, hlength⟩
  · intro x hx
    rw [hflat] at hx
    rcases List.mem_append.mp hx with hx | hx
    · obtain ⟨hown, hmem⟩ := h.entries_own x hx
      exact ⟨hown, by rw [List.map_append]; exact List.mem_append_left _ hmem⟩
    · obtain rfl := List.mem_singleton.mp hx
      refine ⟨hlib, ?_⟩
      rw [List.map_append]
      exact List.mem_append_right _ (by simp [VerneedState.nextEntry])
  · rw [hflat, List.pairwise_append]
    refine ⟨h.sorted, List.pairwise_singleton _ _, fun x hx y hy => ?_⟩
    obtain rfl := List.mem_singleton.mp hy
    rw [hkey]
    exact lt_of_le_of_lt (h.le_prev x hx) hlt
  · intro x hx
    rw [hflat] at hx
    rcases List.mem_append.mp hx with hx | hx
    · exact le_trans (h.le_prev x hx) (le_of_lt hlt)
    · obtain rfl := List.mem_singleton.mp hx
      exact le_of_eq hkey
  · rw [hflat, List.map_append, h.indices, List.length_append, List.length_singleton,
      List.range'_concat, List.map_append, List.map_singleton, List.map_singleton, hidx]
    congr 3
    omega
  · rw [hflat, List.length_append, List.length_singleton, ← Nat.add_assoc, ← hidx]
    exact hfilling.veridx
  · intro x hx
    rw [hflat]
    exact List.mem_append_left _ hx

theorem Progress.repeat (h : Progress start versym₀ processed prev st done lib before last)
    (hlib : p.1.lib = some lib) (hver : prev.verIdx = p.1.verIdx)
    (hpos : p.2 < versym₀.length) (hnew : p.2 ∉ processed.map Prod.snd) :
    Progress start versym₀ (processed ++ [p]) p.1 (st.assign p.2) done lib before last := by
  have hkey : symKey p.1 = symKey prev := by
    rw [symKey_of_lib hlib, symKey_of_lib h.prev_lib, hver]
  obtain ⟨hkept, hlength⟩ := kept_assign (p := p) h rfl
  refine ⟨h.filling.assign _, hlib, h.prev_ver.trans hver, h.libs, h.nonempty, ?_,
    h.sorted, ?_, h.indices, h.veridx,
    found_assign h rfl h.filling.veridx hlib (h.prev_ver.trans hver) (fun _ hx => hx) hpos hnew,
    hkept, hlength⟩
  · intro x hx
    obtain ⟨hown, hmem⟩ := h.entries_own x hx
    exact ⟨hown, by rw [List.map_append]; exact List.mem_append_left _ hmem⟩
  · rw [hkey]
    exact h.le_prev

theorem Progress.step (h : Progress start versym₀ processed prev st done lib before last)
    (hlib : p.1.lib = some lib')
    (hinj : lib.soname = lib'.soname → lib = lib') (hle : symKey prev ≤ symKey p.1)
    (hpos : p.2 < versym₀.length) (hnew : p.2 ∉ processed.map Prod.snd) :
    ∃ done' lib' before' last', Progress start versym₀ (processed ++ [p]) p.1
      ((st.addSymbol (some prev) p.1).assign p.2) done' lib' before' last' := by
  rw [symKey_of_lib h.prev_lib, symKey_of_lib hlib, Prod.Lex.le_iff] at hle
  by_cases hsame : lib = lib'
  · subst hsame
    have hprev : prev.lib = p.1.lib := h.prev_lib.trans hlib.symm
    by_cases hver : prev.verIdx = p.1.verIdx
    · refine ⟨done, lib, before, last, ?_⟩
      rw [VerneedState.addSymbol, if_neg (not_not_intro hprev), if_neg (not_not_intro hver)]
      exact h.repeat hlib hver hpos hnew
    · refine ⟨done, lib, before ++ [last], st.nextEntry p.1, ?_⟩
      have hlt : symKey prev < symKey p.1 := by
        rw [symKey_of_lib h.prev_lib, symKey_of_lib hlib, Prod.Lex.lt_iff]
        rcases hle with hlt | ⟨-, hle⟩
        · exact absurd hlt (lt_irrefl _)
        · exact .inr ⟨rfl, lt_of_le_of_ne hle hver⟩
      rw [VerneedState.addSymbol, if_neg (not_not_intro hprev), if_pos hver]
      refine h.extend (h.filling.addEntry p.1) rfl hlib ?_ ?_ h.nonempty hlt hpos hnew
      · rw [flatEntries_append, flatEntries_append]
        simp
      · have hlibs := h.libs
        rw [List.pairwise_append] at hlibs ⊢
        refine ⟨hlibs.1, List.pairwise_singleton _ _, fun g hg g' hg' => ?_⟩
        obtain rfl := List.mem_singleton.mp hg'
        exact hlibs.2.2 g hg ⟨lib, before ++ [last]⟩ (List.mem_singleton_self _)
  · have hprev : prev.lib ≠ p.1.lib := by
      rw [h.prev_lib, hlib]
      exact fun heq => hsame (Option.some.inj heq)
    have hkey : lib.sonameKey < lib'.sonameKey := by
      rcases hle with hlt | ⟨heq, -⟩
      · exact hlt
      · exact absurd (hinj (sonameKey_inj heq)) hsame
    have hlt : symKey prev < symKey p.1 := by
      rw [symKey_of_lib h.prev_lib, symKey_of_lib hlib, Prod.Lex.lt_iff]
      exact .inl hkey
    refine ⟨done ++ [VersionGroup.mk lib (before ++ [last])], lib', [], st.nextEntry p.1, ?_⟩
    rw [VerneedState.addSymbol, if_pos hprev, hlib, Option.getD_some]
    refine h.extend ((h.filling.startGroup lib').addEntry p.1) rfl hlib ?_ ?_ ?_ hlt hpos hnew
    · rw [flatEntries_append]
      rfl
    · rw [List.pairwise_append]
      refine ⟨h.libs, List.pairwise_singleton _ _, fun g hg g' hg' => ?_⟩
      obtain rfl := List.mem_singleton.mp hg'
      rcases List.mem_append.mp hg with hg | hg
      · have hlibs := h.libs
        rw [List.pairwise_append] at hlibs
        exact lt_trans (hlibs.2.2 g hg _ (List.mem_singleton_self _)) hkey
      · obtain rfl := List.mem_singleton.mp hg
        exact hkey
    · intro g hg
      rcases List.mem_append.mp hg with hg | hg
      · exact h.nonempty g hg
      · obtain rfl := List.mem_singleton.mp hg
        exact List.append_ne_nil_of_right_ne_nil _ (List.cons_ne_nil _ _)

end Step

theorem Progress.first {p : VersionedSymbol × ℕ} {lib : SharedLib} (start : ℕ)
    (versym₀ : List ℕ) (hlib : p.1.lib = some lib)
    (hpos : p.2 < versym₀.length) :
    Progress start versym₀ [p] p.1
      (VerneedState.assign (VerneedState.addSymbol { veridx := start, versym := versym₀ }
        none p.1) p.2)
      [] lib [] (VerneedState.nextEntry { veridx := start, versym := versym₀ } p.1) := by
  have hfilling := (@Begun.first { veridx := start, versym := versym₀ } rfl rfl rfl
    lib).addEntry p.1
  have hadd : VerneedState.addSymbol { veridx := start, versym := versym₀ } none p.1 =
      (VerneedState.startGroup { veridx := start, versym := versym₀ } lib).addEntry
        p.1 := by
    rw [VerneedState.addSymbol, hlib, Option.getD_some]
  rw [hadd]
  have hset : (versym₀.set p.2 ((start + 1) % 2 ^ 16))[p.2]? = some ((start + 1) % 2 ^ 16) :=
    getElem?_assign hpos _
  refine ⟨hfilling.assign _, hlib, rfl, List.pairwise_singleton _ _,
    fun g hg => absurd hg List.not_mem_nil, ?_, List.pairwise_singleton _ _, ?_, rfl, rfl,
    ?_, ?_, List.length_set⟩
  · intro x hx
    obtain rfl := List.mem_singleton.mp hx
    exact ⟨hlib, List.mem_singleton_self _⟩
  · intro x hx
    obtain rfl := List.mem_singleton.mp hx
    exact le_of_eq (symKey_of_lib hlib).symm
  · intro q hq
    obtain rfl := List.mem_singleton.mp hq
    exact ⟨_, List.mem_singleton_self _, hlib, rfl, hset⟩
  · intro i hi
    have hne : p.2 ≠ i := fun heq => hi (List.mem_singleton.mpr heq.symm)
    exact List.getElem?_set_ne hne

theorem Progress.run {dsos : List SharedLib} (hdsos : (dsos.map SharedLib.soname).Nodup)
    (h : Progress start versym₀ processed prev st done lib before last)
    (hprev : lib ∈ dsos) (l : List (VersionedSymbol × ℕ))
    (hsorted : (prev :: l.map Prod.fst).Pairwise fun s s' => symKey s ≤ symKey s')
    (hown : ∀ p ∈ l, ∃ lib' ∈ dsos, p.1.lib = some lib')
    (hpos : ∀ p ∈ l, p.2 < versym₀.length)
    (hnew : ((processed ++ l).map Prod.snd).Nodup) :
    ∃ prev' done' lib' before' last', Progress start versym₀ (processed ++ l) prev'
      (VerneedState.addSymbols (some prev) st l) done' lib' before' last' := by
  induction l generalizing processed prev st done lib before last with
  | nil =>
    rw [List.append_nil]
    exact ⟨prev, done, lib, before, last, h⟩
  | cons p l ih =>
    obtain ⟨lib', hlib', hplib⟩ := hown p List.mem_cons_self
    obtain ⟨hfirst, hrest⟩ := List.pairwise_cons.mp hsorted
    have hfresh : p.2 ∉ processed.map Prod.snd := by
      rw [List.map_append, List.map_cons] at hnew
      exact fun hp => (List.nodup_append.mp hnew).2.2 _ hp _ List.mem_cons_self rfl
    obtain ⟨done', lib'', before', last', hstep⟩ := h.step hplib
      (List.inj_on_of_nodup_map hdsos hprev hlib') (hfirst _ List.mem_cons_self)
      (hpos p List.mem_cons_self) hfresh
    have hmem : lib'' ∈ dsos := by
      have heq := hstep.prev_lib
      rw [hplib] at heq
      rwa [← Option.some.inj heq]
    rw [List.append_cons] at hnew ⊢
    exact ih hstep hmem hrest (fun q hq => hown q (List.mem_cons_of_mem _ hq))
      (fun q hq => hpos q (List.mem_cons_of_mem _ hq)) hnew

end Mold.Elf
