import Mold.Common.MultiGlobFind
import Mold.Elf.VersionScript

/-!
# Applying version patterns

`apply_version_script` of `passes.cc` gives the symbols of object files the versions of the
patterns.  If no pattern has a metacharacter, the symbols are looked up by their keys, pattern
by pattern, so that the last pattern decides.  Otherwise the names of all symbols are matched,
and the first pattern decides.  A symbol `foo@VERS` has the name `foo`.
-/

namespace Mold.Elf.Script

open Glob (ch)

abbrev Key := List UInt8

inductive File where
  | obj (i : ℕ)
  | dso (i : ℕ)
  deriving DecidableEq

/-- The symbols by their keys, and the keys of the global symbols of each object file.  Names
are C strings, and an object file has the symbols that it owns. -/
structure Link where
  name : Key → List UInt8
  nul_notMem : ∀ key, 0 ∉ name key
  file : Key → Option File
  objs : List (List Key)
  undefinedVersion : Bool
  owned : ∀ key i, file key = some (.obj i) → ∃ syms ∈ objs[i]?, key ∈ syms

variable (link : Link)

def Link.isDefined (key : Key) : Bool :=
  match link.file key with
  | some (.obj _) => true
  | _ => false

/-- The lambda `is_simple` of `apply_version_script`. -/
def isSimple (patterns : List VersionPattern) : Bool :=
  patterns.all fun v => !v.isCpp && v.pattern.all fun c => c ∉ str "*?["

/-- A turn of the loop for simple patterns, with the patterns that were warned about. -/
def assignPattern (s : List VersionPattern × (Key → UInt16)) (v : VersionPattern) :
    List VersionPattern × (Key → UInt16) :=
  (if link.file v.pattern = none ∧ !link.undefinedVersion then s.1 ++ [v] else s.1,
    if link.isDefined v.pattern then Function.update s.2 v.pattern v.verIdx else s.2)

/-- `apply_version_script` for simple patterns. -/
def assignPatterns (patterns : List VersionPattern) (verIdx : Key → UInt16) :
    List VersionPattern × (Key → UInt16) :=
  patterns.foldl (assignPattern link) ([], verIdx)

def addPattern (m : MultiGlob × MultiGlob) (v : VersionPattern × ℕ) :
    Except Failure (MultiGlob × MultiGlob) :=
  let r := (if v.1.isCpp then m.2 else m.1).add v.1.pattern (v.2 % 2 ^ 32)
  if !r.2 then
    .error (.fatal ("invalid version pattern: " ++
      String.ofList (v.1.pattern.map fun c => Char.ofNat c.toNat)))
  else if v.1.isCpp then .ok (m.1, r.1)
  else .ok (r.1, m.2)

/-- The least index of a pattern that matches a name.  C++ patterns are matched by the
demangled name if there is one. -/
def findPattern (cppDemangle : List UInt8 → Option (List UInt8)) (hasCpp : Bool)
    (m : MultiGlob × MultiGlob) (name : List UInt8) : Option (Option ℕ) := do
  let idx ← m.1.find name
  if !hasCpp then some idx
  else do
    let cppIdx ← m.2.find ((cppDemangle name).getD name)
    some (Option.merge min idx cppIdx)

def matchSymbol (idx : List UInt8 → Option (Option ℕ)) (patterns : List VersionPattern) (i : ℕ)
    (verIdx : Key → UInt16) (key : Key) : Option (Key → UInt16) :=
  if link.file key ≠ some (.obj i) then some verIdx
  else
    (idx (link.name key)).map fun idx =>
      match idx.bind (patterns[·]?) with
      | some v => Function.update verIdx key v.verIdx
      | none => verIdx

/-- `apply_version_script` for patterns that are matched.  The files are independent of each
other, as only its owner changes a symbol. -/
def matchPatterns (cppDemangle : List UInt8 → Option (List UInt8))
    (patterns : List VersionPattern) (verIdx : Key → UInt16) :
    Except Failure (Option (Key → UInt16)) := do
  let m ← patterns.zipIdx.foldlM addPattern (.empty, .empty)
  .ok (link.objs.zipIdx.foldlM (fun verIdx file =>
    file.1.foldlM (matchSymbol link
      (findPattern cppDemangle (patterns.any VersionPattern.isCpp) m) patterns file.2) verIdx) verIdx)

def applyVersionScript (cppDemangle : List UInt8 → Option (List UInt8))
    (patterns : List VersionPattern) (verIdx : Key → UInt16) :
    Except Failure (Option (Key → UInt16)) :=
  if isSimple patterns then .ok (some (assignPatterns link patterns verIdx).2)
  else matchPatterns link cppDemangle patterns verIdx

section Plain

variable {pat name : List UInt8} {patterns : List VersionPattern}

theorem of_isSimple (h : isSimple patterns = true) :
    ∀ v ∈ patterns, v.isCpp = false ∧ ∀ c ∈ v.pattern, MultiGlob.isPlain c = true := by
  intro v hv
  have hall := List.all_eq_true.mp h v hv
  rw [Bool.and_eq_true, Bool.not_eq_true', List.all_eq_true] at hall
  refine ⟨hall.1, fun c hc => ?_⟩
  have hmeta : c ∉ [ch '*', ch '?', ch '['] := of_decide_eq_true (hall.2 c hc)
  simp only [List.mem_cons, List.not_mem_nil, or_false, not_or] at hmeta
  simp [MultiGlob.isPlain, hmeta]

theorem matchAlone_plain (hne : pat ≠ []) (hplain : ∀ c ∈ pat, MultiGlob.isPlain c = true) :
    MultiGlob.matchAlone pat name = some (decide (pat = name)) := by
  obtain ⟨found, hfound, hiff⟩ := MultiGlob.matchAlone_pattern hne hplain false false name
  have hcontains : MultiGlob.Contains false false pat name ↔ pat = name := by
    constructor
    · rintro ⟨x, y, rfl, hx, hy⟩
      rw [hx rfl, hy rfl, List.nil_append, List.append_nil]
    · rintro rfl
      exact ⟨[], [], (List.append_nil _).symm, fun _ => rfl, fun _ => rfl⟩
  have hpat : MultiGlob.stars false ++ (pat ++ MultiGlob.stars false) = pat := List.append_nil pat
  rw [hpat] at hfound
  rw [hfound, Bool.eq_iff_iff.mpr ((hiff.trans hcontains).trans decide_eq_true_iff.symm)]

theorem add_plain (hne : pat ≠ []) (hplain : ∀ c ∈ pat, MultiGlob.isPlain c = true)
    (m : MultiGlob) (val : ℕ) : (m.add pat val).2 = true := by
  have hcompile := (congrArg Glob.compile (List.append_nil pat)).symm.trans
    (MultiGlob.compile_pattern hne hplain false false)
  rw [MultiGlob.add, hcompile]
  split <;> rfl

def indexed (patterns : List (VersionPattern × ℕ)) : List (List UInt8 × ℕ) :=
  patterns.map fun v => (v.1.pattern, v.2 % 2 ^ 32)

theorem foldlM_addPattern {l : List (VersionPattern × ℕ)} (h : ∀ v ∈ l, v.1.isCpp = false ∧
      v.1.pattern ≠ [] ∧ ∀ c ∈ v.1.pattern, MultiGlob.isPlain c = true) (m m' : MultiGlob) :
    l.foldlM addPattern (m, m') =
      .ok ((indexed l).foldl (fun m pair => (m.add pair.1 pair.2).1) m, m') := by
  induction l generalizing m with
  | nil => rfl
  | cons v l ih =>
    obtain ⟨⟨hcpp, hne, hplain⟩, hrest⟩ := List.forall_mem_cons.mp h
    have hadd : addPattern (m, m') v = .ok ((m.add v.1.pattern (v.2 % 2 ^ 32)).1, m') := by
      simp [addPattern, hcpp, add_plain hne hplain]
    rw [List.foldlM_cons, hadd]
    exact ih hrest _

theorem find_indexed (h : ∀ v ∈ patterns, ∀ c ∈ v.pattern, MultiGlob.isPlain c = true)
    (hstr : ∀ v ∈ patterns, v.pattern ≠ [] ∧ 0 ∉ v.pattern) (hname : 0 ∉ name)
    (hlength : patterns.length ≤ MultiGlob.noValue) :
    ∃ idx, (MultiGlob.addAll (indexed patterns.zipIdx)).find name = some idx ∧
      idx.bind (patterns[·]?) = patterns.find? fun v => decide (v.pattern = name) := by
  have hmem : ∀ pair ∈ indexed patterns.zipIdx, ∃ v, patterns[pair.2]? = some v ∧
      v.pattern = pair.1 := by
    intro pair hpair
    obtain ⟨⟨v, i⟩, hv, rfl⟩ := List.mem_map.mp hpair
    have hget := List.mem_zipIdx_iff_getElem?.mp hv
    have hlt := (List.getElem?_eq_some_iff.mp hget).1
    have hmod : i % 2 ^ 32 = i := Nat.mod_eq_of_lt (lt_of_lt_of_le hlt (hlength.trans (by decide)))
    exact ⟨v, by rw [hmod]; exact hget, rfl⟩
  have hpairs : ∀ pair ∈ indexed patterns.zipIdx, 0 ∉ pair.1 ∧
      MultiGlob.matchAlone pair.1 name = some (decide (pair.1 = name)) := by
    intro pair hpair
    obtain ⟨v, hget, hv⟩ := hmem pair hpair
    have hv' := List.mem_of_getElem? hget
    obtain ⟨hne, hnul⟩ := hstr v hv'
    exact ⟨hv ▸ hnul, matchAlone_plain (hv ▸ hne) (hv ▸ h v hv')⟩
  have hadded := MultiGlob.added_addAll (indexed patterns.zipIdx)
  obtain ⟨val, hval, hle⟩ := MultiGlob.trieValue_spec hadded name
  obtain ⟨hnone, hsome⟩ :=
    MultiGlob.matchGlobs_spec name (MultiGlob.complexGlobs (indexed patterns.zipIdx)) val
  cases hmatch : MultiGlob.matchGlobs name (MultiGlob.complexGlobs (indexed patterns.zipIdx)) val with
  | none =>
    obtain ⟨pair, hpair, hfail⟩ := (MultiGlob.exists_matchAlone_eq_none_iff
      (fun pair hpair => (hpairs pair hpair).1) hname).mpr (hnone.mp hmatch)
    rw [(hpairs pair hpair).2] at hfail
    cases hfail
  | some r =>
    have hr : ∀ b, r ≤ b ↔ MultiGlob.noValue ≤ b ∨
        ∃ i v, patterns[i]? = some v ∧ v.pattern = name ∧ i ≤ b := by
      intro b
      rw [hsome r hmatch b, hle b, or_assoc, ← MultiGlob.exists_matchAlone_iff
        (fun pair hpair => (hpairs pair hpair).1) hname b]
      refine or_congr_right ?_
      constructor
      · rintro ⟨pair, hpair, hfound, hb⟩
        rw [(hpairs pair hpair).2] at hfound
        obtain ⟨v, hget, hv⟩ := hmem pair hpair
        exact ⟨pair.2, v, hget, hv.trans (of_decide_eq_true (Option.some.inj hfound)), hb⟩
      · rintro ⟨i, v, hget, rfl, hb⟩
        have hpair := List.mem_map_of_mem (f := fun v : VersionPattern × ℕ =>
          (v.1.pattern, v.2 % 2 ^ 32)) (List.mk_mem_zipIdx_iff_getElem?.mpr hget)
        refine ⟨_, hpair, ?_, (Nat.mod_le i _).trans hb⟩
        rw [(hpairs _ hpair).2, decide_eq_true rfl]
    refine ⟨if r = MultiGlob.noValue then none else some r, ?_, ?_⟩
    · rw [MultiGlob.find, hval, hadded.globs, Option.bind_some, hmatch]
      rfl
    cases hfind : patterns.find? fun v => decide (v.pattern = name) with
    | none =>
      have hno := List.find?_eq_none.mp hfind
      have hge : MultiGlob.noValue ≤ r := by
        refine ((hr r).mp (Nat.le_refl r)).resolve_right ?_
        rintro ⟨i, v, hget, hv, -⟩
        exact hno v (List.mem_of_getElem? hget) (decide_eq_true hv)
      rw [if_pos (Nat.le_antisymm ((hr _).mpr (.inl (Nat.le_refl _))) hge)]
      rfl
    | some v =>
      obtain ⟨hv, i, hi, hget, hfirst⟩ := List.find?_eq_some_iff_getElem.mp hfind
      have hget' : patterns[i]? = some v := List.getElem?_eq_some_iff.mpr ⟨hi, hget⟩
      have hri : r = i := by
        refine Nat.le_antisymm
          ((hr i).mpr (.inr ⟨i, v, hget', of_decide_eq_true hv, Nat.le_refl i⟩)) ?_
        rcases (hr r).mp (Nat.le_refl r) with hno | ⟨j, w, hgetj, hw, hj⟩
        · exact hi.le.trans (hlength.trans hno)
        · by_contra hlt
          obtain ⟨hjlt, hgetj⟩ := List.getElem?_eq_some_iff.mp hgetj
          have hnot := hfirst j (by omega)
          rw [hgetj] at hnot
          simp [hw] at hnot
      rw [hri, if_neg (by omega)]
      exact hget'

end Plain

section Loops

variable {link : Link} {patterns : List VersionPattern} {verIdx : Key → UInt16}

def lastVersion (patterns : List VersionPattern) (key : Key) : Option UInt16 :=
  ((patterns.filter fun v => v.pattern = key).getLast?).map VersionPattern.verIdx

def firstVersion (patterns : List VersionPattern) (name : List UInt8) : Option UInt16 :=
  (patterns.find? fun v => decide (v.pattern = name)).map VersionPattern.verIdx

theorem assignPatterns_apply (patterns : List VersionPattern) (verIdx : Key → UInt16) (key : Key) :
    (assignPatterns link patterns verIdx).2 key =
      if link.isDefined key then (lastVersion patterns key).getD (verIdx key) else verIdx key := by
  induction patterns using List.reverseRecOn with
  | nil => simp [assignPatterns, lastVersion]
  | append_singleton patterns v ih =>
    rw [assignPatterns, List.foldl_concat, ← assignPatterns, assignPattern]
    by_cases hkey : v.pattern = key
    · subst hkey
      by_cases hdefined : link.isDefined v.pattern = true
      · simp [hdefined, lastVersion]
      · simp [hdefined, ih]
    · have hfilter : lastVersion (patterns ++ [v]) key = lastVersion patterns key := by
        simp [lastVersion, hkey]
      rw [hfilter, ← ih]
      dsimp only
      split
      · exact Function.update_of_ne (Ne.symm hkey) _ _
      · rfl

theorem exists_foldlM {β : Type} {step : (Key → UInt16) → β → Option (Key → UInt16)}
    {value : Key → Option UInt16} {P : β → Key → Prop}
    (hstep : ∀ verIdx b, ∃ verIdx', step verIdx b = some verIdx' ∧ ∀ key,
      (P b key → verIdx' key = (value key).getD (verIdx key)) ∧
      (¬ P b key → verIdx' key = verIdx key)) (l : List β) (verIdx : Key → UInt16) :
    ∃ verIdx', l.foldlM step verIdx = some verIdx' ∧ ∀ key,
      ((∃ b ∈ l, P b key) → verIdx' key = (value key).getD (verIdx key)) ∧
      ((¬ ∃ b ∈ l, P b key) → verIdx' key = verIdx key) := by
  induction l generalizing verIdx with
  | nil => exact ⟨verIdx, rfl, fun key => ⟨by simp, fun _ => rfl⟩⟩
  | cons b l ih =>
    obtain ⟨first, hfirst, hb⟩ := hstep verIdx b
    obtain ⟨last, hlast, hl⟩ := ih first
    refine ⟨last, by rw [List.foldlM_cons, hfirst]; exact hlast, fun key => ?_⟩
    rw [List.exists_mem_cons_iff]
    by_cases hkey : ∃ b ∈ l, P b key
    · refine ⟨fun _ => ?_, fun h => absurd (.inr hkey) h⟩
      rw [(hl key).1 hkey]
      by_cases hP : P b key
      · rw [(hb key).1 hP]
        cases value key <;> rfl
      · rw [(hb key).2 hP]
    · rw [(hl key).2 hkey, or_iff_left hkey]
      exact hb key

theorem isDefined_iff {key : Key} :
    link.isDefined key = true ↔ ∃ i, link.file key = some (.obj i) := by
  rw [Link.isDefined]
  cases link.file key with
  | none => simp
  | some file => cases file <;> simp

theorem matchPatterns_apply (link : Link) (cppDemangle : List UInt8 → Option (List UInt8))
    (hsimple : isSimple patterns = true)
    (hstr : ∀ v ∈ patterns, v.pattern ≠ [] ∧ 0 ∉ v.pattern)
    (hlength : patterns.length ≤ MultiGlob.noValue)
    (verIdx : Key → UInt16) :
    ∃ verIdx', matchPatterns link cppDemangle patterns verIdx = .ok (some verIdx') ∧ ∀ key,
      verIdx' key = if link.isDefined key then
        (firstVersion patterns (link.name key)).getD (verIdx key) else verIdx key := by
  have hplain := of_isSimple hsimple
  set m := MultiGlob.addAll (indexed patterns.zipIdx)
  have hadd : patterns.zipIdx.foldlM addPattern (.empty, .empty) = .ok (m, .empty) := by
    refine foldlM_addPattern (fun v hv => ?_) _ _
    have hmem := List.fst_mem_of_mem_zipIdx hv
    exact ⟨(hplain v.1 hmem).1, (hstr v.1 hmem).1, (hplain v.1 hmem).2⟩
  have hcpp : patterns.any VersionPattern.isCpp = false :=
    List.any_eq_false.mpr fun v hv => Bool.eq_false_iff.mp (hplain v hv).1
  have hmatch : ∀ i verIdx key, ∃ verIdx',
      matchSymbol link (findPattern cppDemangle false (m, .empty)) patterns i verIdx key =
        some verIdx' ∧ ∀ key',
      ((key' = key ∧ link.file key = some (.obj i)) →
        verIdx' key' = (firstVersion patterns (link.name key')).getD (verIdx key')) ∧
      (¬ (key' = key ∧ link.file key = some (.obj i)) → verIdx' key' = verIdx key') := by
    intro i verIdx key
    obtain ⟨idx, hidx, hbind⟩ :=
      find_indexed (fun v hv => (hplain v hv).2) hstr (link.nul_notMem key) hlength
    have hfind : findPattern cppDemangle false (m, .empty) (link.name key) = some idx := by
      rw [findPattern, hidx]
      rfl
    by_cases howner : link.file key = some (.obj i)
    · rw [matchSymbol, if_neg (not_not.mpr howner), hfind, Option.map_some, hbind]
      refine ⟨_, rfl, fun key' => ⟨?_, fun h => ?_⟩⟩
      · rintro ⟨rfl, -⟩
        rw [firstVersion]
        cases patterns.find? fun v => decide (v.pattern = link.name key') <;> simp
      · have hne : key' ≠ key := fun heq => h ⟨heq, howner⟩
        cases patterns.find? fun v => decide (v.pattern = link.name key) <;> simp [hne]
    · rw [matchSymbol, if_pos howner]
      exact ⟨verIdx, rfl, fun key' => ⟨fun h => absurd h.2 howner, fun _ => rfl⟩⟩
  obtain ⟨verIdx', hrun, hresult⟩ := exists_foldlM
    (fun verIdx (file : List Key × ℕ) => exists_foldlM (hmatch file.2) file.1 verIdx)
    link.objs.zipIdx verIdx
  refine ⟨verIdx', ?_, fun key => ?_⟩
  · rw [matchPatterns, hadd, hcpp]
    exact congrArg Except.ok hrun
  have hvisited : (∃ file ∈ link.objs.zipIdx, ∃ key' ∈ file.1,
      key = key' ∧ link.file key' = some (.obj file.2)) ↔ link.isDefined key = true := by
    rw [isDefined_iff]
    constructor
    · rintro ⟨file, -, key', -, rfl, howner⟩
      exact ⟨file.2, howner⟩
    · rintro ⟨i, howner⟩
      obtain ⟨syms, hsyms, hmem⟩ := link.owned key i howner
      exact ⟨(syms, i), List.mk_mem_zipIdx_iff_getElem?.mpr hsyms, key, hmem, rfl, howner⟩
  split
  case isTrue hdefined => exact (hresult key).1 (hvisited.mpr hdefined)
  case isFalse hother => exact (hresult key).2 fun h => hother (hvisited.mp h)

/-- Without metacharacters, the lookup of keys gives a symbol the version that matching would
give it just if the last pattern that is its key and the first that is its name agree. -/
theorem simplePath_agrees_iff (link : Link) (cppDemangle : List UInt8 → Option (List UInt8))
    (hsimple : isSimple patterns = true)
    (hstr : ∀ v ∈ patterns, v.pattern ≠ [] ∧ 0 ∉ v.pattern)
    (hlength : patterns.length ≤ MultiGlob.noValue)
    (verIdx : Key → UInt16) :
    ∃ looked matched, applyVersionScript link cppDemangle patterns verIdx = .ok (some looked) ∧
      matchPatterns link cppDemangle patterns verIdx = .ok (some matched) ∧ ∀ key,
        looked key = matched key ↔ (link.isDefined key = true →
          (lastVersion patterns key).getD (verIdx key) =
            (firstVersion patterns (link.name key)).getD (verIdx key)) := by
  obtain ⟨matched, hmatched, hversion⟩ :=
    matchPatterns_apply link cppDemangle hsimple hstr hlength verIdx
  refine ⟨_, matched, if_pos hsimple, hmatched, fun key => ?_⟩
  rw [assignPatterns_apply, hversion]
  by_cases hdefined : link.isDefined key = true
  · rw [if_pos hdefined, if_pos hdefined]
    exact ⟨fun h _ => h, fun h => h hdefined⟩
  · rw [if_neg hdefined, if_neg hdefined]
    exact ⟨fun _ h => absurd h hdefined, fun _ => rfl⟩

end Loops

theorem nul_notMem_foo : 0 ∉ str "foo" := by decide

/-- A symbol `foo@V2`, owned by the only object file. -/
def linkOfFoo : Link where
  name _ := str "foo"
  nul_notMem _ := nul_notMem_foo
  file key := if key = str "foo@V2" then some (.obj 0) else none
  objs := [[str "foo@V2"]]
  undefinedVersion := false
  owned key i h := by
    split at h
    case isTrue hkey =>
      cases h
      exact ⟨_, rfl, hkey ▸ List.mem_singleton_self _⟩
    case isFalse => cases h

/-- The patterns `foo` and `foo@V2` of two versions. -/
def patternsOfFoo : List VersionPattern :=
  [⟨str "foo", "foo.map", str "V1", 2, false⟩, ⟨str "foo@V2", "foo.map", str "V2", 3, false⟩]

theorem simplePath_agrees_iff_foo :
    ∃ looked matched, applyVersionScript linkOfFoo some patternsOfFoo (fun _ => 1) =
        .ok (some looked) ∧
      matchPatterns linkOfFoo some patternsOfFoo (fun _ => 1) = .ok (some matched) ∧ ∀ key,
        looked key = matched key ↔ (linkOfFoo.isDefined key = true →
          (lastVersion patternsOfFoo key).getD 1 =
            (firstVersion patternsOfFoo (linkOfFoo.name key)).getD 1) :=
  simplePath_agrees_iff linkOfFoo some (by decide) (by decide) (by decide) _

end Mold.Elf.Script
