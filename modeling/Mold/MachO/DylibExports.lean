import Mathlib.Data.List.Induction
import Mathlib.Data.List.Perm.Basic

/-!
# Exports of a dylib

`DylibFile::add_export` of `input-files.cc` collects the exported symbols of a dylib.  Its
callers pass what they find in the export trie, in the lists of a `.tbd` file, and in
re-exported dylibs, in the order in which they find it.

The word of flags that is stored for a name is also what says that the name is new:
it is zero then, but zero are also the flags of an ordinary strong definition.  So a
strong definition may be replaced by a weak one that comes later.  The main theorem
says for which sequences the order does not matter.
-/

namespace Mold.MachO.DylibExports

variable {ν : Type*}

/-- `EXPORT_SYMBOL_FLAGS_WEAK_DEFINITION` -/
def weakDefinition : UInt32 := 0x04

def isWeak (flags : UInt32) : Bool :=
  flags &&& weakDefinition != 0

/-- Is the kind, which is what `EXPORT_SYMBOL_FLAGS_KIND_MASK` selects, that of
thread-local variables? -/
def isTls (flags : UInt32) : Bool :=
  flags &&& 0x03 == 0x01

/-- The map `exports`, and the names for which "inconsistent TLS type" has been
reported. -/
structure Exports (ν : Type*) where
  flags : ν → Option UInt32 := fun _ => none
  errors : List ν := []

/-- `DylibFile::add_export` -/
def addExport [DecidableEq ν] (exports : Exports ν) (sym : ν × UInt32) : Exports ν :=
  let existing := (exports.flags sym.1).getD 0
  if existing = 0 then
    { exports with flags := Function.update exports.flags sym.1 (some sym.2) }
  else
    { flags :=
        if isWeak existing && !isWeak sym.2 then
          Function.update exports.flags sym.1 (some sym.2)
        else
          exports.flags
      errors :=
        if isTls existing != isTls sym.2 then exports.errors ++ [sym.1] else exports.errors }

def addExports [DecidableEq ν] (seq : List (ν × UInt32)) : Exports ν :=
  seq.foldl addExport {}

/-- The calls of `DylibFile::parse_tapi`. -/
def parseTapi (exports weakExports : List ν) : List (ν × UInt32) :=
  exports.map (fun name => (name, 0)) ++ weakExports.map fun name => (name, weakDefinition)

/-! ## One name -/

/-- What the calls for one name do: the flags that are stored, zero if there are none,
and whether there was an error. -/
def merge (acc : UInt32 × Bool) (flags : UInt32) : UInt32 × Bool :=
  if acc.1 = 0 then
    (flags, acc.2)
  else
    (if isWeak acc.1 && !isWeak flags then flags else acc.1, acc.2 || (isTls acc.1 != isTls flags))

def flagsOf [DecidableEq ν] (seq : List (ν × UInt32)) (name : ν) : List UInt32 :=
  (seq.filter (·.1 = name)).map Prod.snd

section

variable [DecidableEq ν] {seq seq' : List (ν × UInt32)} {name : ν}

theorem flagsOf_concat (sym : ν × UInt32) :
    flagsOf (seq ++ [sym]) name = flagsOf seq name ++ if sym.1 = name then [sym.2] else [] := by
  rw [flagsOf, List.filter_append, List.map_append, List.filter_singleton]
  split <;> simp_all [flagsOf]

theorem flagsOf_perm (h : seq'.Perm seq) : (flagsOf seq' name).Perm (flagsOf seq name) :=
  (h.filter _).map _

theorem exists_perm_flagsOf {l : List UInt32} (h : l.Perm (flagsOf seq name)) :
    ∃ seq', seq'.Perm seq ∧ flagsOf seq' name = l := by
  refine ⟨l.map (Prod.mk name) ++ seq.filter (·.1 ≠ name), ?_, ?_⟩
  · have hname : (flagsOf seq name).map (Prod.mk name) = seq.filter (·.1 = name) := by
      rw [flagsOf, List.map_map]
      refine (List.map_congr_left fun sym hsym => ?_).trans (List.map_id _)
      have heq := of_decide_eq_true (List.mem_filter.mp hsym).2
      exact Prod.ext heq.symm rfl
    have hperm := (h.map (Prod.mk name)).append_right (seq.filter (·.1 ≠ name))
    rw [hname] at hperm
    refine hperm.trans ?_
    have hnot : (seq.filter (·.1 ≠ name)) = seq.filter (fun sym => !decide (sym.1 = name)) :=
      List.filter_congr fun sym _ => decide_not
    rw [hnot]
    exact List.filter_append_perm _ _
  · rw [flagsOf, List.filter_append, List.map_append]
    have hall : (l.map (Prod.mk name)).filter (·.1 = name) = l.map (Prod.mk name) := by
      refine List.filter_eq_self.mpr fun sym hsym => ?_
      obtain ⟨flags, -, rfl⟩ := List.mem_map.mp hsym
      exact decide_eq_true rfl
    have hnone : (seq.filter (·.1 ≠ name)).filter (·.1 = name) = [] := by
      refine List.filter_eq_nil_iff.mpr fun sym hsym heq => ?_
      exact of_decide_eq_true (List.mem_filter.mp hsym).2 (of_decide_eq_true heq)
    rw [hall, hnone, List.map_nil, List.append_nil, List.map_map]
    exact List.map_id _

def mergeAll (l : List UInt32) : UInt32 × Bool :=
  l.foldl merge (0, false)

theorem addExports_spec (seq : List (ν × UInt32)) (name : ν) :
    (addExports seq).flags name =
        (if flagsOf seq name = [] then none else some (mergeAll (flagsOf seq name)).1) ∧
      (name ∈ (addExports seq).errors ↔ (mergeAll (flagsOf seq name)).2 = true) := by
  induction seq using List.reverseRecOn with
  | nil => exact ⟨rfl, iff_of_false List.not_mem_nil Bool.false_ne_true⟩
  | append_singleton seq sym ih =>
    obtain ⟨hflags, herrors⟩ := ih
    rw [addExports, List.foldl_append, flagsOf_concat]
    change (addExport (addExports seq) sym).flags name = _ ∧
      (name ∈ (addExport (addExports seq) sym).errors ↔ _)
    by_cases hname : sym.1 = name
    · subst hname
      rw [if_pos rfl, mergeAll, List.foldl_append, ← mergeAll, List.foldl_cons, List.foldl_nil,
        if_neg (List.concat_ne_nil _ _)]
      have hexisting : ((addExports seq).flags sym.1).getD 0 =
          (mergeAll (flagsOf seq sym.1)).1 := by
        rw [hflags]
        split
        case isTrue hnil => rw [hnil]; rfl
        case isFalse => rfl
      rw [addExport, merge]
      rw [hexisting]
      by_cases hzero : (mergeAll (flagsOf seq sym.1)).1 = 0
      · rw [if_pos hzero, if_pos hzero]
        exact ⟨Function.update_self _ _ _, herrors⟩
      · have hne : flagsOf seq sym.1 ≠ [] := by
          intro hnil
          rw [hnil] at hzero
          exact hzero rfl
        rw [if_neg hne] at hflags
        rw [if_neg hzero, if_neg hzero]
        dsimp only
        constructor
        · split
          · exact Function.update_self _ _ _
          · exact hflags
        · rw [Bool.or_eq_true, ← herrors]
          split
          case isTrue htls =>
            exact iff_of_true (List.mem_concat_self) (.inr htls)
          case isFalse htls => exact (or_iff_left htls).symm
    · rw [if_neg hname, List.append_nil, ← hflags, ← herrors, addExport]
      have hupdate : Function.update (addExports seq).flags sym.1 (some sym.2) name =
          (addExports seq).flags name := Function.update_of_ne (Ne.symm hname) _ _
      split
      · exact ⟨hupdate, Iff.rfl⟩
      · constructor
        · dsimp only
          split
          · exact hupdate
          · rfl
        · dsimp only
          split
          · rw [List.mem_append, List.mem_singleton, or_iff_left (Ne.symm hname)]
          · rfl

end

/-! ## The calls for one name in any order -/

section

variable {l l' : List UInt32} {s e : UInt32} {err : Bool}

/-- The flags of a strong definition that can not be mistaken for those of a new name. -/
def IsMarked (flags : UInt32) : Prop :=
  flags ≠ 0 ∧ isWeak flags = false

theorem isWeak_zero : isWeak 0 = false := rfl

theorem isTls_zero : isTls 0 = false := rfl

theorem merge_zero (flags : UInt32) : merge (0, err) flags = (flags, err) :=
  if_pos rfl

theorem merge_fst (he : e ≠ 0) (flags : UInt32) :
    (merge (e, err) flags).1 = if isWeak e && !isWeak flags then flags else e := by
  rw [merge, if_neg he]

theorem merge_snd (he : e ≠ 0) (flags : UInt32) :
    (merge (e, err) flags).2 = (err || (isTls e != isTls flags)) := by
  rw [merge, if_neg he]

theorem merge_fst_eq_or (acc : UInt32 × Bool) (flags : UInt32) :
    (merge acc flags).1 = flags ∨ (merge acc flags).1 = acc.1 := by
  rw [merge]
  split
  · exact .inl rfl
  · dsimp only
    split
    · exact .inl rfl
    · exact .inr rfl

theorem merge_of_err (flags : UInt32) : (merge (e, true) flags).2 = true := by
  rw [merge]
  split
  · rfl
  · rfl

theorem foldl_merge_of_err : (l.foldl merge (e, true)).2 = true := by
  induction l generalizing e with
  | nil => rfl
  | cons flags l ih =>
    rw [List.foldl_cons, ← Prod.eta (merge (e, true) flags), merge_of_err]
    exact ih

theorem foldl_merge_of_isMarked (he : IsMarked e) : (l.foldl merge (e, err)).1 = e := by
  induction l generalizing err with
  | nil => rfl
  | cons flags l ih =>
    have hfst : (merge (e, err) flags).1 = e := by
      rw [merge_fst he.1, he.2]
      rfl
    rw [List.foldl_cons, ← Prod.eta (merge (e, err) flags), hfst]
    exact ih

theorem exists_isMarked_foldl_merge (h : IsMarked e ∨ ∃ s ∈ l, IsMarked s) :
    IsMarked (l.foldl merge (e, err)).1 ∧
      ((l.foldl merge (e, err)).1 = e ∨ (l.foldl merge (e, err)).1 ∈ l) := by
  induction l generalizing e err with
  | nil =>
    rcases h with h | ⟨s, hs, -⟩
    · exact ⟨h, .inl rfl⟩
    · exact absurd hs List.not_mem_nil
  | cons flags l ih =>
    have hnext : IsMarked (merge (e, err) flags).1 ∨ ∃ s ∈ l, IsMarked s := by
      rw [List.exists_mem_cons_iff, ← or_assoc] at h
      refine h.imp_left fun hmarked => ?_
      by_cases he : e = 0
      · subst he
        rw [merge_zero]
        exact hmarked.resolve_left fun hzero => hzero.1 rfl
      · rw [merge_fst he]
        split
        case isTrue hreplaced =>
          rw [Bool.and_eq_true, Bool.not_eq_true'] at hreplaced
          have hmarked' := hmarked.resolve_left fun hmarked => by
            rw [hmarked.2] at hreplaced
            exact Bool.false_ne_true hreplaced.1
          exact hmarked'
        case isFalse hkept =>
          refine hmarked.elim id fun hflags => ⟨he, ?_⟩
          rw [hflags.2, Bool.not_false, Bool.and_true] at hkept
          exact Bool.not_eq_true _ ▸ hkept
    obtain ⟨hmarked, hmem⟩ := @ih _ (merge (e, err) flags).2 hnext
    rw [Prod.eta] at hmarked hmem
    refine ⟨hmarked, ?_⟩
    rw [List.foldl_cons, List.mem_cons]
    rcases hmem with hsame | hmem
    · rw [hsame]
      exact (merge_fst_eq_or (e, err) flags).elim (fun h => .inr (.inl h)) .inl
    · exact .inr (.inr hmem)

theorem foldl_merge_of_isWeak (he : isWeak e = true) (hl : ∀ flags ∈ l, isWeak flags = true) :
    (l.foldl merge (e, err)).1 = e := by
  have hne : e ≠ 0 := by
    rintro rfl
    exact Bool.false_ne_true he
  induction l generalizing err with
  | nil => rfl
  | cons flags l ih =>
    have hfst : (merge (e, err) flags).1 = e := by
      rw [merge_fst hne, hl flags List.mem_cons_self, Bool.not_true, Bool.and_false]
      rfl
    rw [List.foldl_cons, ← Prod.eta (merge (e, err) flags), hfst]
    exact ih fun flags hflags => hl flags (List.mem_cons_of_mem _ hflags)

theorem foldl_merge_of_zero (hl : ∀ flags ∈ l, flags = 0) : l.foldl merge (0, err) = (0, err) := by
  induction l with
  | nil => rfl
  | cons flags l ih =>
    obtain rfl := hl flags List.mem_cons_self
    rw [List.foldl_cons, merge_zero]
    exact ih fun flags hflags => hl flags (List.mem_cons_of_mem _ hflags)

theorem foldl_merge_of_isTls {kind : Bool} (he : e = 0 ∨ isTls e = kind)
    (hl : ∀ flags ∈ l, isTls flags = kind) :
    (l.foldl merge (e, err)).2 = err ∧
      ((l.foldl merge (e, err)).1 = 0 ∨ isTls (l.foldl merge (e, err)).1 = kind) := by
  induction l generalizing e with
  | nil => exact ⟨rfl, he⟩
  | cons flags l ih =>
    have hflags := hl flags List.mem_cons_self
    have hsnd : (merge (e, err) flags).2 = err := by
      by_cases hzero : e = 0
      · rw [hzero, merge_zero]
      · rw [merge_snd hzero, he.resolve_left hzero, hflags, bne_self_eq_false, Bool.or_false]
    have hfst : (merge (e, err) flags).1 = 0 ∨ isTls (merge (e, err) flags).1 = kind := by
      rcases merge_fst_eq_or (e, err) flags with h | h
      · rw [h]
        exact .inr hflags
      · rw [h]
        exact he
    rw [List.foldl_cons, ← Prod.eta (merge (e, err) flags), hsnd]
    exact ih hfst fun flags hflags => hl flags (List.mem_cons_of_mem _ hflags)

theorem foldl_merge_snd_of_isTls (he : isTls e = true) (h : ∃ flags ∈ l, isTls flags = false) :
    (l.foldl merge (e, err)).2 = true := by
  have hne : e ≠ 0 := by
    rintro rfl
    exact Bool.false_ne_true he
  induction l generalizing e err with
  | nil =>
    obtain ⟨flags, hflags, -⟩ := h
    exact absurd hflags List.not_mem_nil
  | cons flags l ih =>
    rw [List.foldl_cons, ← Prod.eta (merge (e, err) flags)]
    cases hflags : isTls flags with
    | false =>
      have hsnd : (merge (e, err) flags).2 = true := by
        rw [merge_snd hne, he, hflags]
        exact Bool.or_true _
      rw [hsnd]
      exact foldl_merge_of_err
    | true =>
      have hfst : isTls (merge (e, err) flags).1 = true := by
        rcases merge_fst_eq_or (e, err) flags with h | h
        · rw [h]
          exact hflags
        · rw [h]
          exact he
      refine ih hfst ?_ fun hzero => ?_
      · obtain ⟨flags', hmem, hnot⟩ := h
        rcases List.mem_cons.mp hmem with rfl | hmem
        · exact absurd (hnot.symm.trans hflags) Bool.false_ne_true
        · exact ⟨flags', hmem, hnot⟩
      · rw [hzero] at hfst
        exact Bool.false_ne_true hfst

theorem foldl_merge_snd_of_isMarked (he : IsMarked e)
    (h : ∃ flags ∈ l, isTls flags ≠ isTls e) : (l.foldl merge (e, err)).2 = true := by
  induction l generalizing err with
  | nil =>
    obtain ⟨flags, hflags, -⟩ := h
    exact absurd hflags List.not_mem_nil
  | cons flags l ih =>
    have hfst : (merge (e, err) flags).1 = e := by
      rw [merge_fst he.1, he.2]
      rfl
    rw [List.foldl_cons, ← Prod.eta (merge (e, err) flags), hfst]
    by_cases hflags : isTls flags = isTls e
    · refine ih ?_
      obtain ⟨flags', hmem, hnot⟩ := h
      rcases List.mem_cons.mp hmem with rfl | hmem
      · exact absurd hflags hnot
      · exact ⟨flags', hmem, hnot⟩
    · have hsnd : (merge (e, err) flags).2 = true := by
        rw [merge_snd he.1, Bool.or_eq_true, bne_iff_ne]
        exact .inr (Ne.symm hflags)
      rw [hsnd]
      exact foldl_merge_of_err

theorem isTls_eq_of_foldl_merge (he : e ≠ 0) (hl : 0 ∉ l)
    (hnone : (l.foldl merge (e, err)).2 = false) : ∀ flags ∈ l, isTls flags = isTls e := by
  induction l generalizing e err with
  | nil => exact fun _ h => absurd h List.not_mem_nil
  | cons flags l ih =>
    obtain ⟨hne, hrest⟩ := not_or.mp (mt List.mem_cons.mpr hl)
    rw [List.foldl_cons, ← Prod.eta (merge (e, err) flags)] at hnone
    have hkind : isTls flags = isTls e := by
      by_contra hdiff
      have hsnd : (merge (e, err) flags).2 = true := by
        rw [merge_snd he, Bool.or_eq_true, bne_iff_ne]
        exact .inr (Ne.symm hdiff)
      rw [hsnd, foldl_merge_of_err] at hnone
      exact Bool.false_ne_true hnone.symm
    have hfst : (merge (e, err) flags).1 ≠ 0 ∧ isTls (merge (e, err) flags).1 = isTls e := by
      rcases merge_fst_eq_or (e, err) flags with h | h
      · rw [h]
        exact ⟨Ne.symm hne, hkind⟩
      · rw [h]
        exact ⟨he, rfl⟩
    intro flags' hmem
    rcases List.mem_cons.mp hmem with rfl | hmem
    · exact hkind
    · exact (ih hfst.1 hrest hnone flags' hmem).trans hfst.2

theorem foldl_merge_snd_of_mixed (he : isTls e = false) (hs : s ∈ l) (hmarked : IsMarked s)
    (htls : isTls s = false) (h : ∃ flags ∈ l, isTls flags = true) :
    (l.foldl merge (e, err)).2 = true := by
  induction l generalizing e err with
  | nil => exact absurd hs List.not_mem_nil
  | cons flags l ih =>
    rw [List.foldl_cons, ← Prod.eta (merge (e, err) flags)]
    cases hflags : isTls flags with
    | true =>
      have hsl : s ∈ l := by
        refine (List.mem_cons.mp hs).resolve_left ?_
        rintro rfl
        exact Bool.false_ne_true (htls.symm.trans hflags)
      by_cases hzero : e = 0
      · rw [hzero, merge_zero]
        exact foldl_merge_snd_of_isTls hflags ⟨s, hsl, htls⟩
      · have hsnd : (merge (e, err) flags).2 = true := by
          rw [merge_snd hzero, he, hflags]
          exact Bool.or_true _
        rw [hsnd]
        exact foldl_merge_of_err
    | false =>
      have hrest : ∃ flags ∈ l, isTls flags = true := by
        obtain ⟨flags', hmem, htrue⟩ := h
        rcases List.mem_cons.mp hmem with rfl | hmem
        · exact absurd (hflags.symm.trans htrue) Bool.false_ne_true
        · exact ⟨flags', hmem, htrue⟩
      have hfst : isTls (merge (e, err) flags).1 = false := by
        rcases merge_fst_eq_or (e, err) flags with h | h
        · rw [h]
          exact hflags
        · rw [h]
          exact he
      rcases List.mem_cons.mp hs with rfl | hsl
      · have hkeeps := (@exists_isMarked_foldl_merge [s] e err
          (.inr ⟨s, List.mem_singleton_self s, hmarked⟩)).1
        obtain ⟨flags', hmem, htrue⟩ := hrest
        refine foldl_merge_snd_of_isMarked hkeeps ⟨flags', hmem, fun heq => ?_⟩
        exact Bool.false_ne_true (hfst.symm.trans (heq.symm.trans htrue))
      · exact ih hfst hsl hrest

end

/-! ## When the order does not matter -/

/-- The definitions of a name agree: they are all the same, or there is a strong one with
flags, which is the only such one, and which is not thread-local if there is a strong one
without flags. -/
def Agree (l : List UInt32) : Prop :=
  (∀ a ∈ l, ∀ b ∈ l, a = b) ∨
    ∃ s ∈ l, IsMarked s ∧ (∀ a ∈ l, IsMarked a → a = s) ∧ (isTls s = true → 0 ∉ l)

section

variable {l l' : List UInt32} {s : UInt32}

theorem mergeAll_cons (a : UInt32) : mergeAll (a :: l) = l.foldl merge (a, false) := by
  rw [mergeAll, List.foldl_cons, merge_zero]

theorem mergeAll_fst_of_marked (hs : s ∈ l) (hmarked : IsMarked s)
    (hunique : ∀ a ∈ l, IsMarked a → a = s) : (mergeAll l).1 = s := by
  obtain ⟨hfound, hmem⟩ := @exists_isMarked_foldl_merge l 0 false (.inr ⟨s, hs, hmarked⟩)
  rcases hmem with hzero | hmem
  · exact absurd hzero hfound.1
  · exact hunique _ hmem hfound

theorem mergeAll_of_const (hall : ∀ a ∈ l, a = s) (hne : l ≠ []) : mergeAll l = (s, false) := by
  have hself : merge (s, false) s = (s, false) := by
    rw [merge, ite_self, bne_self_eq_false]
    exact ite_self _
  have hrun : ∀ k : List UInt32, (∀ a ∈ k, a = s) → k.foldl merge (s, false) = (s, false) := by
    intro k hk
    induction k with
    | nil => rfl
    | cons a k ih =>
      obtain rfl := hk a List.mem_cons_self
      rw [List.foldl_cons, hself]
      exact ih fun b hb => hk b (List.mem_cons_of_mem _ hb)
  cases l with
  | nil => exact absurd rfl hne
  | cons a l =>
    obtain rfl := hall a List.mem_cons_self
    rw [mergeAll_cons]
    exact hrun l fun b hb => hall b (List.mem_cons_of_mem _ hb)

theorem mergeAll_snd_iff (hs : s ∈ l) (hmarked : IsMarked s) (hzero : isTls s = true → 0 ∉ l) :
    (mergeAll l).2 = true ↔ (∃ a ∈ l, isTls a = true) ∧ ∃ a ∈ l, isTls a = false := by
  constructor
  · intro herror
    have hkind : ∀ kind, (∀ a ∈ l, isTls a = kind) → False := by
      intro kind hall
      have hnone := (@foldl_merge_of_isTls l 0 false kind (.inl rfl) hall).1
      exact Bool.false_ne_true (hnone.symm.trans herror)
    constructor
    · by_contra hnone
      push Not at hnone
      exact hkind false fun a ha => Bool.not_eq_true _ ▸ hnone a ha
    · by_contra hnone
      push Not at hnone
      exact hkind true fun a ha => Bool.not_eq_false _ ▸ hnone a ha
  · rintro ⟨htls, hnot⟩
    cases hkind : isTls s with
    | false => exact foldl_merge_snd_of_mixed isTls_zero hs hmarked hkind htls
    | true =>
      cases l with
      | nil => exact absurd hs List.not_mem_nil
      | cons a l =>
        obtain ⟨hne, hrest⟩ := not_or.mp (mt List.mem_cons.mpr (hzero hkind))
        rw [mergeAll_cons]
        by_contra herror
        have hall := isTls_eq_of_foldl_merge (Ne.symm hne) hrest (Bool.not_eq_true _ ▸ herror)
        have hsame : ∀ b ∈ a :: l, isTls b = isTls a := by
          intro b hb
          rcases List.mem_cons.mp hb with rfl | hb
          · rfl
          · exact hall b hb
        obtain ⟨b, hb, htrue⟩ := htls
        obtain ⟨c, hc, hfalse⟩ := hnot
        rw [hsame b hb] at htrue
        rw [hsame c hc, htrue] at hfalse
        exact Bool.false_ne_true hfalse.symm

/-- What is stored for a name, and whether an error is reported, is the same in every
order, and the name is strong if one of its definitions is. -/
structure Steady (l : List UInt32) : Prop where
  flags : ∀ l', l'.Perm l → (mergeAll l').1 = (mergeAll l).1
  strong : l ≠ [] → (isWeak (mergeAll l).1 = false ↔ ∃ a ∈ l, isWeak a = false)
  errors : ∀ l', l'.Perm l → ((mergeAll l').2 = true ↔ (mergeAll l).2 = true)

theorem Agree.steady (h : Agree l) : Steady l := by
  rcases h with hall | ⟨s, hs, hmarked, hunique, hzero⟩
  · cases l with
    | nil =>
      refine ⟨fun l' hl' => ?_, fun hne => absurd rfl hne, fun l' hl' => ?_⟩
      · rw [hl'.eq_nil]
      · rw [hl'.eq_nil]
    | cons s k =>
      have hs : s ∈ s :: k := List.mem_cons_self
      have hconst : ∀ l', l'.Perm (s :: k) → mergeAll l' = (s, false) := by
        intro l' hl'
        have hs' : s ∈ l' := hl'.mem_iff.mpr hs
        exact mergeAll_of_const (fun a ha => hall a (hl'.mem_iff.mp ha) s hs)
          (List.ne_nil_of_mem hs')
      refine ⟨fun l' hl' => ?_, fun _ => ?_, fun l' hl' => ?_⟩
      · rw [hconst l' hl', hconst _ (.refl _)]
      · rw [hconst _ (.refl _)]
        refine ⟨fun hstrong => ⟨s, hs, hstrong⟩, ?_⟩
        rintro ⟨a, ha, hstrong⟩
        rw [hall s hs a ha]
        exact hstrong
      · rw [hconst l' hl', hconst _ (.refl _)]
  · have hfst : ∀ l', l'.Perm l → (mergeAll l').1 = s := fun l' hl' =>
      mergeAll_fst_of_marked (hl'.mem_iff.mpr hs) hmarked fun a ha =>
        hunique a (hl'.mem_iff.mp ha)
    refine ⟨fun l' hl' => ?_, fun _ => ?_, fun l' hl' => ?_⟩
    · rw [hfst l' hl', hfst l (.refl l)]
    · rw [hfst l (.refl l)]
      exact iff_of_true hmarked.2 ⟨s, hs, hmarked.2⟩
    · rw [mergeAll_snd_iff (hl'.mem_iff.mpr hs) hmarked fun htls => mt hl'.mem_iff.mp (hzero htls),
        mergeAll_snd_iff hs hmarked hzero]
      simp only [hl'.mem_iff]

theorem Steady.fst_eq (h : Steady l) {a : UInt32} (ha : a ∈ l)
    (hstays : ((l.erase a).foldl merge (a, false)).1 = a) : (mergeAll l).1 = a := by
  rw [← h.flags _ (List.perm_cons_erase ha).symm, mergeAll_cons]
  exact hstays

theorem mergeAll_fst_of_isWeak (hl : ∀ a ∈ l, isWeak a = true) :
    (mergeAll l).1 = 0 ∧ l = [] ∨ (mergeAll l).1 ∈ l := by
  cases l with
  | nil => exact .inl ⟨rfl, rfl⟩
  | cons a l =>
    rw [mergeAll_cons, foldl_merge_of_isWeak (hl a List.mem_cons_self) fun b hb =>
      hl b (List.mem_cons_of_mem _ hb)]
    exact .inr List.mem_cons_self

theorem foldl_merge_zero_of_isWeak {e : UInt32}
    (he : e = 0 ∨ isWeak e = true ∧ isTls e = false) (hl : ∀ a ∈ l, a = 0) (hne : l ≠ []) :
    l.foldl merge (e, false) = (0, false) := by
  cases l with
  | nil => exact absurd rfl hne
  | cons a l =>
    obtain rfl := hl a List.mem_cons_self
    have hfirst : merge (e, false) 0 = (0, false) := by
      rcases he with rfl | ⟨hweak, htls⟩
      · exact merge_zero 0
      · rw [merge, hweak, htls]
        exact ite_self _
    rw [List.foldl_cons, hfirst]
    exact foldl_merge_of_zero fun b hb => hl b (List.mem_cons_of_mem _ hb)

theorem exists_perm_mergeAll_snd (hzero : 0 ∈ l)
    (hnot : ∀ a ∈ l, isTls a = false → isWeak a = false → a = 0) :
    ∃ l', l'.Perm l ∧ (mergeAll l').2 = false := by
  let rest := l.filter fun a => !isTls a
  have hrest : ∀ a ∈ rest, a ∈ l ∧ isTls a = false := fun a ha =>
    ⟨(List.mem_filter.mp ha).1, Bool.not_eq_true' _ ▸ (List.mem_filter.mp ha).2⟩
  have hweak : ∀ a ∈ rest.filter isWeak, isTls a = false ∧ isWeak a = true := fun a ha =>
    ⟨(hrest a (List.mem_filter.mp ha).1).2, (List.mem_filter.mp ha).2⟩
  have hzeros : ∀ a ∈ rest.filter fun a => !isWeak a, a = 0 := fun a ha =>
    hnot a (hrest a (List.mem_filter.mp ha).1).1 (hrest a (List.mem_filter.mp ha).1).2
      (Bool.not_eq_true' _ ▸ (List.mem_filter.mp ha).2)
  have hmem : 0 ∈ rest.filter fun a => !isWeak a :=
    List.mem_filter.mpr ⟨List.mem_filter.mpr ⟨hzero, rfl⟩, rfl⟩
  refine ⟨rest.filter isWeak ++ rest.filter (fun a => !isWeak a) ++ l.filter isTls, ?_, ?_⟩
  · refine ((List.filter_append_perm isWeak rest).append_right _).trans ?_
    exact List.perm_append_comm.trans (List.filter_append_perm isTls l)
  · have hfirst : (mergeAll (rest.filter isWeak)).2 = false :=
      (foldl_merge_of_isTls (.inl rfl) fun a ha => (hweak a ha).1).1
    have hflags : (mergeAll (rest.filter isWeak)).1 = 0 ∨
        isWeak (mergeAll (rest.filter isWeak)).1 = true ∧
          isTls (mergeAll (rest.filter isWeak)).1 = false := by
      refine (mergeAll_fst_of_isWeak fun a ha => (hweak a ha).2).imp And.left fun ha => ?_
      exact (hweak _ ha).symm
    have hnone := foldl_merge_zero_of_isWeak hflags hzeros (List.ne_nil_of_mem hmem)
    rw [← hfirst, Prod.eta] at hnone
    rw [mergeAll, List.foldl_append, List.foldl_append, ← mergeAll, hnone]
    exact (foldl_merge_of_isTls (.inl rfl) fun a ha => (List.mem_filter.mp ha).2).1.trans hfirst

theorem Steady.agree (h : Steady l) : Agree l := by
  by_cases hmarked : ∃ s ∈ l, IsMarked s
  · obtain ⟨s, hs, hmarked⟩ := hmarked
    have hfst : (mergeAll l).1 = s := h.fst_eq hs (foldl_merge_of_isMarked hmarked)
    have hunique : ∀ a ∈ l, IsMarked a → a = s := fun a ha ha' =>
      (h.fst_eq ha (foldl_merge_of_isMarked ha')).symm.trans hfst
    refine .inr ⟨s, hs, hmarked, hunique, fun htls hzero => ?_⟩
    have herror : (mergeAll l).2 = true := by
      rw [← h.errors _ (List.perm_cons_erase hs).symm, mergeAll_cons]
      refine foldl_merge_snd_of_isMarked hmarked ⟨0, ?_, ?_⟩
      · exact (List.mem_erase_of_ne (Ne.symm hmarked.1)).mpr hzero
      · rw [isTls_zero, htls]
        exact Bool.false_ne_true
    obtain ⟨l', hperm, hnone⟩ := exists_perm_mergeAll_snd hzero fun a ha hnot hstrong => by
      by_contra hne
      rw [hunique a ha ⟨hne, hstrong⟩, htls] at hnot
      exact Bool.false_ne_true hnot.symm
    rw [← h.errors l' hperm, hnone] at herror
    exact Bool.false_ne_true herror
  · have hweak : ∀ a ∈ l, a ≠ 0 → isWeak a = true := by
      intro a ha hne
      by_contra hstrong
      exact hmarked ⟨a, ha, hne, Bool.not_eq_true _ ▸ hstrong⟩
    left
    by_cases hzero : 0 ∈ l
    · have hall : ∀ a ∈ l, a = 0 := by
        by_contra hsome
        push Not at hsome
        obtain ⟨a, ha, hne⟩ := hsome
        have hperm : ((l.filter fun a => !isWeak a) ++ l.filter isWeak).Perm l :=
          List.perm_append_comm.trans (List.filter_append_perm isWeak l)
        have hzeros : ∀ a ∈ l.filter fun a => !isWeak a, a = 0 := by
          intro a ha
          obtain ⟨ha, hstrong⟩ := List.mem_filter.mp ha
          by_contra hne
          rw [hweak a ha hne] at hstrong
          exact Bool.false_ne_true hstrong
        have hfst := h.flags _ hperm
        rw [mergeAll, List.foldl_append, foldl_merge_of_zero hzeros, ← mergeAll] at hfst
        have hmem : a ∈ l.filter isWeak := List.mem_filter.mpr ⟨ha, hweak a ha hne⟩
        rcases @mergeAll_fst_of_isWeak (l.filter isWeak)
          (fun b hb => (List.mem_filter.mp hb).2) with ⟨-, hnil⟩ | hlast
        · rw [hnil] at hmem
          exact List.not_mem_nil hmem
        · have hstrong := (h.strong (List.ne_nil_of_mem ha)).mpr ⟨0, hzero, isWeak_zero⟩
          rw [← hfst, (List.mem_filter.mp hlast).2] at hstrong
          exact Bool.false_ne_true hstrong.symm
      exact fun a ha b hb => (hall a ha).trans (hall b hb).symm
    · intro a ha b hb
      have hall : ∀ c ∈ l, isWeak c = true := fun c hc =>
        hweak c hc fun h => hzero (h ▸ hc)
      have hfst : ∀ c ∈ l, (mergeAll l).1 = c := fun c hc =>
        h.fst_eq hc (foldl_merge_of_isWeak (hall c hc) fun d hd => hall d (List.mem_of_mem_erase hd))
      exact (hfst a ha).symm.trans (hfst b hb)

end

section

variable [DecidableEq ν]

/-- The exports do not depend on the order of the calls: the flags and the error of every
name are the same for every permutation, and a name is strong if one of its definitions
is. -/
structure OrderIndependent (seq : List (ν × UInt32)) : Prop where
  flags : ∀ seq', seq'.Perm seq → ∀ name,
    (addExports seq').flags name = (addExports seq).flags name
  strong : ∀ name, ∀ flags ∈ (addExports seq).flags name,
    (isWeak flags = false ↔ ∃ sym ∈ seq, sym.1 = name ∧ isWeak sym.2 = false)
  errors : ∀ seq', seq'.Perm seq → ∀ name,
    (name ∈ (addExports seq').errors ↔ name ∈ (addExports seq).errors)

theorem mem_flagsOf {seq : List (ν × UInt32)} {name : ν} {flags : UInt32} :
    flags ∈ flagsOf seq name ↔ (name, flags) ∈ seq := by
  simp [flagsOf]

theorem addExports_flags_of_ne_nil {seq : List (ν × UInt32)} {name : ν}
    (hne : flagsOf seq name ≠ []) :
    (addExports seq).flags name = some (mergeAll (flagsOf seq name)).1 := by
  rw [(addExports_spec seq name).1, if_neg hne]

/-- The order does not matter if and only if the definitions of every name agree. -/
theorem addExports_orderIndependent_iff (seq : List (ν × UInt32)) :
    OrderIndependent seq ↔ ∀ name, Agree (flagsOf seq name) := by
  constructor
  · intro h name
    apply Steady.agree
    refine ⟨fun l' hl' => ?_, fun hne => ?_, fun l' hl' => ?_⟩
    · by_cases hne : flagsOf seq name = []
      · rw [hne] at hl' ⊢
        rw [hl'.eq_nil]
      · obtain ⟨seq', hperm, rfl⟩ := exists_perm_flagsOf hl'
        have hne' : flagsOf seq' name ≠ [] := fun hnil => hne (hnil ▸ hl').symm.eq_nil
        have hflags := h.flags seq' hperm name
        rw [addExports_flags_of_ne_nil hne, addExports_flags_of_ne_nil hne'] at hflags
        exact Option.some.inj hflags
    · rw [h.strong name _ (addExports_flags_of_ne_nil hne)]
      constructor
      · rintro ⟨sym, hsym, rfl, hstrong⟩
        exact ⟨sym.2, mem_flagsOf.mpr hsym, hstrong⟩
      · rintro ⟨flags, hflags, hstrong⟩
        exact ⟨(name, flags), mem_flagsOf.mp hflags, rfl, hstrong⟩
    · obtain ⟨seq', hperm, rfl⟩ := exists_perm_flagsOf hl'
      rw [← (addExports_spec seq' name).2, ← (addExports_spec seq name).2]
      exact h.errors seq' hperm name
  · intro h
    have hsteady : ∀ name, Steady (flagsOf seq name) := fun name => (h name).steady
    refine ⟨fun seq' hperm name => ?_, fun name flags hflags => ?_, fun seq' hperm name => ?_⟩
    · have hflags := @flagsOf_perm _ _ seq seq' name hperm
      have hnil : flagsOf seq' name = [] ↔ flagsOf seq name = [] :=
        ⟨fun hnil => (hnil ▸ hflags).symm.eq_nil, fun hnil => (hnil ▸ hflags).eq_nil⟩
      rw [(addExports_spec seq' name).1, (addExports_spec seq name).1]
      exact if_congr hnil rfl (congrArg some ((hsteady name).flags _ hflags))
    · have hne : flagsOf seq name ≠ [] := by
        intro hnil
        rw [(addExports_spec seq name).1, if_pos hnil] at hflags
        cases hflags
      rw [addExports_flags_of_ne_nil hne] at hflags
      obtain rfl := Option.some.inj hflags
      rw [(hsteady name).strong hne]
      constructor
      · rintro ⟨flags, hflags, hstrong⟩
        exact ⟨(name, flags), mem_flagsOf.mp hflags, rfl, hstrong⟩
      · rintro ⟨sym, hsym, rfl, hstrong⟩
        exact ⟨sym.2, mem_flagsOf.mpr hsym, hstrong⟩
    · rw [(addExports_spec seq' name).2, (addExports_spec seq name).2]
      exact (hsteady name).errors _ (flagsOf_perm hperm)

end

/-- A `.tbd` file with a name in both lists. -/
theorem not_orderIndependent_parseTapi : ¬ OrderIndependent (parseTapi ["_a"] ["_a"]) := by
  intro h
  have hstrong := (h.strong "_a" weakDefinition rfl).mpr ⟨("_a", 0), by decide, rfl, rfl⟩
  exact absurd hstrong (by decide)

end Mold.MachO.DylibExports
