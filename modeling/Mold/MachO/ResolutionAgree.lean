import Mathlib.Data.Prod.Lex
import Mold.Lib.StableSort
import Mold.MachO.Resolution

/-!
# Batch and file-wise resolution of object files

`resolve_object_symbols` sorts the candidates of all files by symbol and rank and
applies the first one of each group.  `ObjectFile::resolve_symbols` compares the
definitions of one file with the owners, one after another, and leaves a section symbol
without a subsection half written.
-/

namespace Mold.MachO

open Mold.Lib

variable {ν : Type*}

section Sorted

variable [LinearOrder ν]

/-- The candidates are sorted by symbol, in the order of the addresses of the symbols,
and by rank. -/
def SortedCandidates (cands : List (ObjectSymbolCandidate ν)) : Prop :=
  cands.Pairwise fun a b => toLex (a.sym, a.rank) ≤ toLex (b.sym, b.rank)

/-- The loop of `resolve_object_symbols` over the sorted candidates. -/
def resolveSorted (F : Files ν) (isAlive : FileRef → Bool) :
    List (ObjectSymbolCandidate ν) → (ν → Symbol ℕ) → ν → Symbol ℕ
  | [], syms => syms
  | c :: cands, syms =>
    resolveSorted F isAlive (cands.dropWhile fun d => d.sym = c.sym)
      (if c.rank < getSymbolRank F isAlive (syms c.sym) then
        Function.update syms c.sym (applyObjectSymbolCandidate c)
      else
        syms)
  termination_by cands => cands.length
  decreasing_by
    exact Nat.lt_succ_of_le (List.dropWhile_sublist _).length_le

/-- `ObjectFile::resolve_symbols` for one file after another. -/
def resolveObjectFiles (F : Files ν) (isAlive : FileRef → Bool) (order : List ℕ)
    (syms : ν → Symbol ℕ) : ν → Symbol ℕ :=
  order.foldl (fun syms i => resolveObjectFile F isAlive i syms) syms

end Sorted

/-- Two records have the same owner, subsection, value and flags. -/
structure Symbol.Agrees (a b : Symbol ℕ) : Prop where
  file : a.file = b.file
  subsec : a.subsec = b.subsec
  value : a.value = b.value
  isWeak : a.isWeak = b.isWeak
  isCommon : a.isCommon = b.isCommon
  isAbs : a.isAbs = b.isAbs
  isTlv : a.isTlv = b.isTlv
  noDeadStrip : a.noDeadStrip = b.noDeadStrip

theorem Symbol.Agrees.refl (a : Symbol ℕ) : a.Agrees a := by
  constructor <;> rfl

/-- Both ways to resolve the symbols of some files yield the same, from every state of
the symbols, for every order of the files and for every sorted list of candidates. -/
def ResolutionsAgree [LinearOrder ν] (F : Files ν) (isAlive : FileRef → Bool)
    (files : List ℕ) : Prop :=
  ∀ syms order cands, order.Perm files →
    cands.Perm (files.flatMap (collectObjectSymbolCandidates F isAlive)) →
    SortedCandidates cands → ∀ x,
      (resolveSorted F isAlive cands syms x).Agrees (resolveObjectFiles F isAlive order syms x)

/-! ## Definitions of a symbol -/

def MachSym.defines (m : MachSym ν) : Bool := m.isExtern && ! m.isUndef

def MachSym.isLost (m : MachSym ν) : Bool := m.type == .sect && m.subsec.isNone

section Definitions

variable [DecidableEq ν] (F : Files ν) (isAlive : FileRef → Bool)

def definitionsOf (files : List ℕ) (x : ν) : List (ℕ × MachSym ν) :=
  files.flatMap fun i =>
    ((F.obj i).syms.filter fun m => m.defines && decide (m.name = x)).map (Prod.mk i)

def definitionRank (d : ℕ × MachSym ν) : ℕ :=
  getRank F isAlive (.obj d.1) d.2.isCommon d.2.weakDef

/-- The record of a symbol after a definition took it over. -/
def claimForObject (d : ℕ × MachSym ν) (sym : Symbol ℕ) : Symbol ℕ :=
  let sym : Symbol ℕ :=
    { sym with
      file := some (.obj d.1)
      visibility := .scopeModule
      isWeak := d.2.weakDef
      noDeadStrip := d.2.noDeadStrip
      subsec := none }
  match d.2.type with
  | .undf =>
    { sym with value := d.2.value, isCommon := true, isAbs := false, isTlv := false }
  | .abs =>
    { sym with value := d.2.value, isCommon := false, isAbs := true, isTlv := false }
  | .sect =>
    match d.2.subsec with
    | none => sym
    | some s =>
      { sym with
        subsec := some s.id
        value := d.2.value - s.inputAddr.toUInt64
        isCommon := false
        isAbs := false
        isTlv := s.isTlv }

/-- What `ObjectFile::resolve_symbols` does to a symbol for one definition of it. -/
def resolveDefinition (sym : Symbol ℕ) (d : ℕ × MachSym ν) : Symbol ℕ :=
  if definitionRank F isAlive d < getSymbolRank F isAlive sym then claimForObject d sym
  else sym

/-- Parsed files: a file defines a name at most once, and the priorities are different
and fit in the low bits of a rank. -/
structure FilesApart (files : List ℕ) : Prop where
  nodup : files.Nodup
  names : ∀ i ∈ files, (((F.obj i).syms.filter MachSym.defines).map MachSym.name).Nodup
  priority_lt : ∀ i ∈ files, (F.obj i).priority < 2 ^ 24
  priority_inj : ∀ i ∈ files, ∀ j ∈ files, (F.obj i).priority = (F.obj j).priority → i = j

/-- A section symbol without a subsection is never the definition with the least
rank. -/
def LostOutranked (files : List ℕ) : Prop :=
  ∀ x, ∀ d ∈ definitionsOf F files x, d.2.isLost = true →
    ∃ c ∈ definitionsOf F files x, c.2.isLost = false ∧
      definitionRank F isAlive c < definitionRank F isAlive d

end Definitions

section OneSymbol

variable [DecidableEq ν] {F : Files ν} {isAlive : FileRef → Bool}

theorem resolveObjectSymbol_apply (i : ℕ) (syms : ν → Symbol ℕ) (m : MachSym ν) (x : ν) :
    resolveObjectSymbol F isAlive i syms m x =
      if m.defines && decide (m.name = x) then resolveDefinition F isAlive (syms x) (i, m)
      else syms x := by
  rw [resolveObjectSymbol]
  by_cases hdef : m.defines = true
  · have hskip : ¬ ((!m.isExtern || m.isUndef) = true) := by
      rw [MachSym.defines] at hdef
      cases hext : m.isExtern <;> cases hundef : m.isUndef <;> simp_all
    rw [if_neg hskip, hdef, Bool.true_and]
    by_cases hname : m.name = x
    · subst hname
      rw [if_pos (decide_eq_true rfl), resolveDefinition, definitionRank]
      split
      · rw [Function.update_self]
        rfl
      · rfl
    · rw [decide_eq_false hname, if_neg Bool.false_ne_true]
      split
      · exact Function.update_of_ne (Ne.symm hname) _ _
      · rfl
  · have hskip : (!m.isExtern || m.isUndef) = true := by
      rw [MachSym.defines] at hdef
      cases hext : m.isExtern <;> cases hundef : m.isUndef <;> simp_all
    rw [if_pos hskip, Bool.eq_false_of_not_eq_true hdef, Bool.false_and, if_neg Bool.false_ne_true]

theorem resolveObjectFile_apply (i : ℕ) (syms : ν → Symbol ℕ) (x : ν) :
    resolveObjectFile F isAlive i syms x =
      (definitionsOf F [i] x).foldl (resolveDefinition F isAlive) (syms x) := by
  rw [resolveObjectFile, definitionsOf, List.flatMap_singleton]
  generalize (F.obj i).syms = ms
  induction ms generalizing syms with
  | nil => rfl
  | cons m ms ih =>
    rw [List.foldl_cons, ih, resolveObjectSymbol_apply, List.filter_cons]
    split
    · rw [List.map_cons, List.foldl_cons]
    · rfl

theorem definitionsOf_cons (i : ℕ) (files : List ℕ) (x : ν) :
    definitionsOf F (i :: files) x = definitionsOf F [i] x ++ definitionsOf F files x := by
  rw [definitionsOf, List.flatMap_cons, definitionsOf, List.flatMap_singleton]
  rfl

theorem resolveObjectFiles_apply (order : List ℕ) (syms : ν → Symbol ℕ) (x : ν) :
    order.foldl (fun syms i => resolveObjectFile F isAlive i syms) syms x =
      (definitionsOf F order x).foldl (resolveDefinition F isAlive) (syms x) := by
  induction order generalizing syms with
  | nil => rfl
  | cons i order ih =>
    rw [List.foldl_cons, ih, resolveObjectFile_apply,
      definitionsOf_cons i order, List.foldl_append]

variable {files : List ℕ} {d : ℕ × MachSym ν}

theorem mem_definitionsOf {x : ν} :
    d ∈ definitionsOf F files x ↔
      d.1 ∈ files ∧ d.2 ∈ (F.obj d.1).syms ∧ d.2.defines = true ∧ d.2.name = x := by
  simp only [definitionsOf, List.mem_flatMap, List.mem_map, List.mem_filter, Bool.and_eq_true,
    decide_eq_true_eq]
  constructor
  · rintro ⟨i, hi, m, ⟨hm, hdef, hname⟩, rfl⟩
    exact ⟨hi, hm, hdef, hname⟩
  · rintro ⟨hi, hm, hdef, hname⟩
    exact ⟨d.1, hi, d.2, ⟨hm, hdef, hname⟩, rfl⟩

theorem definitionsOf_perm {files order : List ℕ} (h : order.Perm files) (x : ν) :
    (definitionsOf F order x).Perm (definitionsOf F files x) :=
  h.flatMap_right _

/-! ## Candidates and definitions -/

omit [DecidableEq ν] in
theorem MachSym.defines_eq_false_iff (m : MachSym ν) :
    m.defines = false ↔ (!m.isExtern || m.isUndef) = true := by
  rw [MachSym.defines]
  cases m.isExtern <;> cases m.isUndef <;> decide

variable {m : MachSym ν}

omit [DecidableEq ν] in
theorem objectSymbolCandidate_of_not_defines {i : ℕ}
    (h : m.defines = false) : objectSymbolCandidate F isAlive i m = none := by
  rw [objectSymbolCandidate, if_pos (m.defines_eq_false_iff.mp h)]

omit [DecidableEq ν] in
theorem isLost_of_candidate_eq_none {i : ℕ} (hdef : m.defines = true)
    (h : objectSymbolCandidate F isAlive i m = none) : m.isLost = true := by
  rw [objectSymbolCandidate, if_neg] at h
  · cases htype : m.type with
    | undf => simp [htype] at h
    | abs => simp [htype] at h
    | sect =>
      simp only [htype, Option.map_eq_none_iff] at h
      simp [MachSym.isLost, htype, h]
  · rw [← m.defines_eq_false_iff, hdef]
    decide

/-- The candidate of a definition has its rank, and applying it yields the same record
as the definition. -/
structure CandidateOf (F : Files ν) (isAlive : FileRef → Bool) (d : ℕ × MachSym ν)
    (c : ObjectSymbolCandidate ν) : Prop where
  defines : d.2.defines = true
  sym : c.sym = d.2.name
  file : c.file = d.1
  rank : c.rank = definitionRank F isAlive d
  isCommon : c.isCommon = d.2.isCommon
  kept : d.2.isLost = false
  agrees : ∀ sym, (applyObjectSymbolCandidate c).Agrees (claimForObject d sym)

variable {c : ObjectSymbolCandidate ν}

omit [DecidableEq ν] in
theorem candidateOf_of_mem {i : ℕ}
    (h : objectSymbolCandidate F isAlive i m = some c) : CandidateOf F isAlive (i, m) c := by
  have hdef : m.defines = true := by
    by_contra hnot
    rw [objectSymbolCandidate_of_not_defines (Bool.eq_false_of_not_eq_true hnot)] at h
    exact absurd h (by simp)
  have hcommon (htype : m.type = .undf) : m.isCommon = true := by
    rw [MachSym.defines, MachSym.isUndef, htype] at hdef
    cases hc : m.isCommon <;> simp_all
  rw [objectSymbolCandidate, if_neg] at h
  · cases htype : m.type with
    | undf =>
      simp only [htype] at h
      rw [← Option.some.inj h]
      refine ⟨hdef, rfl, rfl, rfl, rfl, by simp [MachSym.isLost, htype], fun sym => ?_⟩
      constructor <;> simp [applyObjectSymbolCandidate, claimForObject, htype, hcommon htype]
    | abs =>
      simp only [htype] at h
      rw [← Option.some.inj h]
      refine ⟨hdef, rfl, rfl, rfl, rfl, by simp [MachSym.isLost, htype], fun sym => ?_⟩
      constructor <;>
        simp [applyObjectSymbolCandidate, claimForObject, htype, MachSym.isCommon]
    | sect =>
      simp only [htype, Option.map_eq_some_iff] at h
      obtain ⟨s, hs, rfl⟩ := h
      refine ⟨hdef, rfl, rfl, rfl, by simp [MachSym.isCommon, htype],
        by simp [MachSym.isLost, htype, hs], fun sym => ?_⟩
      constructor <;> simp [applyObjectSymbolCandidate, claimForObject, htype, hs]
  · rw [← m.defines_eq_false_iff, hdef]
    decide

theorem exists_definition {x : ν}
    (h : c ∈ files.flatMap (collectObjectSymbolCandidates F isAlive)) (hx : c.sym = x) :
    ∃ d ∈ definitionsOf F files x, CandidateOf F isAlive d c := by
  obtain ⟨i, hi, hc⟩ := List.mem_flatMap.mp h
  obtain ⟨m, hm, hcand⟩ := List.mem_filterMap.mp hc
  have hof := candidateOf_of_mem hcand
  exact ⟨(i, m), mem_definitionsOf.mpr ⟨hi, hm, hof.defines, hof.sym ▸ hx⟩, hof⟩

variable (isAlive) in
theorem exists_candidate {x : ν} (h : d ∈ definitionsOf F files x) (hkept : d.2.isLost = false) :
    ∃ c ∈ files.flatMap (collectObjectSymbolCandidates F isAlive),
      c.sym = x ∧ CandidateOf F isAlive d c := by
  obtain ⟨hi, hm, hdef, hname⟩ := mem_definitionsOf.mp h
  cases hcand : objectSymbolCandidate F isAlive d.1 d.2 with
  | none =>
    rw [isLost_of_candidate_eq_none hdef hcand] at hkept
    exact absurd hkept (by decide)
  | some c =>
    have hof := candidateOf_of_mem hcand
    exact ⟨c, List.mem_flatMap.mpr ⟨d.1, hi, List.mem_filterMap.mpr ⟨d.2, hm, hcand⟩⟩,
      hof.sym.trans hname, hof⟩

/-! ## The winner -/

omit [DecidableEq ν] in
theorem getRank_le_of_common (i : ℕ) (isCommon isWeak : Bool) :
    getRank F isAlive (.obj i) false isWeak ≤ getRank F isAlive (.obj i) isCommon isWeak := by
  have hclass : symRank (isAlive (.obj i)) false false isWeak ≤
      symRank (isAlive (.obj i)) false isCommon isWeak := by
    cases isAlive (.obj i) <;> cases isCommon <;> cases isWeak <;> decide
  rw [getRank, getRank]
  exact Nat.add_le_add_right (Nat.mul_le_mul_right _ hclass) _

omit [DecidableEq ν] in
theorem claimForObject_file (d : ℕ × MachSym ν) (sym : Symbol ℕ) :
    (claimForObject d sym).file = some (.obj d.1) := by
  unfold claimForObject
  split
  · rfl
  · rfl
  · split <;> rfl

omit [DecidableEq ν] in
theorem claimForObject_isWeak (d : ℕ × MachSym ν) (sym : Symbol ℕ) :
    (claimForObject d sym).isWeak = d.2.weakDef := by
  unfold claimForObject
  split
  · rfl
  · rfl
  · split <;> rfl

omit [DecidableEq ν] in
theorem definitionRank_le (d : ℕ × MachSym ν) (sym : Symbol ℕ) (hdef : d.2.defines = true) :
    definitionRank F isAlive d ≤ getSymbolRank F isAlive (claimForObject d sym) := by
  rw [getSymbolRank_of_file_some (claimForObject_file d sym), claimForObject_isWeak,
    definitionRank]
  cases htype : d.2.type with
  | undf =>
    have hcommon : (claimForObject d sym).isCommon = true := by
      simp [claimForObject, htype]
    have hd : d.2.isCommon = true := by
      rw [MachSym.defines, MachSym.isUndef, htype] at hdef
      cases hc : d.2.isCommon <;> simp_all
    rw [hcommon, hd]
  | abs =>
    have hd : d.2.isCommon = false := by simp [MachSym.isCommon, htype]
    rw [hd]
    exact getRank_le_of_common _ _ _
  | sect =>
    have hd : d.2.isCommon = false := by simp [MachSym.isCommon, htype]
    rw [hd]
    exact getRank_le_of_common _ _ _

omit [DecidableEq ν] in
theorem getSymbolRank_claimForObject (h : CandidateOf F isAlive d c) (sym : Symbol ℕ) :
    getSymbolRank F isAlive (claimForObject d sym) = definitionRank F isAlive d := by
  have hcommon : (claimForObject d sym).isCommon = d.2.isCommon := by
    rw [← (h.agrees sym).isCommon, ← h.isCommon]
    rfl
  rw [getSymbolRank_of_file_some (claimForObject_file d sym), claimForObject_isWeak,
    definitionRank, hcommon]

variable {ds : List (ℕ × MachSym ν)}

omit [DecidableEq ν] in
theorem foldl_resolveDefinition_eq {sym : Symbol ℕ}
    (h : ∀ d ∈ ds, getSymbolRank F isAlive sym ≤ definitionRank F isAlive d) :
    ds.foldl (resolveDefinition F isAlive) sym = sym := by
  induction ds with
  | nil => rfl
  | cons d ds ih =>
    have hkeep : resolveDefinition F isAlive sym d = sym :=
      if_neg (Nat.not_lt.mpr (h d List.mem_cons_self))
    rw [List.foldl_cons, hkeep]
    exact ih fun d' hd' => h d' (List.mem_cons_of_mem d hd')

omit [DecidableEq ν] in
theorem lt_getSymbolRank_foldl {sym : Symbol ℕ} {r : ℕ}
    (hdef : ∀ d ∈ ds, d.2.defines = true) (hsym : r < getSymbolRank F isAlive sym)
    (h : ∀ d ∈ ds, r < definitionRank F isAlive d) :
    r < getSymbolRank F isAlive (ds.foldl (resolveDefinition F isAlive) sym) := by
  induction ds generalizing sym with
  | nil => exact hsym
  | cons d ds ih =>
    apply ih (fun d' hd' => hdef d' (List.mem_cons_of_mem d hd')) _
      fun d' hd' => h d' (List.mem_cons_of_mem d hd')
    rw [resolveDefinition]
    split
    · have hle : definitionRank F isAlive d ≤ _ :=
        definitionRank_le d sym (hdef d List.mem_cons_self)
      have hlt := h d List.mem_cons_self
      omega
    · exact hsym

omit [DecidableEq ν] in
theorem foldl_concat_eq {before : List (ℕ × MachSym ν)} {sym : Symbol ℕ}
    {m : ℕ × MachSym ν} (hdef : ∀ d ∈ before, d.2.defines = true)
    (hsym : definitionRank F isAlive m < getSymbolRank F isAlive sym)
    (hleast : ∀ d ∈ before, definitionRank F isAlive m < definitionRank F isAlive d) :
    ∃ old, (before ++ [m]).foldl (resolveDefinition F isAlive) sym = claimForObject m old := by
  refine ⟨before.foldl (resolveDefinition F isAlive) sym, ?_⟩
  rw [List.foldl_append, List.foldl_cons, List.foldl_nil]
  exact if_pos (lt_getSymbolRank_foldl hdef hsym hleast)

omit [DecidableEq ν] in
theorem exists_foldl_eq {sym : Symbol ℕ}
    {m : ℕ × MachSym ν} (hc : CandidateOf F isAlive m c)
    (hm : m ∈ ds) (hdef : ∀ d ∈ ds, d.2.defines = true)
    (hsym : definitionRank F isAlive m < getSymbolRank F isAlive sym)
    (hleast : ∀ d ∈ ds, d ≠ m → definitionRank F isAlive m < definitionRank F isAlive d) :
    ∃ old, ds.foldl (resolveDefinition F isAlive) sym = claimForObject m old := by
  obtain ⟨before, after, rfl, hbefore⟩ := List.eq_append_cons_of_mem hm
  obtain ⟨old, hold⟩ := foldl_concat_eq (fun d hd => hdef d (List.mem_append_left _ hd)) hsym
    fun d hd => hleast d (List.mem_append_left _ hd) fun heq => hbefore (heq ▸ hd)
  refine ⟨old, ?_⟩
  have hsplit : before ++ m :: after = before ++ [m] ++ after := by simp
  rw [hsplit, List.foldl_append, hold]
  apply foldl_resolveDefinition_eq
  intro d hd
  rw [getSymbolRank_claimForObject hc]
  by_cases heq : d = m
  · rw [heq]
  · exact Nat.le_of_lt (hleast d (List.mem_append_right _ (List.mem_cons_of_mem m hd)) heq)

end OneSymbol

section Sorted

variable [LinearOrder ν] {F : Files ν} {isAlive : FileRef → Bool}

def applyFirst (F : Files ν) (isAlive : FileRef → Bool) (sym : Symbol ℕ) :
    Option (ObjectSymbolCandidate ν) → Symbol ℕ
  | none => sym
  | some c =>
    if c.rank < getSymbolRank F isAlive sym then applyObjectSymbolCandidate c else sym

omit [LinearOrder ν] in
theorem find?_dropWhile {α : Type*} {p q : α → Bool} (h : ∀ a, q a = true → p a = false)
    (l : List α) : (l.dropWhile q).find? p = l.find? p := by
  induction l with
  | nil => rfl
  | cons a l ih =>
    by_cases ha : q a = true
    · rw [List.dropWhile_cons_of_pos ha, ih, List.find?_cons_of_neg]
      rw [h a ha]
      exact Bool.false_ne_true
    · rw [List.dropWhile_cons_of_neg ha]

variable {cands : List (ObjectSymbolCandidate ν)} {c : ObjectSymbolCandidate ν}

theorem sym_ne_of_mem_dropWhile (h : SortedCandidates (c :: cands)) :
    ∀ d ∈ cands.dropWhile (fun d => decide (d.sym = c.sym)), d.sym ≠ c.sym := by
  have hle : ∀ d ∈ cands, c.sym ≤ d.sym := by
    intro d hd
    have hcd := (List.pairwise_cons.mp h).1 d hd
    rw [Prod.Lex.toLex_le_toLex] at hcd
    rcases hcd with hlt | ⟨heq, -⟩
    · exact le_of_lt hlt
    · exact le_of_eq heq
  have hsorted := (List.pairwise_cons.mp h).2
  clear h
  induction cands with
  | nil => exact fun d hd => absurd hd List.not_mem_nil
  | cons e cands ih =>
    by_cases he : e.sym = c.sym
    · rw [List.dropWhile_cons_of_pos (by simpa using he)]
      exact ih (fun d hd => hle d (List.mem_cons_of_mem e hd)) (List.pairwise_cons.mp hsorted).2
    · rw [List.dropWhile_cons_of_neg (by simpa using he)]
      have hgt : c.sym < e.sym := lt_of_le_of_ne (hle e List.mem_cons_self) (Ne.symm he)
      intro d hd
      rcases List.mem_cons.mp hd with rfl | hd
      · exact he
      · have hed := (List.pairwise_cons.mp hsorted).1 d hd
        rw [Prod.Lex.toLex_le_toLex] at hed
        rcases hed with hlt | ⟨heq, -⟩
        · exact ne_of_gt (lt_trans hgt hlt)
        · exact ne_of_gt (lt_of_lt_of_eq hgt heq)

theorem resolveSorted_apply (h : SortedCandidates cands) (syms : ν → Symbol ℕ) (x : ν) :
    resolveSorted F isAlive cands syms x =
      applyFirst F isAlive (syms x) (cands.find? fun c => decide (c.sym = x)) := by
  induction cands, syms using resolveSorted.induct F isAlive with
  | case1 syms =>
    rw [resolveSorted]
    rfl
  | case2 c cands syms ih =>
    have hrest := sym_ne_of_mem_dropWhile h
    have hsorted := (List.pairwise_cons.mp h).2
    have hsub : (cands.dropWhile fun d => decide (d.sym = c.sym)).Sublist cands :=
      List.dropWhile_sublist _
    have htail := ih (hsorted.sublist hsub)
    rw [dite_eq_ite] at htail
    rw [resolveSorted, htail]
    by_cases hx : c.sym = x
    · subst hx
      have hnone : (cands.dropWhile fun d => decide (d.sym = c.sym)).find?
          (fun d => decide (d.sym = c.sym)) = none := by
        rw [List.find?_eq_none]
        intro d hd
        simpa using hrest d hd
      rw [hnone, List.find?_cons_of_pos (by simp)]
      simp only [applyFirst]
      split
      · exact Function.update_self _ _ _
      · rfl
    · rw [List.find?_cons_of_neg (by simpa using hx), find?_dropWhile]
      · congr 1
        split
        · exact Function.update_of_ne (Ne.symm hx) _ _
        · rfl
      · intro d hd
        have hd' : d.sym = c.sym := by simpa using hd
        rw [hd']
        simpa using hx

variable {x : ν}

theorem sym_of_find? (h : cands.find? (fun c => decide (c.sym = x)) = some c) : c.sym = x := by
  have hp := @List.find?_some _ (fun c : ObjectSymbolCandidate ν => decide (c.sym = x)) _ _ h
  exact of_decide_eq_true hp

theorem rank_le_of_find? (h : SortedCandidates cands)
    (hc : cands.find? (fun c => decide (c.sym = x)) = some c) :
    ∀ d ∈ cands, d.sym = x → c.rank ≤ d.rank := by
  induction cands with
  | nil => exact fun d hd => absurd hd List.not_mem_nil
  | cons e cands ih =>
    intro d hd hdx
    have hcons := List.pairwise_cons.mp h
    by_cases he : e.sym = x
    · rw [List.find?_cons_of_pos (by simpa using he), Option.some_inj] at hc
      subst hc
      rcases List.mem_cons.mp hd with rfl | hd
      · exact Nat.le_refl _
      · have hle := hcons.1 d hd
        rw [Prod.Lex.toLex_le_toLex, he, hdx] at hle
        rcases hle with hlt | ⟨-, hrank⟩
        · exact absurd hlt (lt_irrefl x)
        · exact hrank
    · rw [List.find?_cons_of_neg (by simpa using he)] at hc
      rcases List.mem_cons.mp hd with rfl | hd
      · exact absurd hdx he
      · exact ih hcons.2 hc d hd hdx

section Apart

variable {files : List ℕ} (h : FilesApart F files)
include h

theorem FilesApart.eq_of_file_eq {d d' : ℕ × MachSym ν}
    (hd : d ∈ definitionsOf F files x) (hd' : d' ∈ definitionsOf F files x)
    (heq : d.1 = d'.1) : d = d' := by
  obtain ⟨hi, hm, hdef, hname⟩ := mem_definitionsOf.mp hd
  obtain ⟨-, hm', hdef', hname'⟩ := mem_definitionsOf.mp hd'
  rw [← heq] at hm'
  have hsame := List.inj_on_of_nodup_map (h.names d.1 hi)
    (List.mem_filter.mpr ⟨hm, hdef⟩) (List.mem_filter.mpr ⟨hm', hdef'⟩)
    (hname.trans hname'.symm)
  exact Prod.ext heq hsame

theorem FilesApart.definitionRank_lt {d : ℕ × MachSym ν} (hd : d ∈ definitionsOf F files x) :
    definitionRank F isAlive d < unclaimedRank * 2 ^ 24 := by
  obtain ⟨hi, -⟩ := mem_definitionsOf.mp hd
  have hprio := h.priority_lt d.1 hi
  have hclass : symRank (isAlive (.obj d.1)) false d.2.isCommon d.2.weakDef ≤ 6 := by
    cases isAlive (.obj d.1) <;> cases d.2.isCommon <;> cases d.2.weakDef <;> decide
  simp only [definitionRank, getRank, FileRef.isDylib_obj, Files.priority_obj, unclaimedRank]
  omega

theorem FilesApart.eq_of_rank_eq {d d' : ℕ × MachSym ν}
    (hd : d ∈ definitionsOf F files x) (hd' : d' ∈ definitionsOf F files x)
    (heq : definitionRank F isAlive d = definitionRank F isAlive d') : d = d' := by
  obtain ⟨hi, -⟩ := mem_definitionsOf.mp hd
  obtain ⟨hi', -⟩ := mem_definitionsOf.mp hd'
  have hprio := h.priority_lt d.1 hi
  have hprio' := h.priority_lt d'.1 hi'
  simp only [definitionRank, getRank, FileRef.isDylib_obj, Files.priority_obj] at heq
  exact h.eq_of_file_eq hd hd' (h.priority_inj d.1 hi d'.1 hi' (by omega))

theorem FilesApart.definitionsOf_singleton {d : ℕ × MachSym ν}
    (hd : d ∈ definitionsOf F files x) : definitionsOf F [d.1] x = [d] := by
  obtain ⟨hi, hm, hdef, hname⟩ := mem_definitionsOf.mp hd
  have hnodup : (definitionsOf F [d.1] x).Nodup := by
    rw [definitionsOf, List.flatMap_singleton]
    apply List.Nodup.map (Prod.mk_right_injective d.1)
    have hdefines := ((h.names d.1 hi).of_map _).filter fun m => decide (m.name = x)
    rw [List.filter_filter] at hdefines
    simpa only [Bool.and_comm] using hdefines
  apply List.perm_singleton.mp
  rw [List.perm_ext_iff_of_nodup hnodup (List.nodup_singleton d)]
  intro d'
  rw [List.mem_singleton]
  constructor
  · intro hd'
    obtain ⟨hi', hm', hdef', hname'⟩ := mem_definitionsOf.mp hd'
    rw [List.mem_singleton] at hi'
    exact h.eq_of_file_eq (mem_definitionsOf.mpr ⟨hi' ▸ hi, hm', hdef', hname'⟩) hd hi'
  · rintro rfl
    exact mem_definitionsOf.mpr ⟨List.mem_singleton_self _, hm, hdef, hname⟩

variable (isAlive) in
theorem FilesApart.exists_least (hne : definitionsOf F files x ≠ []) :
    ∃ m ∈ definitionsOf F files x, ∀ d ∈ definitionsOf F files x,
      d ≠ m → definitionRank F isAlive m < definitionRank F isAlive d := by
  obtain ⟨m, hm⟩ := Option.ne_none_iff_exists'.mp
    (mt (List.argmin_eq_none (f := definitionRank F isAlive)).mp hne)
  refine ⟨m, List.argmin_mem hm, ?_⟩
  intro d hd hdm
  have hle := List.le_of_mem_argmin hd hm
  have hrank : definitionRank F isAlive m ≠ definitionRank F isAlive d :=
    fun heq => hdm (h.eq_of_rank_eq (List.argmin_mem hm) hd heq).symm
  omega

end Apart

theorem sortedCandidates_mergeSort (cands : List (ObjectSymbolCandidate ν)) :
    SortedCandidates
      (cands.mergeSort fun a b => decide (toLex (a.sym, a.rank) ≤ toLex (b.sym, b.rank))) :=
  pairwise_mergeSort_key (fun c : ObjectSymbolCandidate ν => toLex (c.sym, c.rank)) cands

section Agree

variable {files : List ℕ}

theorem FilesApart.agrees (h : FilesApart F files) (hlost : LostOutranked F isAlive files)
    {order : List ℕ} (horder : order.Perm files)
    (hcands : cands.Perm (files.flatMap (collectObjectSymbolCandidates F isAlive)))
    (hsorted : SortedCandidates cands) (syms : ν → Symbol ℕ) (x : ν) :
    (resolveSorted F isAlive cands syms x).Agrees (resolveObjectFiles F isAlive order syms x) := by
  rw [resolveSorted_apply hsorted, resolveObjectFiles, resolveObjectFiles_apply]
  have hperm := definitionsOf_perm (F := F) horder x
  by_cases hne : definitionsOf F files x = []
  · have hfind : cands.find? (fun c => decide (c.sym = x)) = none := by
      rw [List.find?_eq_none]
      intro c hc hx
      obtain ⟨d, hd, -⟩ := exists_definition (hcands.mem_iff.mp hc) (of_decide_eq_true hx)
      rw [hne] at hd
      exact absurd hd List.not_mem_nil
    rw [hne] at hperm
    rw [hfind, hperm.eq_nil]
    exact Symbol.Agrees.refl _
  · obtain ⟨m, hm, hleast⟩ := h.exists_least isAlive hne
    have hkept : m.2.isLost = false := by
      by_contra hm'
      obtain ⟨c, hc, hck, hlt⟩ := hlost x m hm (Bool.eq_true_of_not_eq_false hm')
      have hcm : c ≠ m := fun heq => absurd hlt (heq ▸ Nat.lt_irrefl _)
      exact absurd hlt (Nat.lt_asymm (hleast c hc hcm))
    obtain ⟨c, hc, hcx, hof⟩ := exists_candidate isAlive hm hkept
    have hfind : ∃ e, cands.find? (fun c => decide (c.sym = x)) = some e ∧
        CandidateOf F isAlive m e := by
      cases hfirst : cands.find? (fun c => decide (c.sym = x)) with
      | none =>
        rw [List.find?_eq_none] at hfirst
        exact absurd (decide_eq_true hcx) (hfirst c (hcands.mem_iff.mpr hc))
      | some e =>
        obtain ⟨d, hd, hde⟩ := exists_definition
          (hcands.mem_iff.mp (List.mem_of_find?_eq_some hfirst)) (sym_of_find? hfirst)
        have hle := rank_le_of_find? hsorted hfirst c (hcands.mem_iff.mpr hc) hcx
        rw [hde.rank, hof.rank] at hle
        have hdm : d = m := by
          by_contra hdm
          have hlt := hleast d hd hdm
          omega
        exact ⟨e, rfl, hdm ▸ hde⟩
    obtain ⟨e, hfirst, hem⟩ := hfind
    rw [hfirst, applyFirst, hem.rank]
    have hdef : ∀ d ∈ definitionsOf F order x, d.2.defines = true :=
      fun d hd => (mem_definitionsOf.mp hd).2.2.1
    by_cases hwins : definitionRank F isAlive m < getSymbolRank F isAlive (syms x)
    · obtain ⟨old, hold⟩ := exists_foldl_eq hem (hperm.mem_iff.mpr hm) hdef hwins
        fun d hd => hleast d (hperm.mem_iff.mp hd)
      rw [if_pos hwins, hold]
      exact hem.agrees old
    · have hall : ∀ d ∈ definitionsOf F order x,
          getSymbolRank F isAlive (syms x) ≤ definitionRank F isAlive d := by
        intro d hd
        by_cases hdm : d = m
        · rw [hdm]
          omega
        · have hlt := hleast d (hperm.mem_iff.mp hd) hdm
          omega
      rw [if_neg hwins, foldl_resolveDefinition_eq hall]
      exact Symbol.Agrees.refl _

theorem FilesApart.lostOutranked (h : FilesApart F files)
    (hagree : ResolutionsAgree F isAlive files) : LostOutranked F isAlive files := by
  intro x d hd hlost
  obtain ⟨m, hm, hleast⟩ := h.exists_least isAlive (List.ne_nil_of_mem hd)
  cases hkept : m.2.isLost with
  | false =>
    have hdm : d ≠ m := by
      rintro rfl
      rw [hlost] at hkept
      exact absurd hkept (by decide)
    exact ⟨m, hm, hkept, hleast d hd hdm⟩
  | true =>
    exfalso
    have hfile := (mem_definitionsOf.mp hm).1
    have horder : (files.erase m.1 ++ [m.1]).Perm files :=
      List.perm_append_comm.trans (List.perm_cons_erase hfile).symm
    have hboth := hagree (fun _ => {}) _ _ horder (List.mergeSort_perm _ _)
      (sortedCandidates_mergeSort _) x
    rw [resolveSorted_apply (sortedCandidates_mergeSort _), resolveObjectFiles,
      resolveObjectFiles_apply] at hboth
    have hsplit : definitionsOf F (files.erase m.1 ++ [m.1]) x =
        definitionsOf F (files.erase m.1) x ++ [m] := by
      rw [← h.definitionsOf_singleton hm]
      exact List.flatMap_append
    have hdef : ∀ d ∈ definitionsOf F (files.erase m.1) x, d.2.defines = true :=
      fun d hd => (mem_definitionsOf.mp hd).2.2.1
    have hfront : ∀ d ∈ definitionsOf F (files.erase m.1) x,
        definitionRank F isAlive m < definitionRank F isAlive d := by
      intro d hd
      obtain ⟨hi, hrest⟩ := mem_definitionsOf.mp hd
      obtain ⟨hne, hi⟩ := (h.nodup.mem_erase_iff).mp hi
      exact hleast d (mem_definitionsOf.mpr ⟨hi, hrest⟩) fun heq => hne (heq ▸ rfl)
    obtain ⟨old, hold⟩ := @foldl_concat_eq _ F isAlive _ {} m hdef (h.definitionRank_lt hm) hfront
    rw [hsplit, hold] at hboth
    have hsame := hboth.file
    rw [claimForObject_file] at hsame
    cases hfirst : List.find? (fun c : ObjectSymbolCandidate ν => decide (c.sym = x)) _ with
    | none =>
      rw [hfirst] at hsame
      exact absurd hsame (by simp [applyFirst])
    | some e =>
      obtain ⟨d, hd, hde⟩ := exists_definition
        ((List.mergeSort_perm _ _).mem_iff.mp (List.mem_of_find?_eq_some hfirst))
        (sym_of_find? hfirst)
      rw [hfirst, applyFirst] at hsame
      split at hsame
      · have hef : e.file = m.1 := by
          simpa [applyObjectSymbolCandidate] using hsame
        have hdm := h.eq_of_file_eq hd hm (hde.file.symm.trans hef)
        rw [hdm] at hde
        rw [hde.kept] at hkept
        exact absurd hkept (by decide)
      · exact absurd hsame (by simp)

/-- The two ways to resolve the symbols of some files agree, from every state of the
symbols, exactly if for no symbol the definition with the least rank is a section symbol
without a subsection. -/
theorem resolutionsAgree_iff (h : FilesApart F files) :
    ResolutionsAgree F isAlive files ↔ LostOutranked F isAlive files :=
  ⟨h.lostOutranked, fun hlost syms _ _ horder hcands hsorted x =>
    h.agrees hlost horder hcands hsorted syms x⟩

end Agree

end Sorted

/-- Two files with the priorities 10000 and 10001.  The first has a weak definition of
the only symbol and the second a section symbol with its name. -/
def twoObjects (subsec : Option SubsecRef) : Files Unit where
  obj i :=
    { priority := 10000 + i
      syms :=
        if i = 0 then [{ name := (), type := .abs, value := 5, weakDef := true }]
        else [{ name := (), type := .sect, value := 0x10, subsec := subsec }] }
  dylib i := { priority := 20000 + i, exports := [], exports_nodup := List.nodup_nil }

theorem twoObjects_apart (subsec : Option SubsecRef) : FilesApart (twoObjects subsec) [0, 1] where
  nodup := by decide
  names := by simp [twoObjects, MachSym.defines, MachSym.isUndef, List.filter]
  priority_lt := by simp [twoObjects]
  priority_inj := by simp [twoObjects]

/-- The two ways agree if the section symbol has a subsection. -/
theorem resolutionsAgree_twoObjects :
    ResolutionsAgree (twoObjects (some ⟨0, 0, false⟩)) (fun _ => true) [0, 1] := by
  apply (resolutionsAgree_iff (twoObjects_apart _)).mpr
  intro x
  cases x
  decide

/-- If the strong section symbol has no subsection, the file-wise resolution leaves it
half written, and the batch keeps the weak definition. -/
theorem twoObjects_not_resolutionsAgree :
    ¬ ResolutionsAgree (twoObjects none) (fun _ => true) [0, 1] := by
  intro hagree
  have hlost := (twoObjects_apart none).lostOutranked hagree ()
  revert hlost
  decide

end Mold.MachO
