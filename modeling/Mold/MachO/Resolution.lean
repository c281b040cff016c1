import Mold.MachO.Symbol

/-!
# Symbol resolution passes

`resolveObjectSymbols` is the batch pass of `main.cc` over a list of object
files: the candidate definitions are sorted by symbol and rank, and the first
one of every group is compared with the present owner.
`DylibFile.resolveSymbols` goes over the exports of one dylib and compares
each of them with the owner of its name.
-/

namespace Mold.MachO

variable {ν : Type*}

/-! ## Object files -/

/-- `ObjectSymbolCandidate`: one definition found in an object file. -/
structure ObjectSymbolCandidate (ν : Type*) where
  sym : ν
  file : ℕ
  subsec : Option ℕ := none
  value : UInt64 := 0
  rank : ℕ
  isCommon : Bool
  isWeak : Bool
  isAbs : Bool := false
  isTlv : Bool := false
  noDeadStrip : Bool

def applyObjectSymbolCandidate (c : ObjectSymbolCandidate ν) : Symbol ℕ where
  file := some (.obj c.file)
  subsec := c.subsec
  value := c.value
  visibility := .scopeModule
  isCommon := c.isCommon
  isWeak := c.isWeak
  isAbs := c.isAbs
  isTlv := c.isTlv
  noDeadStrip := c.noDeadStrip
  isImported := false
  isExported := false

/-- The candidate of one symbol table entry, if it defines a symbol.  A
section symbol without a subsection is skipped. -/
def objectSymbolCandidate (F : Files ν) (isAlive : FileRef → Bool)
    (i : ℕ) (m : MachSym ν) : Option (ObjectSymbolCandidate ν) :=
  if !m.isExtern || m.isUndef then
    none
  else
    let cand : ObjectSymbolCandidate ν :=
      { sym := m.name
        file := i
        rank := getRank F isAlive (.obj i) m.isCommon m.weakDef
        isCommon := m.isCommon
        isWeak := m.weakDef
        noDeadStrip := m.noDeadStrip }
    match m.type with
    | .undf => some { cand with value := m.value }
    | .abs => some { cand with isAbs := true, value := m.value }
    | .sect =>
      m.subsec.map fun s =>
        { cand with
          subsec := some s.id
          value := m.value - s.inputAddr.toUInt64
          isCommon := false
          isTlv := s.isTlv }

theorem objectSymbolCandidate_file {F : Files ν} {isAlive : FileRef → Bool}
    {i : ℕ} {m : MachSym ν} {c : ObjectSymbolCandidate ν}
    (h : objectSymbolCandidate F isAlive i m = some c) : c.file = i := by
  rw [objectSymbolCandidate] at h
  split at h
  · cases h
  · cases htype : m.type with
    | undf =>
      simp only [htype] at h
      exact Option.some.inj h ▸ rfl
    | abs =>
      simp only [htype] at h
      exact Option.some.inj h ▸ rfl
    | sect =>
      simp only [htype, Option.map_eq_some_iff] at h
      obtain ⟨s, -, rfl⟩ := h
      rfl

def collectObjectSymbolCandidates (F : Files ν) (isAlive : FileRef → Bool)
    (i : ℕ) : List (ObjectSymbolCandidate ν) :=
  (F.obj i).syms.filterMap (objectSymbolCandidate F isAlive i)

/-- The candidate that is first in the group of `x` once all candidates of
`files` are sorted by symbol and rank. -/
def leastCandidate [DecidableEq ν] (F : Files ν) (isAlive : FileRef → Bool)
    (files : List ℕ) (x : ν) : Option (ObjectSymbolCandidate ν) :=
  ((files.flatMap (collectObjectSymbolCandidates F isAlive)).filter
    fun c => c.sym = x).argmin ObjectSymbolCandidate.rank

def resolveObjectSymbols [DecidableEq ν] (F : Files ν)
    (isAlive : FileRef → Bool) (files : List ℕ) (syms : ν → Symbol ℕ) :
    ν → Symbol ℕ := fun x =>
  match leastCandidate F isAlive files x with
  | none => syms x
  | some c =>
    if c.rank < getSymbolRank F isAlive (syms x)
    then applyObjectSymbolCandidate c
    else syms x

/-- One iteration of `ObjectFile::resolve_symbols`, which is called for the
object that link-time optimisation compiles.  A section symbol without a
subsection is left half written. -/
def resolveObjectSymbol [DecidableEq ν] (F : Files ν)
    (isAlive : FileRef → Bool) (i : ℕ) (syms : ν → Symbol ℕ) (m : MachSym ν) :
    ν → Symbol ℕ :=
  if !m.isExtern || m.isUndef then
    syms
  else if getRank F isAlive (.obj i) m.isCommon m.weakDef <
      getSymbolRank F isAlive (syms m.name) then
    let sym : Symbol ℕ :=
      { syms m.name with
        file := some (.obj i)
        visibility := .scopeModule
        isWeak := m.weakDef
        noDeadStrip := m.noDeadStrip
        subsec := none }
    Function.update syms m.name <|
      match m.type with
      | .undf =>
        { sym with
          value := m.value, isCommon := true, isAbs := false, isTlv := false }
      | .abs =>
        { sym with
          value := m.value, isCommon := false, isAbs := true, isTlv := false }
      | .sect =>
        match m.subsec with
        | none => sym
        | some s =>
          { sym with
            subsec := some s.id
            value := m.value - s.inputAddr.toUInt64
            isCommon := false
            isAbs := false
            isTlv := s.isTlv }
  else
    syms

/-- `ObjectFile::resolve_symbols`. -/
def resolveObjectFile [DecidableEq ν] (F : Files ν) (isAlive : FileRef → Bool)
    (i : ℕ) (syms : ν → Symbol ℕ) : ν → Symbol ℕ :=
  (F.obj i).syms.foldl (resolveObjectSymbol F isAlive i) syms

/-! ## Dylibs -/

/-- The record of a symbol after dylib `d` took it over with the given export
flags. -/
def claimForDylib (F : Files ν) (d flags : ℕ) (sym : Symbol ℕ) : Symbol ℕ :=
  { sym with
    file := some (.dylib d)
    visibility := .scopeGlobal
    isWeak := (F.dylib d).isWeak || isWeakExport flags
    noDeadStrip := false
    subsec := none
    value := 0
    isCommon := false
    isAbs := false
    isTlv := isThreadLocalExport flags }

/-- One iteration of `DylibFile::resolve_symbols`.  The bid of the dylib is
computed as if the export were strong. -/
def resolveExport [DecidableEq ν] (F : Files ν) (isAlive : FileRef → Bool)
    (d : ℕ) (syms : ν → Symbol ℕ) (e : ν × ℕ) : ν → Symbol ℕ :=
  if getRank F isAlive (.dylib d) false false < getSymbolRank F isAlive (syms e.1)
  then Function.update syms e.1 (claimForDylib F d e.2 (syms e.1))
  else syms

/-- `DylibFile::resolve_symbols`. -/
def resolveDylibSymbols [DecidableEq ν] (F : Files ν)
    (isAlive : FileRef → Bool) (syms : ν → Symbol ℕ) (d : ℕ) : ν → Symbol ℕ :=
  (F.dylib d).exports.foldl (resolveExport F isAlive d) syms

/-- The calls of `DylibFile::resolve_symbols` for a list of dylibs, in the
order in which they are serialised. -/
def resolveDylibs [DecidableEq ν] (F : Files ν) (isAlive : FileRef → Bool)
    (dylibs : List ℕ) (syms : ν → Symbol ℕ) : ν → Symbol ℕ :=
  dylibs.foldl (resolveDylibSymbols F isAlive) syms

section OneSymbol

variable [DecidableEq ν] {F : Files ν} {isAlive : FileRef → Bool}

/-- The flags with which dylib `d` exports `x`, if it does. -/
def Files.exportFlags (F : Files ν) (d : ℕ) (x : ν) : Option ℕ :=
  (F.dylib d).exports.lookup x

/-- What `DylibFile::resolve_symbols` does to one symbol. -/
def resolveExportOf (F : Files ν) (isAlive : FileRef → Bool)
    (x : ν) (sym : Symbol ℕ) (d : ℕ) : Symbol ℕ :=
  match F.exportFlags d x with
  | none => sym
  | some flags =>
    if getRank F isAlive (.dylib d) false false < getSymbolRank F isAlive sym
    then claimForDylib F d flags sym
    else sym

variable {syms : ν → Symbol ℕ} {x : ν}

theorem resolveExport_of_ne {d : ℕ} {e : ν × ℕ}
    (h : e.1 ≠ x) : resolveExport F isAlive d syms e x = syms x := by
  rw [resolveExport]
  split
  · exact Function.update_of_ne h.symm _ _
  · rfl

theorem foldl_resolveExport_of_notMem {d : ℕ} (es : List (ν × ℕ))
    (h : x ∉ es.map Prod.fst) (syms : ν → Symbol ℕ) :
    es.foldl (resolveExport F isAlive d) syms x = syms x := by
  induction es generalizing syms with
  | nil => rfl
  | cons e es ih =>
    simp only [List.map_cons, List.mem_cons, not_or] at h
    rw [List.foldl_cons, ih h.2]
    exact resolveExport_of_ne (Ne.symm h.1)

theorem foldl_resolveExport_apply {d : ℕ} (es : List (ν × ℕ))
    (hnodup : (es.map Prod.fst).Nodup) (syms : ν → Symbol ℕ) (x : ν) :
    es.foldl (resolveExport F isAlive d) syms x =
      match es.lookup x with
      | none => syms x
      | some flags =>
        if getRank F isAlive (.dylib d) false false < getSymbolRank F isAlive (syms x)
        then claimForDylib F d flags (syms x)
        else syms x := by
  induction es generalizing syms with
  | nil => rfl
  | cons e es ih =>
    obtain ⟨y, flags⟩ := e
    simp only [List.map_cons, List.nodup_cons] at hnodup
    rw [List.foldl_cons]
    by_cases hxy : x = y
    · subst hxy
      rw [foldl_resolveExport_of_notMem es hnodup.1]
      simp only [List.lookup_cons_self, resolveExport]
      split
      · exact Function.update_self _ _ _
      · rfl
    · rw [ih hnodup.2, resolveExport_of_ne (Ne.symm hxy)]
      simp [List.lookup_cons, beq_false_of_ne hxy]

theorem resolveDylibSymbols_apply (syms : ν → Symbol ℕ) (d : ℕ) (x : ν) :
    resolveDylibSymbols F isAlive syms d x = resolveExportOf F isAlive x (syms x) d :=
  foldl_resolveExport_apply _ (F.dylib d).exports_nodup syms x

theorem resolveDylibs_apply (dylibs : List ℕ) (syms : ν → Symbol ℕ) (x : ν) :
    resolveDylibs F isAlive dylibs syms x =
      dylibs.foldl (resolveExportOf F isAlive x) (syms x) := by
  induction dylibs generalizing syms with
  | nil => rfl
  | cons d ds ih =>
    change resolveDylibs F isAlive ds (resolveDylibSymbols F isAlive syms d) x = _
    rw [ih, List.foldl_cons, resolveDylibSymbols_apply]

theorem mem_of_leastCandidate {files : List ℕ}
    {c : ObjectSymbolCandidate ν}
    (h : leastCandidate F isAlive files x = some c) :
    c.sym = x ∧ c.file ∈ files ∧ c ∈ collectObjectSymbolCandidates F isAlive c.file := by
  have hmem := List.argmin_mem (f := ObjectSymbolCandidate.rank) h
  simp only [List.mem_filter, List.mem_flatMap, decide_eq_true_eq] at hmem
  obtain ⟨⟨i, hi, hc⟩, hx⟩ := hmem
  have hfile : c.file = i := by
    obtain ⟨m, -, hm⟩ := List.mem_filterMap.mp hc
    exact objectSymbolCandidate_file hm
  rw [hfile]
  exact ⟨hx, hi, hc⟩

variable {file : FileRef}

theorem resolveObjectSymbols_file {files : List ℕ}
    (h : (resolveObjectSymbols F isAlive files syms x).file = some file) :
    (syms x).file = some file ∨ ∃ i ∈ files, file = .obj i := by
  rw [resolveObjectSymbols] at h
  cases hc : leastCandidate F isAlive files x with
  | none =>
    simp only [hc] at h
    exact Or.inl h
  | some c =>
    simp only [hc] at h
    split at h
    · right
      exact ⟨c.file, (mem_of_leastCandidate hc).2.1, (Option.some.inj h).symm⟩
    · exact Or.inl h

theorem resolveObjectSymbol_file {i : ℕ}
    {m : MachSym ν}
    (h : (resolveObjectSymbol F isAlive i syms m x).file = some file) :
    (syms x).file = some file ∨ file = .obj i := by
  rw [resolveObjectSymbol] at h
  split at h
  · exact Or.inl h
  split at h
  · by_cases hx : x = m.name
    · subst hx
      rw [Function.update_self] at h
      right
      cases htype : m.type with
      | undf => simpa [htype] using h.symm
      | abs => simpa [htype] using h.symm
      | sect => cases hsub : m.subsec <;> simpa [htype, hsub] using h.symm
    · rw [Function.update_of_ne hx] at h
      exact Or.inl h
  · exact Or.inl h

theorem resolveObjectFile_file {i : ℕ}
    (h : (resolveObjectFile F isAlive i syms x).file = some file) :
    (syms x).file = some file ∨ file = .obj i := by
  rw [resolveObjectFile] at h
  generalize (F.obj i).syms = ms at h
  induction ms generalizing syms with
  | nil => exact Or.inl h
  | cons m ms ih =>
    rcases ih h with hfile | hfile
    · exact resolveObjectSymbol_file hfile
    · exact Or.inr hfile

theorem resolveDylibs_file {dylibs : List ℕ}
    (h : (resolveDylibs F isAlive dylibs syms x).file = some file) :
    (syms x).file = some file ∨ ∃ d ∈ dylibs, file = .dylib d := by
  rw [resolveDylibs_apply] at h
  generalize syms x = sym at h ⊢
  induction dylibs generalizing sym with
  | nil => exact Or.inl h
  | cons d ds ih =>
    rcases ih _ h with hfile | ⟨e, he, rfl⟩
    · rw [resolveExportOf] at hfile
      split at hfile
      · exact Or.inl hfile
      split at hfile
      · exact Or.inr ⟨d, List.mem_cons_self, (Option.some.inj hfile).symm⟩
      · exact Or.inl hfile
    · exact Or.inr ⟨e, List.mem_cons_of_mem d he, rfl⟩

end OneSymbol

end Mold.MachO
