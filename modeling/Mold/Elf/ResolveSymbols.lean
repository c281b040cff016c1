import Mold.Lib.Interleaving
import Mold.Lib.Takeover
import Mathlib.Algebra.Order.Ring.Nat

/-!
# Symbol resolution of ELF files

Every file claims the symbols that it defines.  A claim is made under the lock
of the symbol and succeeds if the definition has a lower rank than the present
one, so the files may run in parallel: a run of the pass is an interleaving of
the claims of the files.
-/

namespace Mold.Elf

open Lib

variable {ν : Type*}

/-! ## Files -/

inductive Shndx where
  | undef
  | abs
  | common
  | sect (shndx : ℕ)
deriving DecidableEq, Repr

/-- An entry of a symbol table.  The entries of several files stand for the same
symbol if they have its name; a local entry has a symbol of its own. -/
structure ElfSym (ν : Type*) where
  sym : ν
  stShndx : Shndx
  stValue : UInt64 := 0
  isWeak : Bool := false
deriving DecidableEq, Repr

namespace ElfSym

def isUndef (esym : ElfSym ν) : Bool := esym.stShndx = .undef

def isAbs (esym : ElfSym ν) : Bool := esym.stShndx = .abs

def isCommon (esym : ElfSym ν) : Bool := esym.stShndx = .common

/-- The section in which an entry of file `i` defines its symbol. -/
def place (i : ℕ) (esym : ElfSym ν) : Option (ℕ × ℕ) :=
  match esym.stShndx with
  | .sect k => some (i, k)
  | _ => none

end ElfSym

structure ObjectFile.Section where
  name : String
  shType : ℕ := 1
  shFlags : UInt64 := 0
  shEntsize : ℕ := 0
  /-- The size and the contents of a compressed section are the uncompressed ones. -/
  shSize : ℕ := 0
  contents : List UInt8 := []
  /-- There are relocations for the section. -/
  hasRelsec : Bool := false
  isAlive : Bool := true
deriving DecidableEq, Repr

def ObjectFile.Section.kill (isec : ObjectFile.Section) : ObjectFile.Section :=
  { isec with isAlive := false }

structure ComdatGroupRef (ν : Type*) where
  signature : ν
  members : List ℕ
deriving DecidableEq, Repr

structure ObjectFile (ν : Type*) where
  priority : ℕ
  firstGlobal : ℕ := 1
  elfSyms : List (ElfSym ν)
  /-- A section of the file that is no input section is `none`. -/
  sections : List (Option ObjectFile.Section) := []
  comdatGroups : List (ComdatGroupRef ν) := []
deriving DecidableEq, Repr

def ObjectFile.getSection (file : ObjectFile ν) (esym : ElfSym ν) : Option ObjectFile.Section :=
  match esym.stShndx with
  | .sect k => file.sections[k]?.join
  | _ => none

structure SharedFile (ν : Type*) where
  priority : ℕ
  elfSyms : List (ElfSym ν)
  versyms : List ℕ := []
  notCommon : ∀ esym ∈ elfSyms, esym.isCommon = false

def SharedFile.empty : SharedFile ν where
  priority := 0
  elfSyms := []
  notCommon := by simp

inductive FileRef where
  | obj (i : ℕ)
  | dso (i : ℕ)
deriving DecidableEq, Repr

/-- The files of a link and the lists of those that take part. -/
structure Context (ν : Type*) where
  obj : ℕ → ObjectFile ν
  dso : ℕ → SharedFile ν
  objs : List ℕ
  dsos : List ℕ
  defaultVersion : ℕ := 1

namespace Context

variable (ctx : Context ν)

def priority : FileRef → ℕ
  | .obj i => (ctx.obj i).priority
  | .dso i => (ctx.dso i).priority

def elfSyms : FileRef → List (ElfSym ν)
  | .obj i => (ctx.obj i).elfSyms
  | .dso i => (ctx.dso i).elfSyms

def files : List FileRef := ctx.objs.map .obj ++ ctx.dsos.map .dso

end Context

/-- A piece of the contents of a merged section, which is the same for all input
sections that have it. -/
structure SectionFragment where
  /-- The name, the flags and the type of the merged section. -/
  outputSection : String × UInt64 × ℕ
  data : List UInt8
deriving DecidableEq, Repr

inductive Origin where
  | none
  /-- An input section of an object file, or the null pointer. -/
  | isec (place : Option (ℕ × ℕ))
  | frag (fragment : SectionFragment)
  /-- What was read in front of the fragments of a section. -/
  | stray
deriving DecidableEq, Repr

structure ResolvedSymbol where
  file : Option FileRef := none
  origin : Origin := .none
  value : UInt64 := 0
  symIdx : ℤ := -1
  verIdx : ℕ := 0
  isWeak : Bool := false
deriving DecidableEq, Repr

/-! ## Ranks -/

def getSymRank (isDso : Bool) (esym : ElfSym ν) (isInArchive : Bool) : ℕ :=
  if esym.isCommon then
    if isInArchive then 6 else 5
  else if isDso || isInArchive then
    if esym.isWeak then 4 else 3
  else if esym.isWeak then 2 else 1

def FileRef.isDso : FileRef → Bool
  | .obj _ => false
  | .dso _ => true

def FileRef.origin (esym : ElfSym ν) : FileRef → Origin
  | .obj i => .isec (esym.place i)
  | .dso _ => .none

structure Claim (ν : Type*) where
  sym : ν
  rank : ℕ
  record : ResolvedSymbol
deriving DecidableEq, Repr

namespace Context

variable (ctx : Context ν) (isAlive : FileRef → Bool)

def getRank (file : FileRef) (esym : ElfSym ν) (isInArchive : Bool) : ℕ :=
  (getSymRank file.isDso esym isInArchive * 2 ^ 24 + ctx.priority file) % 2 ^ 32

def esym (sym : ResolvedSymbol) : Option (ElfSym ν) :=
  sym.file.bind fun file => (ctx.elfSyms file)[sym.symIdx.toNat]?

def getSymbolRank (sym : ResolvedSymbol) : ℕ :=
  match sym.file, ctx.esym sym with
  | some file, some esym => ctx.getRank file esym (!isAlive file)
  | _, _ => 7 * 2 ^ 24

/-! ## Claims -/

/-- The claim of an object file for its symbol table entry `j`, if the entry defines a
symbol that has not been removed with its section. -/
def objectClaim (i : ℕ) (esym : ElfSym ν) (j : ℕ) : Option (Claim ν) :=
  let isec := (ctx.obj i).getSection esym
  if esym.isUndef then
    none
  else if !esym.isAbs && !esym.isCommon && !isec.any (·.isAlive) then
    none
  else
    some
      { sym := esym.sym
        rank := ctx.getRank (.obj i) esym (!isAlive (.obj i))
        record :=
          { file := some (.obj i)
            origin := .isec (esym.place i)
            value := esym.stValue
            symIdx := j
            verIdx := ctx.defaultVersion
            isWeak := esym.isWeak } }

/-- The claims of `ObjectFile::resolve_symbols`. -/
def objectClaims (i : ℕ) : List (Claim ν) :=
  ((ctx.obj i).elfSyms.zipIdx.drop (ctx.obj i).firstGlobal).filterMap
    fun e => ctx.objectClaim isAlive i e.1 e.2

/-- The claim of a shared library for its symbol table entry `j`. -/
def sharedClaim (i : ℕ) (esym : ElfSym ν) (j : ℕ) : Option (Claim ν) :=
  if esym.isUndef then
    none
  else
    some
      { sym := esym.sym
        rank := ctx.getRank (.dso i) esym false
        record :=
          { file := some (.dso i)
            origin := .none
            value := esym.stValue
            symIdx := j
            verIdx := (ctx.dso i).versyms.getD j 0
            isWeak := false } }

/-- The claims of `SharedFile::resolve_symbols`. -/
def sharedClaims (i : ℕ) : List (Claim ν) :=
  (ctx.dso i).elfSyms.zipIdx.filterMap fun e => ctx.sharedClaim i e.1 e.2

def claims : FileRef → List (Claim ν)
  | .obj i => ctx.objectClaims isAlive i
  | .dso i => ctx.sharedClaims i

def applyClaim [DecidableEq ν] (syms : ν → ResolvedSymbol) (claim : Claim ν) :
    ν → ResolvedSymbol :=
  if claim.rank < ctx.getSymbolRank isAlive (syms claim.sym)
  then Function.update syms claim.sym claim.record
  else syms

/-- A schedule of the claims of all files: those of the object files come before those
of the shared libraries. -/
def ClaimSchedule (schedule : List (Claim ν)) : Prop :=
  ∃ objs dsos, Interleaving (ctx.objs.map fun i => ctx.claims isAlive (.obj i)) objs ∧
    Interleaving (ctx.dsos.map fun i => ctx.claims isAlive (.dso i)) dsos ∧
    schedule = objs ++ dsos

/-- `resolve_symbols` of all files in the given schedule. -/
def resolveSymbols [DecidableEq ν] (schedule : List (Claim ν))
    (syms : ν → ResolvedSymbol) : ν → ResolvedSymbol :=
  schedule.foldl (ctx.applyClaim isAlive) syms

/-! ## The entry behind a claim -/

variable {ctx isAlive}

structure Backed (ctx : Context ν) (isAlive : FileRef → Bool) (file : FileRef)
    (esym : ElfSym ν) (claim : Claim ν) : Prop where
  sym : claim.sym = esym.sym
  record_file : claim.record.file = some file
  elfSyms : (ctx.elfSyms file)[claim.record.symIdx.toNat]? = some esym
  origin : claim.record.origin = file.origin esym
  value : claim.record.value = esym.stValue
  rank : claim.rank = ctx.getRank file esym (!isAlive file)

theorem backed_of_mem_objectClaims {i : ℕ} {claim : Claim ν}
    (h : claim ∈ ctx.objectClaims isAlive i) :
    ∃ esym, Backed ctx isAlive (.obj i) esym claim ∧
      ctx.objectClaim isAlive i esym claim.record.symIdx.toNat = some claim := by
  obtain ⟨⟨esym, j⟩, hmem, hclaim⟩ := List.mem_filterMap.mp h
  have hget := List.mem_zipIdx_iff_getElem?.mp (List.mem_of_mem_drop hmem)
  refine ⟨esym, ?_⟩
  have hcases := hclaim
  simp only [objectClaim] at hcases
  split at hcases
  · cases hcases
  split at hcases
  · cases hcases
  obtain rfl := Option.some.inj hcases
  exact ⟨⟨rfl, rfl, hget, rfl, rfl, rfl⟩, hclaim⟩

theorem backed_of_mem_sharedClaims {i : ℕ} {claim : Claim ν} (h : claim ∈ ctx.sharedClaims i) :
    ∃ esym, Backed ctx isAlive (.dso i) esym claim ∧
      ctx.sharedClaim i esym claim.record.symIdx.toNat = some claim := by
  obtain ⟨⟨esym, j⟩, hmem, hclaim⟩ := List.mem_filterMap.mp h
  have hget := List.mem_zipIdx_iff_getElem?.mp hmem
  have hcommon := (ctx.dso i).notCommon esym (List.mem_of_getElem? hget)
  refine ⟨esym, ?_⟩
  have hcases := hclaim
  simp only [sharedClaim] at hcases
  split at hcases
  · cases hcases
  obtain rfl := Option.some.inj hcases
  refine ⟨⟨rfl, rfl, hget, rfl, rfl, ?_⟩, hclaim⟩
  -- The rank of a definition in a library does not depend on its liveness.
  simp [getRank, getSymRank, hcommon, FileRef.isDso]

variable {file : FileRef}

theorem exists_backed {claim : Claim ν} (h : claim ∈ ctx.claims isAlive file) :
    ∃ esym, Backed ctx isAlive file esym claim := by
  cases file with
  | obj i =>
    obtain ⟨esym, hbacked, -⟩ := backed_of_mem_objectClaims h
    exact ⟨esym, hbacked⟩
  | dso i =>
    obtain ⟨esym, hbacked, -⟩ := backed_of_mem_sharedClaims h
    exact ⟨esym, hbacked⟩

theorem Backed.esym_eq {esym : ElfSym ν} {claim : Claim ν}
    (h : Backed ctx isAlive file esym claim) : ctx.esym claim.record = some esym := by
  rw [Context.esym, h.record_file, Option.bind_some, h.elfSyms]

theorem Backed.getSymbolRank_eq {esym : ElfSym ν} {claim : Claim ν}
    (h : Backed ctx isAlive file esym claim) :
    ctx.getSymbolRank isAlive claim.record = claim.rank := by
  simp only [getSymbolRank, h.esym_eq, h.record_file, h.rank]

variable {schedule : List (Claim ν)}

theorem mem_of_schedule (h : ctx.ClaimSchedule isAlive schedule) {claim : Claim ν} :
    claim ∈ schedule ↔ ∃ file ∈ ctx.files, claim ∈ ctx.claims isAlive file := by
  obtain ⟨objs, dsos, hobjs, hdsos, rfl⟩ := h
  rw [List.mem_append, hobjs.mem_iff, hdsos.mem_iff]
  simp only [files, List.mem_append, List.mem_map, or_and_right, exists_or]
  apply or_congr
  · constructor
    · rintro ⟨_, ⟨i, hi, rfl⟩, hclaim⟩
      exact ⟨_, ⟨i, hi, rfl⟩, hclaim⟩
    · rintro ⟨_, ⟨i, hi, rfl⟩, hclaim⟩
      exact ⟨_, ⟨i, hi, rfl⟩, hclaim⟩
  · constructor
    · rintro ⟨_, ⟨i, hi, rfl⟩, hclaim⟩
      exact ⟨_, ⟨i, hi, rfl⟩, hclaim⟩
    · rintro ⟨_, ⟨i, hi, rfl⟩, hclaim⟩
      exact ⟨_, ⟨i, hi, rfl⟩, hclaim⟩

theorem getSymbolRank_of_schedule
    (h : ctx.ClaimSchedule isAlive schedule) {claim : Claim ν} (hclaim : claim ∈ schedule) :
    ctx.getSymbolRank isAlive claim.record = claim.rank := by
  obtain ⟨file, -, hmem⟩ := (mem_of_schedule h).mp hclaim
  obtain ⟨esym, hbacked⟩ := exists_backed hmem
  exact hbacked.getSymbolRank_eq

section OneSymbol

variable [DecidableEq ν]

theorem resolveSymbols_apply
    (hrank : ∀ claim ∈ schedule, ctx.getSymbolRank isAlive claim.record = claim.rank)
    (syms : ν → ResolvedSymbol) (x : ν) :
    ctx.resolveSymbols isAlive schedule syms x =
      takeovers (ctx.getSymbolRank isAlive) (ctx.getSymbolRank isAlive) (syms x)
        ((schedule.filter fun claim => claim.sym = x).map Claim.record) := by
  induction schedule generalizing syms with
  | nil => rfl
  | cons claim schedule ih =>
    have hclaim := hrank claim List.mem_cons_self
    have hrest := ih fun c hc => hrank c (List.mem_cons_of_mem _ hc)
    change ctx.resolveSymbols isAlive schedule (ctx.applyClaim isAlive syms claim) x = _
    rw [hrest]
    by_cases hx : claim.sym = x
    · subst hx
      rw [List.filter_cons_of_pos (by simp), List.map_cons, takeovers_cons]
      congr 1
      rw [applyClaim, takeover, hclaim]
      split <;> simp
    · rw [List.filter_cons_of_neg (by simpa using hx)]
      congr 1
      rw [applyClaim]
      split
      · exact Function.update_of_ne (Ne.symm hx) _ _
      · rfl

theorem resolveSymbols_eq_or
    (h : ctx.ClaimSchedule isAlive schedule) (syms : ν → ResolvedSymbol) (x : ν) :
    ctx.resolveSymbols isAlive schedule syms x = syms x ∨
      ∃ file ∈ ctx.files, ∃ claim ∈ ctx.claims isAlive file, claim.sym = x ∧
        ctx.resolveSymbols isAlive schedule syms x = claim.record := by
  rw [resolveSymbols_apply fun claim => getSymbolRank_of_schedule h]
  let rank := ctx.getSymbolRank isAlive
  rcases @takeovers_eq_or_mem _ _ _ rank rank (syms x)
      ((schedule.filter fun claim => claim.sym = x).map Claim.record) with hx | hx
  · exact Or.inl hx
  · right
    obtain ⟨claim, hclaim, heq⟩ := List.mem_map.mp hx
    rw [List.mem_filter, decide_eq_true_eq] at hclaim
    obtain ⟨file, hfile, hmem⟩ := (mem_of_schedule h).mp hclaim.1
    exact ⟨file, hfile, claim, hmem, hclaim.2, heq.symm⟩

end OneSymbol

/-! ## The definition that wins -/

/-- The priorities of the files are distinct and do not reach into the ranks of the
definitions. -/
structure PrioritiesApart (ctx : Context ν) : Prop where
  nodup : (ctx.files.map ctx.priority).Nodup
  lt : ∀ file ∈ ctx.files, ctx.priority file < 2 ^ 24

theorem getSymRank_bounds (isDso isInArchive : Bool) (esym : ElfSym ν) :
    getSymRank isDso esym isInArchive ≤ 6 := by
  rw [getSymRank]
  split_ifs <;> decide

theorem PrioritiesApart.getRank_eq (h : ctx.PrioritiesApart)
    (hfile : file ∈ ctx.files) (esym : ElfSym ν) (isInArchive : Bool) :
    ctx.getRank file esym isInArchive =
      getSymRank file.isDso esym isInArchive * 2 ^ 24 + ctx.priority file := by
  have hlt := h.lt file hfile
  have hrank := getSymRank_bounds file.isDso isInArchive esym
  rw [getRank, Nat.mod_eq_of_lt]
  omega

theorem PrioritiesApart.rank_ne (h : ctx.PrioritiesApart) {file file' : FileRef}
    (hfile : file ∈ ctx.files) (hfile' : file' ∈ ctx.files)
    (hne : ctx.priority file ≠ ctx.priority file') {claim claim' : Claim ν}
    (hclaim : claim ∈ ctx.claims isAlive file)
    (hclaim' : claim' ∈ ctx.claims isAlive file') : claim.rank ≠ claim'.rank := by
  obtain ⟨esym, hbacked⟩ := exists_backed hclaim
  obtain ⟨esym', hbacked'⟩ := exists_backed hclaim'
  have hlt := h.lt file hfile
  have hlt' := h.lt file' hfile'
  rw [hbacked.rank, hbacked'.rank, h.getRank_eq hfile, h.getRank_eq hfile']
  omega

theorem PrioritiesApart.rank_lt (h : ctx.PrioritiesApart)
    (hfile : file ∈ ctx.files) {claim : Claim ν}
    (hclaim : claim ∈ ctx.claims isAlive file) : claim.rank < 7 * 2 ^ 24 := by
  obtain ⟨esym, hbacked⟩ := exists_backed hclaim
  have hlt := h.lt file hfile
  have hrank := getSymRank_bounds file.isDso (!isAlive file) esym
  rw [hbacked.rank, h.getRank_eq hfile]
  omega

theorem ClaimSchedule.interleaving (h : ctx.ClaimSchedule isAlive schedule) :
    Interleaving (ctx.files.map (ctx.claims isAlive)) schedule := by
  obtain ⟨objs, dsos, hobjs, hdsos, rfl⟩ := h
  rw [files, List.map_append, List.map_map, List.map_map]
  exact hobjs.append hdsos

section Definition

variable [DecidableEq ν]

def definition (ctx : Context ν) (isAlive : FileRef → Bool) (x : ν) : Option (Claim ν) :=
  List.argmin Claim.rank
    ((ctx.files.flatMap (ctx.claims isAlive)).filter fun claim => claim.sym = x)

theorem mem_of_definition {x : ν} {claim : Claim ν} (h : ctx.definition isAlive x = some claim) :
    claim.sym = x ∧ ∃ file ∈ ctx.files, claim ∈ ctx.claims isAlive file := by
  have hmem := List.argmin_mem (Option.mem_def.mpr h)
  rw [List.mem_filter, decide_eq_true_eq, List.mem_flatMap] at hmem
  exact ⟨hmem.2, hmem.1⟩

theorem argmin_schedule (h : ctx.PrioritiesApart)
    (hschedule : ctx.ClaimSchedule isAlive schedule) (x : ν) :
    List.argmin Claim.rank (schedule.filter fun claim => claim.sym = x) =
      ctx.definition isAlive x := by
  have hsteps := hschedule.interleaving.filter fun claim => claim.sym = x
  rw [hsteps.argmin_eq, definition, List.flatMap, List.filter_flatten]
  rw [List.map_map, List.pairwise_map]
  have hpriorities := List.pairwise_map.mp h.nodup
  apply List.Pairwise.imp_of_mem _ hpriorities
  intro file file' hfile hfile' hne claim hclaim claim' hclaim'
  exact h.rank_ne hfile hfile' hne (List.mem_of_mem_filter hclaim) (List.mem_of_mem_filter hclaim')

theorem resolveSymbols_eq_definition (h : ctx.PrioritiesApart)
    (hschedule : ctx.ClaimSchedule isAlive schedule) {syms : ν → ResolvedSymbol} {x : ν}
    (hx : (syms x).file = none) :
    ctx.resolveSymbols isAlive schedule syms x =
      ((ctx.definition isAlive x).map Claim.record).getD (syms x) := by
  have hrank := fun claim => @getSymbolRank_of_schedule _ _ _ _ hschedule claim
  have hnone : ctx.getSymbolRank isAlive (syms x) = 7 * 2 ^ 24 := by
    simp only [getSymbolRank, hx]
  rw [resolveSymbols_apply hrank, takeovers_eq_argmin, argmin_map, ← argmin_schedule h hschedule x]
  · congr 2
    apply argmin_congr
    intro claim hclaim
    exact hrank claim (List.mem_of_mem_filter hclaim)
  · intro record hrecord
    obtain ⟨claim, hclaim, rfl⟩ := List.mem_map.mp hrecord
    have hmem := List.mem_of_mem_filter hclaim
    obtain ⟨file, hfile, hclaims⟩ := (mem_of_schedule hschedule).mp hmem
    rw [hrank claim hmem, hnone]
    exact h.rank_lt hfile hclaims

end Definition

end Context

end Mold.Elf
