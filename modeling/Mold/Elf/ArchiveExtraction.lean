import Mold.Elf.ResolveSymbols
import Mold.Lib.ParallelMarking

/-!
# Archive extraction and COMDAT elimination

`do_resolve_symbols` resolves the symbols as if all archive members took part,
marks the files that are needed, removes the others, removes the sections of
COMDAT groups that another file has, and resolves the symbols again.  All loops
over files are parallel, so a run depends on the schedules of the two
resolutions, of the marking and of the groups.
-/

namespace Mold.Elf

open Lib

variable {ν : Type*}

namespace Context

variable (ctx : Context ν)

def globalSyms : FileRef → List (ElfSym ν)
  | .obj i => (ctx.obj i).elfSyms.drop (ctx.obj i).firstGlobal
  | .dso i => (ctx.dso i).elfSyms

def objectKeeps (syms : ν → ResolvedSymbol) (esym : ElfSym ν) : Option FileRef :=
  if esym.isWeak then
    none
  else if esym.isUndef ||
      (esym.isCommon && !(ctx.esym (syms esym.sym)).any ElfSym.isCommon) then
    (syms esym.sym).file
  else
    none

def sharedKeeps (syms : ν → ResolvedSymbol) (esym : ElfSym ν) : Option FileRef :=
  if esym.isUndef then (syms esym.sym).file else none

/-- The files that `mark_live_objects` of a file marks. -/
def keeps (syms : ν → ResolvedSymbol) : FileRef → List FileRef
  | .obj i => (ctx.globalSyms (.obj i)).filterMap (ctx.objectKeeps syms)
  | .dso i => (ctx.globalSyms (.dso i)).filterMap (sharedKeeps syms)

/-- `clear_symbols` of all files. -/
def clearSymbols (syms : ν → ResolvedSymbol) (x : ν) : ResolvedSymbol :=
  match (syms x).file with
  | none => syms x
  | some file => if file ∈ ctx.files then { value := -1 } else syms x

def eraseDead (isAlive : FileRef → Bool) : Context ν :=
  { ctx with
    objs := ctx.objs.filter fun i => isAlive (.obj i)
    dsos := ctx.dsos.filter fun i => isAlive (.dso i) }

def groupUpdates (i : ℕ) : List (ν × ℕ) :=
  (ctx.obj i).comdatGroups.map fun ref => (ref.signature, (ctx.obj i).priority)

end Context

/-- The owners of the groups after a schedule of `update_minimum`. -/
def groupOwners [DecidableEq ν] (updates : List (ν × ℕ)) : ν → ℕ :=
  updates.foldl
    (fun owner u => Function.update owner u.1 (min (owner u.1) u.2)) fun _ => 2 ^ 32 - 1

def killSections (sections : List (Option ObjectFile.Section)) (members : List ℕ) :
    List (Option ObjectFile.Section) :=
  members.foldl (fun sections k => sections.modify k (Option.map ObjectFile.Section.kill)) sections

def ObjectFile.killGroups (owner : ν → ℕ) (file : ObjectFile ν) : ObjectFile ν :=
  { file with
    sections := file.comdatGroups.foldl
      (fun sections ref =>
        if owner ref.signature ≠ file.priority then killSections sections ref.members
        else sections)
      file.sections }

def Context.eliminateComdats (ctx : Context ν) (owner : ν → ℕ) : Context ν :=
  { ctx with
    obj := fun i => if i ∈ ctx.objs then (ctx.obj i).killGroups owner else ctx.obj i }

/-! ## Resolving all symbols -/

structure ResolveInput (ν : Type*) where
  ctx : Context ν
  isAlive : FileRef → Bool
  undefined : List ν := []
  requireDefined : List ν := []

/-- The files that are alive, the files and their sections that are left, and the
symbols. -/
structure Resolution (ν : Type*) where
  isAlive : FileRef → Bool
  ctx : Context ν
  syms : ν → ResolvedSymbol

namespace ResolveInput

variable (L : ResolveInput ν)

/-- The owners of the symbols that are named with `-u` and `--require-defined` are
alive. -/
def markSymbols (syms : ν → ResolvedSymbol) : FileRef → Bool :=
  (L.undefined ++ L.requireDefined).foldl
    (fun isAlive x =>
      match (syms x).file with
      | none => isAlive
      | some file => Function.update isAlive file true)
    L.isAlive

/-- The marking of the live files ends in `m`. -/
def MarksLive (syms : ν → ResolvedSymbol) (m : Marking FileRef) : Prop :=
  Marking.Run (L.ctx.keeps syms) (L.markSymbols syms) (L.ctx.files.filter (L.markSymbols syms)) m

def preliminary [DecidableEq ν] (schedule : List (Claim ν)) : ν → ResolvedSymbol :=
  L.ctx.resolveSymbols L.isAlive schedule fun _ => {}

/-- What is left after the given files have been found alive and the groups have got
the given owners, and the symbols have been resolved again. -/
def finish [DecidableEq ν] (syms : ν → ResolvedSymbol) (isAlive : FileRef → Bool)
    (owner : ν → ℕ) (schedule : List (Claim ν)) : Resolution ν :=
  let ctx := (L.ctx.eraseDead isAlive).eliminateComdats owner
  { isAlive := isAlive
    ctx := ctx
    syms := ctx.resolveSymbols isAlive schedule (L.ctx.clearSymbols syms) }

/-- `do_resolve_symbols` with some schedules of its loops. -/
inductive Resolves [DecidableEq ν] : Resolution ν → Prop
  | run {first second : List (Claim ν)} {m : Marking FileRef} {updates : List (ν × ℕ)}
      (hfirst : L.ctx.ClaimSchedule L.isAlive first)
      (hmark : L.MarksLive (L.preliminary first) m)
      (hupdates : Interleaving
        ((L.ctx.eraseDead m.marked).objs.map (L.ctx.eraseDead m.marked).groupUpdates)
        updates)
      (hsecond : ((L.ctx.eraseDead m.marked).eliminateComdats
        (groupOwners updates)).ClaimSchedule m.marked second) :
      Resolves (L.finish (L.preliminary first) m.marked (groupOwners updates) second)

/-! ## What the pass is for -/

def owner [DecidableEq ν] (x : ν) : Option FileRef :=
  (L.ctx.definition L.isAlive x).bind fun claim => claim.record.file

def ownerIsCommon [DecidableEq ν] (x : ν) : Bool :=
  ((L.ctx.definition L.isAlive x).bind fun claim => L.ctx.esym claim.record).any ElfSym.isCommon

/-- A file refers to a symbol, strongly or with its weak references counted as well. -/
def Refers [DecidableEq ν] (weak : FileRef → Bool) (file : FileRef) (x : ν) : Prop :=
  ∃ esym ∈ L.ctx.globalSyms file, esym.sym = x ∧ (esym.isWeak = true → weak file = true) ∧
    (esym.isUndef = true ∨ (esym.isCommon = true ∧ L.ownerIsCommon x = false))

/-- The least set of files that has the files that are alive at first and the owners of
the named symbols, and the owner of every symbol that one of its files refers to. -/
inductive Extracted [DecidableEq ν] (weak : FileRef → Bool) : FileRef → Prop
  | initial {file : FileRef} (hfile : file ∈ L.ctx.files)
      (halive : L.isAlive file = true) : Extracted weak file
  | named {file : FileRef} {x : ν} (hx : x ∈ L.undefined ++ L.requireDefined)
      (howner : L.owner x = some file) : Extracted weak file
  | reference {file owner : FileRef} {x : ν} (hfile : Extracted weak file)
      (hx : L.Refers weak file x) (howner : L.owner x = some owner) :
      Extracted weak owner

/-- Of the files that are alive and have a group, the file has the least priority. -/
def OwnsGroup (r : Resolution ν) (i : ℕ) (signature : ν) : Prop :=
  ∀ j ∈ r.ctx.objs, (∃ ref ∈ (L.ctx.obj j).comdatGroups, ref.signature = signature) →
    (L.ctx.obj i).priority ≤ (L.ctx.obj j).priority

/-- The live files are the least set for the given references, they are the files that
are left, and every symbol belongs to its definition of least rank in what is left. -/
structure ExtractsLeast [DecidableEq ν] (weak : FileRef → Bool) (r : Resolution ν) : Prop where
  live : ∀ file ∈ L.ctx.files, r.isAlive file = true ↔ L.Extracted weak file
  files : r.ctx.files = L.ctx.files.filter r.isAlive
  elfSyms : r.ctx.elfSyms = L.ctx.elfSyms
  undefined : ∀ x, r.ctx.definition r.isAlive x = none → (r.syms x).file = none
  defined : ∀ x claim, r.ctx.definition r.isAlive x = some claim → r.syms x = claim.record

def GroupsKept (r : Resolution ν) : Prop :=
  ∀ i ∈ r.ctx.objs, ∀ ref ∈ (L.ctx.obj i).comdatGroups, ∀ k ∈ ref.members, ∀ isec,
    (L.ctx.obj i).sections[k]? = some (some isec) → isec.isAlive = true →
    ((∃ isec', (r.ctx.obj i).sections[k]? = some (some isec') ∧ isec'.isAlive = true) ↔
      L.OwnsGroup r i ref.signature)

def SectionsKept (r : Resolution ν) : Prop :=
  ∀ i ∈ r.ctx.objs, ∀ k isec, (L.ctx.obj i).sections[k]? = some (some isec) →
    ∃ isec', (r.ctx.obj i).sections[k]? = some (some isec') ∧
      (isec'.isAlive = true ↔ isec.isAlive = true ∧
        ∀ ref ∈ (L.ctx.obj i).comdatGroups, k ∈ ref.members → L.OwnsGroup r i ref.signature)

def MarkingEnds [DecidableEq ν] : Prop :=
  ∀ first, L.ctx.ClaimSchedule L.isAlive first →
    Acc (fun m' m => Marking.Step (L.ctx.keeps (L.preliminary first)) m m')
      (Marking.start (L.ctx.keeps (L.preliminary first)) (L.markSymbols (L.preliminary first))
        (L.ctx.files.filter (L.markSymbols (L.preliminary first))))

def Deterministic [DecidableEq ν] : Prop :=
  ∀ r r', L.Resolves r → L.Resolves r' → r = r'

/-- Weak references are never counted, the members of every group are kept by its owner,
and all runs agree. -/
def ExtractsStrongly [DecidableEq ν] : Prop :=
  (∀ r, L.Resolves r → L.ExtractsLeast (fun _ => false) r ∧ L.GroupsKept r) ∧ L.Deterministic

end ResolveInput

end Mold.Elf
