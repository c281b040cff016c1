import Mold.Elf.LinkSymbols
import Mathlib.Data.List.Perm.Basic

/-!
# Garbage collection of sections

Sections are marked from a set of roots along relocations, also along the
relocations of the exception records of a section.  Workers mark in parallel.  A
worker goes into a section that it has marked itself up to a depth of three, and
leaves the others to any worker.  The sections that are not marked are removed.
-/

namespace Mold.Elf

/-! ## Input -/

def SHF_ALLOC : UInt32 := 0x2
def SHF_GNU_RETAIN : UInt32 := 0x200000
def SHT_NOTE : UInt32 := 7
def SHT_INIT_ARRAY : UInt32 := 14
def SHT_FINI_ARRAY : UInt32 := 15
def SHT_PREINIT_ARRAY : UInt32 := 16
def SHT_ARM_EXIDX : UInt32 := 0x70000001

/-- What a symbol is tied to, if it is an input section or a section fragment. -/
inductive GcOrigin (σ φ : Type*) where
  | other
  | isec (s : σ)
  | frag (f : φ)
deriving DecidableEq, Repr

inductive GcFile where
  | obj (i : ℕ)
  | dso
deriving DecidableEq, Repr

/-- The symbols of the relocations of an exception record and of its CIE.  The record belongs
to the section that the file has for the symbol of its first relocation.  The symbol itself
may be resolved to another file. -/
structure GcFde (ι : Type*) where
  rels : List ι
  cie : List ι
deriving DecidableEq, Repr

structure GcSection (ι : Type*) where
  name : String
  shType : UInt32
  shFlags : UInt32
  isAlive : Bool
  fdes : List (GcFde ι)
  rels : List ι
deriving DecidableEq, Repr

def GcSection.isAlloc {ι : Type*} (isec : GcSection ι) : Bool :=
  isec.shFlags &&& SHF_ALLOC != 0

/-- A collection with its sections `σ`, fragments `φ` and symbols `ι`. -/
structure GcContext (σ φ ι : Type*) where
  isArm32 : Bool
  /-- The output has a dynamic section. -/
  isDynamic : Bool
  sections : List σ
  isec : σ → GcSection ι
  fragIsAlloc : φ → Bool
  origin : ι → GcOrigin σ φ
  origin_mem : ∀ i s, origin i = .isec s → s ∈ sections
  file : ι → Option GcFile
  isExported : ι → Bool
  /-- The symbols of the object files. -/
  symbols : List (List ι)
  /-- The symbols of the relocations of the CIEs of the object files. -/
  cies : List (List ι)
  fde_cie : ∀ s ∈ sections, ∀ fde ∈ (isec s).fdes, fde.cie ∈ cies
  entry : ι
  init : ι
  fini : ι
  undefined : List ι
  requireDefined : List ι
  defsyms : List (Defsym ι)

def isAlpha (c : Char) : Bool :=
  c == '_' || ('a' ≤ c && c ≤ 'z') || ('A' ≤ c && c ≤ 'Z')

def isAlnum (c : Char) : Bool := isAlpha c || ('0' ≤ c && c ≤ '9')

def isCIdentifier (s : String) : Bool :=
  match s.toList with
  | [] => false
  | c :: l => isAlpha c && l.all isAlnum

variable {σ φ ι : Type*}

def shouldKeep (isArm32 : Bool) (isec : GcSection ι) : Bool :=
  isec.shFlags &&& SHF_GNU_RETAIN != 0 ||
  isec.shType == SHT_NOTE ||
  isec.shType == SHT_INIT_ARRAY ||
  isec.shType == SHT_FINI_ARRAY ||
  isec.shType == SHT_PREINIT_ARRAY ||
  (isArm32 && isec.shType == SHT_ARM_EXIDX) ||
  isec.name.startsWith ".ctors" ||
  isec.name.startsWith ".dtors" ||
  isec.name.startsWith ".init" ||
  isec.name.startsWith ".fini" ||
  isCIdentifier isec.name

/-- A relocation that a worker follows, of an exception record or of a section. -/
inductive GcEdge (ι : Type*) where
  | fde (i : ι)
  | rel (i : ι)
deriving DecidableEq, Repr

/-- The marks, the sections that wait and, for each worker, the edges that it has not
followed yet, those of the section that it went into last first. -/
structure GcState (σ φ ι : Type*) where
  isVisited : σ → Bool
  fragIsAlive : φ → Bool
  pending : List σ
  workers : List (List (List (GcEdge ι)))

def GcState.Finished (st : GcState σ φ ι) : Prop :=
  st.pending = [] ∧ ∀ frames ∈ st.workers, frames = []

structure GcResult (σ φ : Type*) where
  isAlive : σ → Bool
  fragIsAlive : φ → Bool

namespace GcContext

variable (ctx : GcContext σ φ ι)

def marks (st : GcState σ φ ι) (s : σ) : Bool :=
  (ctx.isec s).isAlive && !st.isVisited s

variable [DecidableEq σ] [DecidableEq φ]

/-- The lambda `enqueue_section` of `collect_root_set`. -/
def enqueueSection (st : GcState σ φ ι) (s : σ) : GcState σ φ ι :=
  if ctx.marks st s then
    { st with
      isVisited := Function.update st.isVisited s true
      pending := st.pending ++ [s] }
  else st

/-- The lambda `enqueue_symbol` of `collect_root_set`. -/
def enqueueSymbol (st : GcState σ φ ι) (i : ι) : GcState σ φ ι :=
  match ctx.origin i with
  | .frag f => { st with fragIsAlive := Function.update st.fragIsAlive f true }
  | .isec s => ctx.enqueueSection st s
  | .other => st

def keepSection (st : GcState σ φ ι) (s : σ) : GcState σ φ ι :=
  if (ctx.isec s).isAlive then
    let st := if (ctx.isec s).isAlloc then st else
      { st with isVisited := Function.update st.isVisited s true }
    if shouldKeep ctx.isArm32 (ctx.isec s) then ctx.enqueueSection st s else st
  else st

def exportedSymbols : List ι :=
  ctx.symbols.zipIdx.flatMap fun p =>
    p.1.filter fun i => ctx.file i = some (.obj p.2) && ctx.isExported i

/-- Nothing is marked but the fragments that are not collected. -/
def start : GcState σ φ ι where
  isVisited := fun _ => false
  fragIsAlive := fun f => !ctx.fragIsAlloc f
  pending := []
  workers := []

/-- `collect_root_set`, where the parallel loops take their elements in the given
orders. -/
def collectRootSet (secs : List σ) (exported cies : List ι) : GcState σ φ ι :=
  let st := secs.foldl ctx.keepSection ctx.start
  let st := exported.foldl ctx.enqueueSymbol st
  let st := ctx.enqueueSymbol st ctx.entry
  let st := ctx.undefined.foldl ctx.enqueueSymbol st
  let st := ctx.requireDefined.foldl ctx.enqueueSymbol st
  cies.foldl ctx.enqueueSymbol st

/-! ## Marking -/

/-- The edges of a section in the order in which `visit` follows them. -/
def edges (s : σ) : List (GcEdge ι) :=
  ((ctx.isec s).fdes.flatMap fun fde => fde.rels.tail.map .fde) ++ (ctx.isec s).rels.map .rel

/-- The step of `visit` for an edge at a depth.  A section that is marked is given to
the feeder or gone into at once, and then its edges come first. -/
def follow (st : GcState σ φ ι) (depth : ℕ) : GcEdge ι → GcState σ φ ι × List (List (GcEdge ι))
  | .fde i =>
    match ctx.origin i with
    | .isec s => (ctx.enqueueSection st s, [])
    | _ => (st, [])
  | .rel i =>
    match ctx.origin i with
    | .frag f =>
      ({ st with fragIsAlive := Function.update st.fragIsAlive f true }, [])
    | .isec s =>
      if ctx.marks st s && depth < 3 then
        ({ st with isVisited := Function.update st.isVisited s true }, [ctx.edges s])
      else (ctx.enqueueSection st s, [])
    | .other => (st, [])

inductive Step : GcState σ φ ι → GcState σ φ ι → Prop
  /-- A worker begins with a section that waits. -/
  | begin (st : GcState σ φ ι) (front back : List σ) (s : σ)
      (hpending : st.pending = front ++ s :: back) :
      Step st
        { st with pending := front ++ back, workers := st.workers ++ [[ctx.edges s]] }
  /-- A worker follows an edge. -/
  | follow (st : GcState σ φ ι) (front back : List (List (List (GcEdge ι))))
      (e : GcEdge ι) (es : List (GcEdge ι)) (frames : List (List (GcEdge ι)))
      (hworkers : st.workers = front ++ ((e :: es) :: frames) :: back) :
      Step st
        { (ctx.follow st frames.length e).1 with
          workers := front ++ ((ctx.follow st frames.length e).2 ++ es :: frames) :: back }
  /-- A worker is done with a section. -/
  | done (st : GcState σ φ ι) (front back : List (List (List (GcEdge ι))))
      (frames : List (List (GcEdge ι)))
      (hworkers : st.workers = front ++ ([] :: frames) :: back) :
      Step st { st with workers := front ++ frames :: back }

def sweep (st : GcState σ φ ι) : GcResult σ φ where
  isAlive := fun s => (ctx.isec s).isAlive && st.isVisited s
  fragIsAlive := st.fragIsAlive

/-- `gc_sections` ends with a result, for any orders of the parallel loops and of the
steps of the workers. -/
def Run (res : GcResult σ φ) : Prop :=
  ∃ secs exported cies st, secs.Perm ctx.sections ∧
    exported.Perm ctx.exportedSymbols ∧ cies.Perm ctx.cies.flatten ∧
    Relation.ReflTransGen ctx.Step (ctx.collectRootSet secs exported cies) st ∧
    st.Finished ∧ res = ctx.sweep st

end GcContext

section Aliases

variable [DecidableEq ι]

/-- A `--defsym` symbol in `fix_synthetic_symbols`. -/
def GcContext.fixOrigin (ctx : GcContext σ φ ι) (origin : ι → GcOrigin σ φ)
    (defsym : Defsym ι) : ι → GcOrigin σ φ :=
  match defsym.value with
  | .address _ => Function.update origin defsym.sym .other
  | .symbol target =>
    if (ctx.file target).isNone then origin
    else Function.update origin defsym.sym (origin target)

def GcContext.outputOrigin (ctx : GcContext σ φ ι) : ι → GcOrigin σ φ :=
  ctx.defsyms.foldl ctx.fixOrigin ctx.origin

end Aliases

end Mold.Elf
