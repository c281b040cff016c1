import Mold.Lib.Loop
import Mold.MachO.Extraction

/-!
# Resolving the symbols of a link

`resolve_symbols` first resolves all files that were read, then marks the
objects that are reachable from the roots as live, and last resolves the live
files again.  The marking is a machine: a configuration is a control point of
the loops of `mark_live_objects` with the linker context, and `Link.step` runs
to the next control point.

The roots and the symbols of an object file are gone through in the same way.
What is owned by an object file at a root is fed to `liveObjs` as well, but
`liveObjs` is collected anew once the roots are done.
-/

namespace Mold.MachO.Resolver

open Mold.Lib

variable {ν : Type*}

/-- A control point of the marking phase.  A `scanner` is the file whose
`mark_live_objects` is running, or `none` for the roots. -/
inductive Control (ν : Type*) where
  /-- The loop over the symbols; `pending` is `pending_extracts`. -/
  | scan (scanner : Option ℕ) (todo : List (MachSym ν)) (pending : List ν)
  /-- The head of the loop that runs while extracts are pending. -/
  | drain (scanner : Option ℕ) (pending : List ν)
  /-- The loop over the pending symbols after a drain. -/
  | revisit (scanner : Option ℕ) (todo next : List ν)
  /-- What follows the loop over the pending extracts. -/
  | finish (scanner : Option ℕ)
  /-- The head of the loop over the live objects. -/
  | visit
  | done

def Control.isDone : Control ν → Bool
  | .done => true
  | _ => false

abbrev Config (ν : Type*) := Control ν × State ν

/-! ## Marking -/

/-- The feeder of the loop over the live objects, which takes no dylibs. -/
def feed (liveObjs : List ℕ) : FileRef → List ℕ
  | .obj i => liveObjs ++ [i]
  | .dylib _ => liveObjs

/-- Mark the owner of a symbol, and feed it to the loop over the live objects
when it is an object that was not alive. -/
def State.markOwner (s : State ν) (x : ν) : State ν :=
  match (s.syms x).file with
  | none => s
  | some file =>
    if s.isAlive file then
      s
    else
      { s with
        isAlive := Function.update s.isAlive file true
        liveObjs := feed s.liveObjs file }

def State.markDylib (s : State ν) (x : ν) : State ν :=
  match (s.syms x).file with
  | some (.dylib _) => s.markOwner x
  | _ => s

/-- The local function `is_module_local`. -/
def isModuleLocal (F : Files ν) (scanner : Option ℕ) (m : MachSym ν) : Bool :=
  scanner.any (fun i => (F.obj i).isHidden) || m.isPrivateExtern ||
    (m.weakRef && m.weakDef)

variable [DecidableEq ν]

/-- Give a symbol the visibility `SCOPE_GLOBAL`. -/
def State.globalize (s : State ν) (x : ν) : State ν :=
  { s with
    syms := Function.update s.syms x
      { s.syms x with visibility := .scopeGlobal } }

/-- One iteration of the symbol loop of `mark_live_objects`, with the result of
`maybe_extract_archive_member`. -/
def Link.scanSymbol (L : Link ν) (s : State ν) (scanner : Option ℕ)
    (m : MachSym ν) : State ν × Bool :=
  if !m.isExtern then
    (s, false)
  else
    let (s, extracted) :=
      if m.isUndef || m.isCommon
      then L.maybeExtractArchiveMember s m.name
      else (s, false)
    let s :=
      if !m.isUndef && !isModuleLocal L.files scanner m
      then s.globalize m.name
      else s
    if m.isUndef || (m.isCommon && !(s.syms m.name).isCommon)
    then (s.markOwner m.name, extracted)
    else (s, extracted)

def Link.collectLiveObjs (L : Link ν) (s : State ν) : State ν :=
  let s := s.markDylib L.objcMsgSend
  let s := if L.fixupChains then s else s.markDylib L.dyldStubBinder
  { s with liveObjs := s.objs.filter fun i => s.isAlive (.obj i) }

def Link.hasLtoObj (L : Link ν) (s : State ν) : Bool :=
  s.objs.any fun i => (L.files.obj i).hasLtoModule && s.isAlive (.obj i)

/-- `InputFile::clear_symbols` on all files for which `cleared` holds. -/
def clearSymbols (cleared : FileRef → Bool) (syms : ν → Symbol ℕ) : ν → Symbol ℕ := fun x =>
  match (syms x).file with
  | none => syms x
  | some file => if cleared file then {} else syms x

/-- What `do_lto` does to the context: the bitcode files lose their symbols and
die, and the compiled object joins the live ones. -/
def Link.doLto (L : Link ν) (s : State ν) : State ν :=
  let isLto : FileRef → Bool
    | .obj i => decide (i ∈ s.objs) && (L.files.obj i).hasLtoModule
    | .dylib _ => false
  let isAlive := Function.update (fun file => s.isAlive file && !isLto file)
    (.obj L.ltoObject) true
  { s with
    isAlive := isAlive
    syms := resolveObjectFile L.files isAlive L.ltoObject (clearSymbols isLto s.syms)
    objs := s.objs ++ [L.ltoObject]
    ltoDone := true }

/-- The names given with `-u` and the entry point, as references. -/
def Link.rootRefs (L : Link ν) : List (MachSym ν) :=
  L.roots.map fun x => { name := x, type := .undf }

/-- The state in which the marking starts.  The dylibs are resolved in
parallel, and `order` is the order in which their calls are serialised. -/
def Link.initialState (L : Link ν) (order : List ℕ) : State ν :=
  let isAlive := L.files.isAlive
  { syms := resolveDylibs L.files isAlive order
      (resolveObjectSymbols L.files isAlive L.objs fun _ => {})
    isAlive := isAlive
    objs := L.objs
    dylibs := L.dylibs
    archiveSymbolMap := L.archiveSymbolMap }

def Link.start (L : Link ν) (order : List ℕ) : Config ν :=
  (.scan none L.rootRefs [], L.initialState order)

def Link.step (L : Link ν) : Config ν → Option (Config ν)
  | (.scan scanner (m :: todo) pending, s) =>
    let (s, extracted) := L.scanSymbol s scanner m
    some (.scan scanner todo
      (if extracted then pending ++ [m.name] else pending), s)
  | (.scan scanner [] pending, s) => some (.drain scanner pending, s)
  | (.drain scanner [], s) => some (.finish scanner, s)
  | (.drain scanner (x :: pending), s) =>
    match L.drainArchiveMemberFrontier s with
    | none => some (.finish scanner, s)
    | some s => some (.revisit scanner (x :: pending) [], s)
  | (.revisit scanner (x :: todo) next, s) =>
    let (s, extracted) := L.maybeExtractArchiveMember (s.markOwner x) x
    some (.revisit scanner todo
      (if extracted then next ++ [x] else next), s)
  | (.revisit scanner [] next, s) => some (.drain scanner next, s)
  | (.finish none, s) => some (.visit, L.collectLiveObjs s)
  | (.finish (some i), s) =>
    some (.visit, (L.files.obj i).personalities.foldl State.markOwner s)
  | (.visit, s) =>
    match s.liveObjs with
    | [] =>
      if !s.ltoDone && L.hasLtoObj s
      then some (.scan none L.rootRefs [], L.doLto s)
      else some (.done, s)
    | i :: liveObjs =>
      some (.scan (some i) (L.files.obj i).syms [],
        { s with liveObjs := liveObjs })
  | (.done, _) => none

def State.isListed (s : State ν) : FileRef → Bool
  | .obj i => decide (i ∈ s.objs)
  | .dylib d => decide (d ∈ s.dylibs)

/-- The symbols after those of eliminated files are removed. -/
def State.clearDeadSymbols (s : State ν) : ν → Symbol ℕ :=
  clearSymbols (fun file => s.isListed file && !s.isAlive file) s.syms

/-- The rest of `resolve_symbols`: the live files are resolved again, and the
others leave the context.  `order` is the order of the dylib calls. -/
def Link.resolveLiveFiles (L : Link ν) (s : State ν) (order : List ℕ) : State ν :=
  let liveObjs := s.objs.filter fun i => s.isAlive (.obj i)
  { s with
    syms := resolveDylibs L.files s.isAlive order
      (resolveObjectSymbols L.files s.isAlive liveObjs s.clearDeadSymbols)
    objs := liveObjs
    dylibs := s.dylibs.filter fun d => s.isAlive (.dylib d) }

end Mold.MachO.Resolver
