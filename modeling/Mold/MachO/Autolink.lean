import Mold.Lib.InOrder
import Mathlib.Logic.Relation

/-!
# Waiting for parsers and linker options

Object files are parsed by tasks.  At its end a task hands its file over by
`enqueue_parsed_object` and then reports that the file is parsed.  The linker
options of a file may name further inputs, so the driver processes them in the
order of the creation of the files: `take_parsed_object_autolink_frontier` only
returns a file if all files before it have been returned.

`wait_for_new_input_frontier` is a loop that takes files, processes their options
and waits for the inputs that have been added since the last round.  It ends with
a round that finds no new inputs.
-/

namespace Mold.MachO.Autolink

open Mold.Lib

inductive Call (α : Type*) where
  | enqueueParsedObject (file : α)
  | takeFrontier

variable {α : Type*}

def Call.toOp (autolinkOrdinal : α → ℕ) : Call α → Buffer.Op α
  | .enqueueParsedObject file => .put (autolinkOrdinal file) file
  | .takeFrontier => .take

def enqueued : List (Call α) → List α
  | [] => []
  | .enqueueParsedObject file :: calls => file :: enqueued calls
  | .takeFrontier :: calls => enqueued calls

def takenLists (autolinkOrdinal : α → ℕ) (calls : List (Call α)) : List (List α) :=
  (Buffer.run {} (calls.map (Call.toOp autolinkOrdinal))).1

/-! ## Files and tasks -/

inductive Parse where
  | running
  | enqueued
  | complete
  deriving DecidableEq

/-- Where the driver is.  It is outside of `wait_for_new_input_frontier`, or in its
loop: before `drain_incremental_linker_options`, in the loop of that function with
the files to process, at the exit conditions with the number of launched inputs,
waiting for the object `i` or the dylib `i`, or at `collect_hoisted_dylibs`. -/
inductive Pc where
  | outside
  | drain
  | process (files : List ℕ) (launched : ℕ)
  | check (launched : ℕ)
  | waitObjs (i objEnd dylibEnd : ℕ)
  | waitDylibs (i dylibEnd : ℕ)
  | hoist
  | returned

/-- The context.  An object file is known by its ordinal, a dylib by whether it is
parsed.  `taken` and `processed` record the results of taking and the files whose
options have been processed. -/
structure State where
  objs : List ℕ := []
  nextAutolinkOrdinal : ℕ := 0
  parse : ℕ → Parse := fun _ => .running
  dylibs : List Bool := []
  queue : Buffer ℕ := {}
  taken : List (List ℕ) := []
  processed : List ℕ := []
  pending : Option (ℕ × ℕ) := some (0, 0)
  objBegin : ℕ := 0
  dylibBegin : ℕ := 0
  pc : Pc := .outside

namespace State

/-- `ObjectFile::create` and the file's way into `ctx.objs`. -/
def create (s : State) (parse : Parse) : State :=
  { s with
    objs := s.objs ++ [s.nextAutolinkOrdinal]
    nextAutolinkOrdinal := s.nextAutolinkOrdinal + 1
    parse := Function.update s.parse s.nextAutolinkOrdinal parse }

/-- Read `n` object files. -/
def readObjs : ℕ → State → State
  | 0, s => s
  | n + 1, s => readObjs n (s.create .running)

def readDylibs (m : ℕ) (s : State) : State :=
  { s with dylibs := s.dylibs ++ List.replicate m false }

/-- Remember where the inputs begin that have not been waited for. -/
def setPending (s : State) : State :=
  match s.pending with
  | some _ => s
  | none => { s with pending := some (s.objs.length, s.dylibs.length) }

end State

inductive Step : State → State → Prop where
  | enqueue (s : State) (o : ℕ) (ho : o ∈ s.objs) (h : s.parse o = .running) :
      Step s { s with
        parse := Function.update s.parse o .enqueued, queue := s.queue.put o o }
  | notify (s : State) (o : ℕ) (h : s.parse o = .enqueued) :
      Step s { s with parse := Function.update s.parse o .complete }
  | dylibParsed (s : State) (i : ℕ) (h : s.dylibs[i]? = some false) :
      Step s { s with dylibs := s.dylibs.set i true }
  | read (s : State) (n m : ℕ) (h : s.pc = .outside) :
      Step s ((s.setPending.readObjs n).readDylibs m)
  | lto (s : State) (h : s.pc = .outside) (hpending : s.pending = none) :
      Step s { s.create .complete with
        queue := s.queue.put s.nextAutolinkOrdinal s.nextAutolinkOrdinal }
  | dedup (s : State) (dylibs : List Bool) (h : s.pc = .outside)
      (hpending : s.pending = none) (hdylibs : dylibs.Sublist s.dylibs) :
      Step s { s with dylibs := dylibs }
  | call (s : State) (objBegin dylibBegin : ℕ) (h : s.pc = .outside)
      (hpending : s.pending = some (objBegin, dylibBegin)) :
      Step s { s with objBegin := objBegin, dylibBegin := dylibBegin, pc := .drain }
  | drain (s : State) (h : s.pc = .drain) :
      Step s { s with
        queue := s.queue.take.2
        taken := s.taken ++ [s.queue.take.1]
        pc := .process s.queue.take.1 0 }
  | load (s : State) (file : ℕ) (files : List ℕ) (launched n m : ℕ)
      (h : s.pc = .process (file :: files) launched) (hnew : 0 < n + m) :
      Step s { (s.readObjs n).readDylibs m with
        pc := .process (file :: files) (launched + 1) }
  | processed (s : State) (file : ℕ) (files : List ℕ) (launched : ℕ)
      (h : s.pc = .process (file :: files) launched) :
      Step s { s with
        processed := s.processed ++ [file], pc := .process files launched }
  | drained (s : State) (launched : ℕ) (h : s.pc = .process [] launched) :
      Step s { s with pc := .check launched }
  | leave (s : State) (h : s.pc = .check 0) (hobjs : s.objBegin = s.objs.length)
      (hdylibs : s.dylibBegin = s.dylibs.length) :
      Step s { s with pc := .returned }
  | again (s : State) (launched : ℕ) (h : s.pc = .check launched)
      (hlaunched : 0 < launched) (hobjs : s.objBegin = s.objs.length)
      (hdylibs : s.dylibBegin = s.dylibs.length) :
      Step s { s with pc := .drain }
  | wait (s : State) (launched : ℕ) (h : s.pc = .check launched)
      (hnew : ¬ (s.objBegin = s.objs.length ∧ s.dylibBegin = s.dylibs.length)) :
      Step s { s with pc := .waitObjs s.objBegin s.objs.length s.dylibs.length }
  | objParsed (s : State) (i objEnd dylibEnd o : ℕ)
      (h : s.pc = .waitObjs i objEnd dylibEnd) (hi : i < objEnd)
      (ho : s.objs[i]? = some o) (hparse : s.parse o = .complete) :
      Step s { s with pc := .waitObjs (i + 1) objEnd dylibEnd }
  | objsParsed (s : State) (i objEnd dylibEnd : ℕ)
      (h : s.pc = .waitObjs i objEnd dylibEnd) (hi : objEnd ≤ i) :
      Step s { s with pc := .waitDylibs s.dylibBegin dylibEnd }
  | nextDylib (s : State) (i dylibEnd : ℕ) (h : s.pc = .waitDylibs i dylibEnd)
      (hi : i < dylibEnd) (hparse : s.dylibs[i]? = some true) :
      Step s { s with pc := .waitDylibs (i + 1) dylibEnd }
  | dylibsParsed (s : State) (i dylibEnd : ℕ) (h : s.pc = .waitDylibs i dylibEnd)
      (hi : dylibEnd ≤ i) :
      Step s { s with pc := .hoist }
  | hoist (s : State) (m : ℕ) (h : s.pc = .hoist) :
      Step s { s with
        dylibs := s.dylibs ++ List.replicate m true
        objBegin := s.objs.length
        dylibBegin := s.dylibs.length + m
        pc := .drain }
  | back (s : State) (h : s.pc = .returned) : Step s { s with pending := none, pc := .outside }

/-- The states of all runs, with all interleavings of the tasks and the driver. -/
def Reachable (s : State) : Prop := Relation.ReflTransGen Step {} s

end Mold.MachO.Autolink
