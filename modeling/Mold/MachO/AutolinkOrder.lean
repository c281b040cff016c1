import Mold.MachO.Autolink
import Mathlib.Data.List.Range

/-!
# The order of the linker options

The tasks of the parsers hand their files over in any order, and the driver adds
files while it processes the options of others.  The queue gives the files back
in the order of their ordinals nevertheless.  When `wait_for_new_input_frontier`
returns, all files that exist by then are parsed and have been given back.
-/

namespace Mold.MachO.Autolink

open Mold.Lib

variable {α : Type*} {autolinkOrdinal : α → ℕ}

theorem arrivals_toOp (calls : List (Call α)) :
    Buffer.arrivals (calls.map (Call.toOp autolinkOrdinal)) =
      (enqueued calls).map fun file => (autolinkOrdinal file, file) := by
  induction calls with
  | nil => rfl
  | cons call calls ih =>
    cases call with
    | enqueueParsedObject file =>
      rw [List.map_cons, Call.toOp, Buffer.arrivals, ih]
      rfl
    | takeFrontier =>
      rw [List.map_cons, Call.toOp, Buffer.arrivals, ih]
      rfl

theorem released_takenLists (calls : List (Call α))
    (hnodup : ((enqueued calls).map autolinkOrdinal).Nodup) :
    Buffer.Released ((enqueued calls).map fun file => (autolinkOrdinal file, file))
      (takenLists autolinkOrdinal calls).flatten
      (Buffer.run {} (calls.map (Call.toOp autolinkOrdinal))).2 := by
  have hfst : ((enqueued calls).map fun file => (autolinkOrdinal file, file)).map
      Prod.fst = (enqueued calls).map autolinkOrdinal := by
    rw [List.map_map]
    rfl
  have hrun := Buffer.Released.empty.run (calls.map (Call.toOp autolinkOrdinal)) (by
    rw [List.nil_append, arrivals_toOp, hfst]
    exact hnodup)
  rwa [List.nil_append, List.nil_append, arrivals_toOp] at hrun

theorem map_flatten_takenLists (calls : List (Call α))
    (hnodup : ((enqueued calls).map autolinkOrdinal).Nodup) :
    (takenLists autolinkOrdinal calls).flatten.map autolinkOrdinal =
      List.range (takenLists autolinkOrdinal calls).flatten.length := by
  have hreleased := released_takenLists calls hnodup
  apply List.ext_getElem
  · rw [List.length_map, List.length_range]
  · intro i hi hi'
    rw [List.length_range] at hi'
    rw [List.getElem_map, List.getElem_range]
    have hmem := hreleased.getElem? i _ (List.getElem?_eq_getElem hi')
    obtain ⟨file, -, heq⟩ := List.mem_map.mp hmem
    obtain ⟨hordinal, hfile⟩ := Prod.mk.injEq .. ▸ heq
    rw [← hfile]
    exact hordinal

theorem mem_enqueued_of_mem_flatten_takenLists (calls : List (Call α))
    (hnodup : ((enqueued calls).map autolinkOrdinal).Nodup) {file : α}
    (hfile : file ∈ (takenLists autolinkOrdinal calls).flatten) :
    file ∈ enqueued calls := by
  obtain ⟨i, hi⟩ := List.mem_iff_getElem?.mp hfile
  have hmem := (released_takenLists calls hnodup).getElem? i file hi
  obtain ⟨file', hmem', heq⟩ := List.mem_map.mp hmem
  have hsnd : file' = file := congrArg Prod.snd heq
  exact hsnd ▸ hmem'

/-! ## The queue of a run -/

/-- The files that have been handed over have been taken or are in the queue. -/
def Arrived (parse : ℕ → Parse) (taken : List ℕ) (queue : Buffer ℕ) : Prop :=
  ∃ puts, Buffer.Released puts taken queue ∧ ∀ k o, (k, o) ∈ puts ↔ k = o ∧ parse o ≠ .running

section Queue

variable {parse : ℕ → Parse} {taken : List ℕ} {queue : Buffer ℕ}

theorem Arrived.init : Arrived (fun _ => .running) [] {} :=
  ⟨[], Buffer.Released.empty, by simp⟩

theorem Arrived.congr {parse' : ℕ → Parse} (h : Arrived parse taken queue)
    (hparse : ∀ o, parse' o = .running ↔ parse o = .running) :
    Arrived parse' taken queue := by
  obtain ⟨puts, hreleased, hputs⟩ := h
  refine ⟨puts, hreleased, ?_⟩
  intro k o
  rw [hputs, Ne, Ne, hparse]

theorem Arrived.put (h : Arrived parse taken queue) {o : ℕ} {p : Parse}
    (ho : parse o = .running) (hp : p ≠ .running) :
    Arrived (Function.update parse o p) taken (queue.put o o) := by
  obtain ⟨puts, hreleased, hputs⟩ := h
  have hnew : o ∉ puts.map Prod.fst := by
    intro hmem
    obtain ⟨⟨k, o'⟩, hmem', rfl⟩ := List.mem_map.mp hmem
    obtain ⟨rfl, hne⟩ := (hputs k o').mp hmem'
    exact hne ho
  refine ⟨puts ++ [(o, o)], hreleased.put hnew, ?_⟩
  intro k o'
  rw [List.mem_append, hputs, List.mem_singleton, Prod.mk.injEq]
  by_cases heq : o' = o
  · rw [heq, Function.update_self]
    constructor
    · rintro (⟨hk, -⟩ | ⟨hk, -⟩)
      · exact ⟨hk, hp⟩
      · exact ⟨hk, hp⟩
    · rintro ⟨hk, -⟩
      exact Or.inr ⟨hk, rfl⟩
  · rw [Function.update_of_ne heq]
    constructor
    · rintro (hleft | ⟨-, hright⟩)
      · exact hleft
      · exact absurd hright heq
    · exact Or.inl

theorem Arrived.take (h : Arrived parse taken queue) :
    Arrived parse (taken ++ queue.take.1) queue.take.2 := by
  obtain ⟨puts, hreleased, hputs⟩ := h
  exact ⟨puts, hreleased.take, hputs⟩

theorem Arrived.le_next_take (h : Arrived parse taken queue) {n : ℕ}
    (hn : ∀ o < n, parse o = .complete) : n ≤ queue.take.2.next := by
  obtain ⟨puts, hreleased, hputs⟩ := h
  apply hreleased.le_next_take
  intro k hk
  refine ⟨k, (hputs k k).mpr ⟨rfl, ?_⟩⟩
  rw [hn k hk]
  exact Parse.noConfusion

theorem Arrived.eq_range (h : Arrived parse taken queue) : taken = List.range queue.next := by
  obtain ⟨puts, hreleased, hputs⟩ := h
  apply List.ext_getElem
  · rw [hreleased.length_eq, List.length_range]
  · intro i hi hi'
    have hmem := hreleased.getElem? i _ (List.getElem?_eq_getElem hi)
    rw [List.getElem_range]
    exact ((hputs _ _).mp hmem).1.symm

theorem next_put (k o : ℕ) : (queue.put k o).next = queue.next := by
  rw [Buffer.put]
  split
  · rfl
  · rfl

end Queue

/-! ## The invariant -/

/-- All files before the file `n` are parsed. -/
def CompleteBelow (parse : ℕ → Parse) (n : ℕ) : Prop :=
  ∀ o < n, parse o = .complete

def inHand : Pc → List ℕ
  | .process files _ => files
  | _ => []

def Position (s : State) : Prop :=
  match s.pc with
  | .outside =>
    match s.pending with
    | none => CompleteBelow s.parse s.nextAutolinkOrdinal
    | some (objBegin, _) =>
      CompleteBelow s.parse objBegin ∧ objBegin ≤ s.nextAutolinkOrdinal
  | .drain =>
    CompleteBelow s.parse s.objBegin ∧ s.objBegin ≤ s.nextAutolinkOrdinal
  | .process _ _ | .check _ =>
    CompleteBelow s.parse s.objBegin ∧ s.objBegin ≤ s.nextAutolinkOrdinal ∧
      s.objBegin ≤ s.queue.next
  | .waitObjs i objEnd _ =>
    CompleteBelow s.parse i ∧ objEnd = s.nextAutolinkOrdinal
  | .waitDylibs _ _ | .hoist => CompleteBelow s.parse s.nextAutolinkOrdinal
  | .returned =>
    CompleteBelow s.parse s.nextAutolinkOrdinal ∧ s.nextAutolinkOrdinal ≤ s.queue.next

structure Inv (s : State) : Prop where
  objs_eq : s.objs = List.range s.nextAutolinkOrdinal
  running : ∀ o, s.nextAutolinkOrdinal ≤ o → s.parse o = .running
  arrived : Arrived s.parse s.taken.flatten s.queue
  processed : s.processed ++ inHand s.pc = s.taken.flatten
  position : Position s

theorem Inv.init : Inv {} where
  objs_eq := rfl
  running _ _ := rfl
  arrived := Arrived.init
  processed := rfl
  position := ⟨fun o ho => absurd ho (Nat.not_lt_zero o), Nat.le_refl 0⟩

theorem CompleteBelow.succ {parse : ℕ → Parse} {n : ℕ} (h : CompleteBelow parse n)
    (hn : parse n = .complete) : CompleteBelow parse (n + 1) := by
  intro o ho
  rcases Nat.lt_succ_iff_lt_or_eq.mp ho with hlt | rfl
  · exact h o hlt
  · exact hn

theorem CompleteBelow.update {parse : ℕ → Parse} {n o : ℕ} {p : Parse}
    (h : CompleteBelow parse n) (ho : parse o ≠ .complete) :
    CompleteBelow (Function.update parse o p) n := by
  intro k hk
  have hne : k ≠ o := by
    rintro rfl
    exact ho (h k hk)
  rw [Function.update_of_ne hne]
  exact h k hk

namespace Inv

variable {s : State}

theorem length_objs (h : Inv s) : s.objs.length = s.nextAutolinkOrdinal := by
  rw [h.objs_eq, List.length_range]

variable {o : ℕ}

theorem lt_of_mem_objs (h : Inv s) (ho : o ∈ s.objs) : o < s.nextAutolinkOrdinal := by
  rw [h.objs_eq] at ho
  exact List.mem_range.mp ho

theorem lt_of_ne_running (h : Inv s) (ho : s.parse o ≠ .running) : o < s.nextAutolinkOrdinal := by
  by_contra hle
  exact ho (h.running o (Nat.le_of_not_lt hle))

theorem position_update (h : Position s) {p : Parse} {queue : Buffer ℕ}
    (ho : s.parse o ≠ .complete) (hqueue : queue.next = s.queue.next) :
    Position { s with parse := Function.update s.parse o p, queue := queue } := by
  unfold Position at h ⊢
  dsimp only at h ⊢
  split at h
  · split at h
    · exact h.update ho
    · exact ⟨h.1.update ho, h.2⟩
  · exact ⟨h.1.update ho, h.2⟩
  · exact ⟨h.1.update ho, h.2.1, hqueue ▸ h.2.2⟩
  · exact ⟨h.1.update ho, h.2.1, hqueue ▸ h.2.2⟩
  · exact ⟨h.1.update ho, h.2⟩
  · exact h.update ho
  · exact h.update ho
  · exact ⟨h.1.update ho, hqueue ▸ h.2⟩

theorem running_update (h : Inv s) {p : Parse} (ho : o < s.nextAutolinkOrdinal) :
    ∀ k, s.nextAutolinkOrdinal ≤ k → Function.update s.parse o p k = .running := by
  intro k hk
  rw [Function.update_of_ne (Nat.ne_of_gt (Nat.lt_of_lt_of_le ho hk))]
  exact h.running k hk

theorem enqueue (h : Inv s) (ho : o ∈ s.objs) (hparse : s.parse o = .running) :
    Inv { s with
      parse := Function.update s.parse o .enqueued, queue := s.queue.put o o } where
  objs_eq := h.objs_eq
  running := h.running_update (h.lt_of_mem_objs ho)
  arrived := h.arrived.put hparse Parse.noConfusion
  processed := h.processed
  position := by
    apply position_update h.position
    · rw [hparse]
      exact Parse.noConfusion
    · exact next_put o o

theorem notify (h : Inv s) (hparse : s.parse o = .enqueued) :
    Inv { s with parse := Function.update s.parse o .complete } where
  objs_eq := h.objs_eq
  running := by
    apply h.running_update (h.lt_of_ne_running _)
    rw [hparse]
    exact Parse.noConfusion
  arrived := by
    apply h.arrived.congr
    intro k
    dsimp only
    by_cases heq : k = o
    · rw [heq, Function.update_self, hparse]
      exact iff_of_false Parse.noConfusion Parse.noConfusion
    · rw [Function.update_of_ne heq]
  processed := h.processed
  position := by
    have hne : s.parse o ≠ .complete := by
      rw [hparse]
      exact Parse.noConfusion
    exact position_update h.position hne rfl

theorem setDylibs (h : Inv s) (dylibs : List Bool) : Inv { s with dylibs := dylibs } where
  objs_eq := h.objs_eq
  running := h.running
  arrived := h.arrived
  processed := h.processed
  position := h.position

/-! ## New files -/

def Reading (s : State) : Prop :=
  (s.pc = .outside ∧ s.pending ≠ none) ∨ ∃ files launched, s.pc = .process files launched

theorem range_create (h : Inv s) :
    s.objs ++ [s.nextAutolinkOrdinal] = List.range (s.nextAutolinkOrdinal + 1) := by
  rw [h.objs_eq, List.range_succ]

theorem create_running (h : Inv s) (hreading : Reading s) : Inv (s.create .running) := by
  have hparse : Function.update s.parse s.nextAutolinkOrdinal .running = s.parse := by
    rw [← h.running _ (Nat.le_refl _)]
    exact Function.update_eq_self _ _
  have hposition := h.position
  constructor
  · exact h.range_create
  · intro o ho
    rw [State.create, hparse]
    exact h.running o (Nat.le_of_succ_le ho)
  · rw [State.create, hparse]
    exact h.arrived
  · exact h.processed
  · rw [State.create, hparse]
    unfold Position at hposition ⊢
    rcases hreading with ⟨hpc, hpending⟩ | ⟨files, launched, hpc⟩
    · obtain ⟨begins, hbegins⟩ := Option.ne_none_iff_exists'.mp hpending
      simp only [hpc, hbegins] at hposition ⊢
      exact ⟨hposition.1, Nat.le_succ_of_le hposition.2⟩
    · simp only [hpc] at hposition ⊢
      exact ⟨hposition.1, Nat.le_succ_of_le hposition.2.1, hposition.2.2⟩

theorem readObjs (h : Inv s) (hreading : Reading s) (n : ℕ) : Inv (s.readObjs n) := by
  induction n generalizing s with
  | zero => exact h
  | succ n ih => exact ih (h.create_running hreading) hreading

theorem pc_readObjs (s : State) (n : ℕ) : (s.readObjs n).pc = s.pc := by
  induction n generalizing s with
  | zero => rfl
  | succ n ih => exact ih (s.create .running)

theorem setPending (h : Inv s) (hpc : s.pc = .outside) : Inv s.setPending := by
  unfold State.setPending
  split
  · exact h
  · next hpending =>
      have hposition := h.position
      unfold Position at hposition
      simp only [hpc, hpending] at hposition
      constructor
      · exact h.objs_eq
      · exact h.running
      · exact h.arrived
      · exact h.processed
      · unfold Position
        simp only [hpc, h.length_objs]
        exact ⟨hposition, Nat.le_refl _⟩

theorem reading_setPending (hpc : s.pc = .outside) : Reading s.setPending := by
  unfold State.setPending
  split
  · next begins hpending =>
      refine Or.inl ⟨hpc, ?_⟩
      rw [hpending]
      exact Option.some_ne_none begins
  · exact Or.inl ⟨hpc, Option.some_ne_none _⟩

theorem lto (h : Inv s) (hpc : s.pc = .outside) (hpending : s.pending = none) :
    Inv { s.create .complete with
      queue := s.queue.put s.nextAutolinkOrdinal s.nextAutolinkOrdinal } := by
  have hposition := h.position
  unfold Position at hposition
  simp only [hpc, hpending] at hposition
  have hrunning := h.running _ (Nat.le_refl _)
  constructor
  · exact h.range_create
  · intro o ho
    have hne : o ≠ s.nextAutolinkOrdinal := Nat.ne_of_gt ho
    rw [State.create]
    dsimp only
    rw [Function.update_of_ne hne]
    exact h.running o (Nat.le_of_succ_le ho)
  · exact h.arrived.put hrunning Parse.noConfusion
  · exact h.processed
  · unfold Position
    simp only [State.create, hpc, hpending]
    apply CompleteBelow.succ
    · apply hposition.update
      rw [hrunning]
      exact Parse.noConfusion
    · exact Function.update_self _ _ _

/-! ## Steps of the driver -/

theorem move (h : Inv s) {pc : Pc} (hinHand : inHand pc = inHand s.pc)
    (hposition : Position { s with pc := pc }) : Inv { s with pc := pc } where
  objs_eq := h.objs_eq
  running := h.running
  arrived := h.arrived
  processed := by
    dsimp only
    rw [hinHand]
    exact h.processed
  position := hposition

theorem call (h : Inv s) {objBegin dylibBegin : ℕ} (hpc : s.pc = .outside)
    (hpending : s.pending = some (objBegin, dylibBegin)) :
    Inv { s with objBegin := objBegin, dylibBegin := dylibBegin, pc := .drain } := by
  have hposition := h.position
  unfold Position at hposition
  simp only [hpc, hpending] at hposition
  have hprocessed := h.processed
  rw [hpc] at hprocessed
  exact ⟨h.objs_eq, h.running, h.arrived, hprocessed, hposition⟩

theorem drain (h : Inv s) (hpc : s.pc = .drain) :
    Inv { s with
      queue := s.queue.take.2
      taken := s.taken ++ [s.queue.take.1]
      pc := .process s.queue.take.1 0 } := by
  have hposition := h.position
  unfold Position at hposition
  simp only [hpc] at hposition
  have hprocessed := h.processed
  simp only [hpc, inHand, List.append_nil] at hprocessed
  have hflatten : (s.taken ++ [s.queue.take.1]).flatten = s.taken.flatten ++ s.queue.take.1 := by
    rw [List.flatten_append, List.flatten_singleton]
  constructor
  · exact h.objs_eq
  · exact h.running
  · rw [hflatten]
    exact h.arrived.take
  · rw [hflatten, hprocessed, inHand]
  · exact ⟨hposition.1, hposition.2, h.arrived.le_next_take hposition.1⟩

theorem load (h : Inv s) {file : ℕ} {files : List ℕ} {launched : ℕ}
    (hpc : s.pc = .process (file :: files) launched) (n : ℕ) :
    Inv { s.readObjs n with pc := .process (file :: files) (launched + 1) } := by
  have hread := h.readObjs (Or.inr ⟨_, _, hpc⟩) n
  have hpc' : (s.readObjs n).pc = .process (file :: files) launched :=
    (pc_readObjs s n).trans hpc
  apply hread.move
  · rw [hpc']
    rfl
  · have hposition := hread.position
    unfold Position at hposition ⊢
    simpa only [hpc'] using hposition

theorem processOne (h : Inv s) {file : ℕ} {files : List ℕ} {launched : ℕ}
    (hpc : s.pc = .process (file :: files) launched) :
    Inv { s with processed := s.processed ++ [file], pc := .process files launched } := by
  have hposition := h.position
  unfold Position at hposition
  simp only [hpc] at hposition
  have hprocessed := h.processed
  rw [hpc, inHand] at hprocessed
  constructor
  · exact h.objs_eq
  · exact h.running
  · exact h.arrived
  · rw [inHand, List.append_assoc, List.singleton_append]
    exact hprocessed
  · exact hposition

theorem objParsed (h : Inv s) {i objEnd dylibEnd o : ℕ}
    (hpc : s.pc = .waitObjs i objEnd dylibEnd) (ho : s.objs[i]? = some o)
    (hparse : s.parse o = .complete) :
    Inv { s with pc := .waitObjs (i + 1) objEnd dylibEnd } := by
  have hposition := h.position
  unfold Position at hposition
  simp only [hpc] at hposition
  have hi : o = i := by
    rw [h.objs_eq, List.getElem?_eq_some_iff] at ho
    obtain ⟨hlt, hget⟩ := ho
    rw [List.getElem_range] at hget
    exact hget.symm
  apply h.move
  · rw [hpc]
    rfl
  · exact ⟨hposition.1.succ (hi ▸ hparse), hposition.2⟩

theorem objsParsed (h : Inv s) {i objEnd dylibEnd : ℕ}
    (hpc : s.pc = .waitObjs i objEnd dylibEnd) (hi : objEnd ≤ i) :
    Inv { s with pc := .waitDylibs s.dylibBegin dylibEnd } := by
  have hposition := h.position
  unfold Position at hposition
  simp only [hpc] at hposition
  apply h.move
  · rw [hpc]
    rfl
  · intro o ho
    exact hposition.1 o (Nat.lt_of_lt_of_le (hposition.2 ▸ ho) hi)

theorem hoist (h : Inv s) (hpc : s.pc = .hoist) (dylibs : List Bool) (dylibBegin : ℕ) :
    Inv { s with
      dylibs := dylibs
      objBegin := s.objs.length
      dylibBegin := dylibBegin
      pc := .drain } := by
  have hposition := h.position
  unfold Position at hposition
  simp only [hpc] at hposition
  have hprocessed := h.processed
  rw [hpc] at hprocessed
  constructor
  · exact h.objs_eq
  · exact h.running
  · exact h.arrived
  · exact hprocessed
  · rw [h.length_objs]
    exact ⟨hposition, Nat.le_refl _⟩

theorem back (h : Inv s) (hpc : s.pc = .returned) :
    Inv { s with pending := none, pc := .outside } := by
  have hposition := h.position
  unfold Position at hposition
  simp only [hpc] at hposition
  have hprocessed := h.processed
  rw [hpc] at hprocessed
  exact ⟨h.objs_eq, h.running, h.arrived, hprocessed, hposition.1⟩

/-! ## Runs -/

theorem step {t : State} (h : Inv s) (hstep : Step s t) : Inv t := by
  have hposition := h.position
  unfold Position at hposition
  cases hstep with
  | enqueue o ho hparse => exact h.enqueue ho hparse
  | notify o hparse => exact h.notify hparse
  | dylibParsed i _ => exact h.setDylibs _
  | read n m hpc =>
    exact ((h.setPending hpc).readObjs (reading_setPending hpc) n).setDylibs _
  | lto hpc hpending => exact h.lto hpc hpending
  | dedup dylibs _ _ _ => exact h.setDylibs _
  | call objBegin dylibBegin hpc hpending => exact h.call hpc hpending
  | drain hpc => exact h.drain hpc
  | load file files launched n m hpc _ => exact (h.load hpc n).setDylibs _
  | processed file files launched hpc => exact h.processOne hpc
  | drained launched hpc =>
    simp only [hpc] at hposition
    exact h.move (by rw [hpc]; rfl) hposition
  | leave hpc hobjs _ =>
    simp only [hpc, hobjs, h.length_objs] at hposition
    exact h.move (by rw [hpc]; rfl) ⟨hposition.1, hposition.2.2⟩
  | again launched hpc _ _ _ =>
    simp only [hpc] at hposition
    exact h.move (by rw [hpc]; rfl) ⟨hposition.1, hposition.2.1⟩
  | wait launched hpc _ =>
    simp only [hpc] at hposition
    exact h.move (by rw [hpc]; rfl) ⟨hposition.1, h.length_objs⟩
  | objParsed i objEnd dylibEnd o hpc _ ho hparse => exact h.objParsed hpc ho hparse
  | objsParsed i objEnd dylibEnd hpc hi => exact h.objsParsed hpc hi
  | nextDylib i dylibEnd hpc _ _ =>
    simp only [hpc] at hposition
    exact h.move (by rw [hpc]; rfl) hposition
  | dylibsParsed i dylibEnd hpc _ =>
    simp only [hpc] at hposition
    exact h.move (by rw [hpc]; rfl) hposition
  | hoist m hpc => exact h.hoist hpc _ _
  | back hpc => exact h.back hpc

theorem of_reachable (h : Reachable s) : Inv s := by
  induction h with
  | refl => exact Inv.init
  | tail _ hstep ih => exact ih.step hstep

theorem processed_of_returned (h : Inv s) (hpc : s.pc = .returned) :
    s.processed = List.range s.queue.next ∧ s.nextAutolinkOrdinal ≤ s.queue.next := by
  have hposition := h.position
  unfold Position at hposition
  simp only [hpc] at hposition
  have hprocessed := h.processed
  simp only [hpc, inHand, List.append_nil, h.arrived.eq_range] at hprocessed
  exact ⟨hprocessed, hposition.2⟩

theorem complete_of_returned (h : Inv s) (hpc : s.pc = .returned)
    (ho : o ∈ s.objs) : s.parse o = .complete := by
  have hposition := h.position
  unfold Position at hposition
  simp only [hpc] at hposition
  exact hposition.1 o (h.lt_of_mem_objs ho)

theorem count_processed_of_returned (h : Inv s) (hpc : s.pc = .returned)
    (ho : o ∈ s.objs) : s.processed.count o = 1 := by
  obtain ⟨hprocessed, hle⟩ := h.processed_of_returned hpc
  rw [hprocessed]
  apply List.count_eq_one_of_mem List.nodup_range
  exact List.mem_range.mpr (Nat.lt_of_lt_of_le (h.lt_of_mem_objs ho) hle)

end Inv

/-- The files are taken in the order of their ordinals, whatever the order in which
the tasks hand them over; when `wait_for_new_input_frontier` returns, every object
file is parsed and its linker options have been processed once. -/
theorem linker_options_in_order (autolinkOrdinal : α → ℕ) :
    (∀ calls : List (Call α), ((enqueued calls).map autolinkOrdinal).Nodup →
      (takenLists autolinkOrdinal calls).flatten.map autolinkOrdinal =
        List.range (takenLists autolinkOrdinal calls).flatten.length ∧
      ∀ file ∈ (takenLists autolinkOrdinal calls).flatten, file ∈ enqueued calls) ∧
    ∀ s, Reachable s → s.taken.flatten = List.range s.taken.flatten.length ∧
      (s.pc = .returned → ∀ o ∈ s.objs, s.parse o = .complete ∧ s.processed.count o = 1) := by
  constructor
  · intro calls hnodup
    constructor
    · exact map_flatten_takenLists calls hnodup
    · intro file hfile
      exact mem_enqueued_of_mem_flatten_takenLists calls hnodup hfile
  · intro s hs
    have hinv := Inv.of_reachable hs
    constructor
    · have hrange := hinv.arrived.eq_range
      rw [hrange, List.length_range]
    · intro hpc o ho
      exact ⟨hinv.complete_of_returned hpc ho, hinv.count_processed_of_returned hpc ho⟩

/-- The second of two files is parsed first; and a run in which one file is read. -/
theorem linker_options_in_order_example :
    (takenLists id [.enqueueParsedObject 1, .takeFrontier, .enqueueParsedObject 0,
      .takeFrontier]).flatten.map id = [0, 1] ∧
    ∃ s, Reachable s ∧ s.objs = [0] ∧ s.parse 0 = .complete ∧ s.processed.count 0 = 1 := by
  constructor
  · have horder := ((linker_options_in_order (id : ℕ → ℕ)).1 [.enqueueParsedObject 1,
      .takeFrontier, .enqueueParsedObject 0, .takeFrontier] (by decide)).1
    exact horder.trans rfl
  · have h : Reachable {} := Relation.ReflTransGen.refl
    have h := h.tail (Step.read _ 1 0 rfl)
    have h := h.tail (Step.call _ 0 0 rfl rfl)
    have h := h.tail (Step.drain _ rfl)
    have h := h.tail (Step.drained _ 0 rfl)
    have h := h.tail (Step.wait _ 0 rfl (by decide))
    have h := h.tail (Step.enqueue _ 0 (by decide) rfl)
    have h := h.tail (Step.notify _ 0 rfl)
    have h := h.tail (Step.objParsed _ 0 1 0 0 rfl (by decide) rfl rfl)
    have h := h.tail (Step.objsParsed _ 1 1 0 rfl (by decide))
    have h := h.tail (Step.dylibsParsed _ 0 0 rfl (by decide))
    have h := h.tail (Step.hoist _ 0 rfl)
    have h := h.tail (Step.drain _ rfl)
    have h := h.tail (Step.processed _ 0 [] 0 rfl)
    have h := h.tail (Step.drained _ 0 rfl)
    have h := h.tail (Step.leave _ rfl rfl rfl)
    have hfile := ((linker_options_in_order (id : ℕ → ℕ)).2 _ h).2 rfl 0 (by decide)
    exact ⟨_, h, rfl, hfile⟩

end Mold.MachO.Autolink
