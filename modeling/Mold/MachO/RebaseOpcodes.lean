import Mathlib.Data.List.Sort
import Mold.Common.Leb128
import Mold.MachO.Rebase

/-!
# Rebase opcodes

`encode_rebase_entries` sorts the locations and encodes runs of adjacent slots.
The loader's interpreter keeps the segment and the address between opcodes, and
every rebase advances the address by a word.  The encoder relies on the address
behind the last run, so it is the state that connects one run with the next.
-/

namespace Mold.MachO.RebaseOpcodes

open Mold.Lib Mold.Common Mold.MachO.Rebase

/-! ## The encoder -/

/-- `RebaseEntry::operator<=>` -/
def Precedes (a b : Location) : Prop :=
  a.segIdx < b.segIdx ∨ a.segIdx = b.segIdx ∧ a.offset ≤ b.offset

instance instDecidableRelPrecedes : DecidableRel Precedes := fun _ _ =>
  inferInstanceAs (Decidable (_ ∨ _))

/-- `REBASE_OPCODE_SET_SEGMENT_AND_OFFSET_ULEB` -/
def setLocation (cur : Location) : List Byte :=
  Fin.ofNat 256 (0x20 ||| cur.segIdx) :: encodeUleb cur.offset

def moveTo (last : Option Location) (cur : Location) : List Byte :=
  match last with
  | none => setLocation cur
  | some last =>
    if last.segIdx ≠ cur.segIdx ∨ cur.offset - last.offset - 8 < 0 then
      setLocation cur
    else
      let dist := cur.offset - last.offset - 8
      if dist % 8 = 0 ∧ dist < 128 then [Fin.ofNat 256 (0x40 ||| (dist / 8).toNat)]
      else 0x30 :: encodeUleb dist

/-- The number of locations that follow `last` without a gap.  A sum that leaves
the 31 bits of an offset equals no offset, whether it is wrapped or not. -/
def runLength (last : Location) : List Location → ℕ
  | [] => 0
  | next :: rebases =>
    if last.segIdx = next.segIdx ∧ last.offset + 8 = next.offset then
      runLength next rebases + 1
    else 0

/-- The opcode for `n` consecutive slots. -/
def doRebase (n : ℕ) : List Byte :=
  if n < 16 then [Fin.ofNat 256 (0x50 ||| n)] else 0x60 :: encodeUleb n

/-- The loop of `encode_rebase_entries`; `last` is the location in front of the
remaining ones. -/
def encodeRuns (last : Option Location) : List Location → List Byte
  | [] => []
  | cur :: rebases =>
    moveTo last cur ++ doRebase (runLength cur rebases + 1) ++
      encodeRuns (cur :: rebases)[runLength cur rebases]? (rebases.drop (runLength cur rebases))
termination_by rebases => rebases.length
decreasing_by
  rw [List.length_drop, List.length_cons]
  omega

/-- The bytes that fill a buffer up to a multiple of eight. -/
def padding (buf : List Byte) : List Byte :=
  List.replicate ((buf.length + 7) / 8 * 8 - buf.length) 0

/-- `encode_rebase_entries`; `REBASE_TYPE_POINTER` is 1. -/
def encodeRebaseEntries (rebases : List Location) : List Byte :=
  let buf := Fin.ofNat 256 (0x10 ||| 1) ::
    (encodeRuns none (rebases.insertionSort Precedes) ++ [0])
  buf ++ padding buf

/-! ## The loader -/

/-- The registers of the loader.  A rebase slides what is at the location. -/
structure RebaseState where
  type : ℕ := 0
  segIdx : ℕ := 0
  offset : ℕ := 0
  deriving DecidableEq

namespace RebaseState

def addAddr (st : RebaseState) (n : ℕ) : RebaseState :=
  { st with offset := (st.offset + n) % 2 ^ 64 }

/-- Rebase `count` times and advance the address by `step` after each time. -/
def rebase (st : RebaseState) (step : ℕ) : ℕ → List RebaseState × RebaseState
  | 0 => ([], st)
  | count + 1 =>
    let result := (st.addAddr step).rebase step count
    (st :: result.1, result.2)

end RebaseState

def goOn (st : RebaseState) : Effect RebaseState RebaseState := .next st []

def times (st : RebaseState) (step count : ℕ) : Effect RebaseState RebaseState :=
  .next (st.rebase step count).2 (st.rebase step count).1

def loader : Interpreter RebaseState RebaseState where
  exec st b bytes :=
    match b.val / 16 with
    | 0 => some (.stop, bytes)
    | 1 => some (goOn { st with type := b.val % 16 }, bytes)
    | 2 => (Uleb.decode bytes).map fun (n, rest) =>
      (goOn { st with segIdx := b.val % 16, offset := n % 2 ^ 64 }, rest)
    | 3 => (Uleb.decode bytes).map fun (n, rest) => (goOn (st.addAddr n), rest)
    | 4 => some (goOn (st.addAddr (8 * (b.val % 16))), bytes)
    | 5 => some (times st 8 (b.val % 16), bytes)
    | 6 => (Uleb.decode bytes).map fun (n, rest) => (times st 8 n, rest)
    | 7 => (Uleb.decode bytes).map fun (n, rest) => (times st (n + 8) 1, rest)
    | 8 =>
      match Uleb.decode bytes with
      | none => none
      | some (count, bytes) => (Uleb.decode bytes).map fun (n, rest) =>
        (times st (n + 8) count, rest)
    | _ => none

def slot (loc : Location) : RebaseState :=
  ⟨1, loc.segIdx, loc.offset.toNat⟩

def InRange (loc : Location) : Prop :=
  loc.segIdx < 16 ∧ 0 ≤ loc.offset ∧ loc.offset < 2 ^ 31

instance instDecidablePredInRange : DecidablePred InRange := fun _ =>
  inferInstanceAs (Decidable (_ ∧ _))

section Opcodes

variable {st : RebaseState}

theorem executes_type {b : Byte} (h : b.val / 16 = 1) :
    loader.Executes st [b] [] { st with type := b.val % 16 } :=
  .of_exec fun rest => by simp only [loader, h, List.nil_append, goOn]

theorem executes_setLocation {loc : Location} (hseg : loc.segIdx < 16)
    (hnonneg : 0 ≤ loc.offset) (hlt : loc.offset < 2 ^ 64) :
    loader.Executes st (setLocation loc) []
      { st with segIdx := loc.segIdx, offset := loc.offset.toNat } := by
  obtain ⟨hop, hk⟩ := opcode_or (by decide : 2 < 16) hseg
  have hmod : (loc.offset % 2 ^ 64).toNat % 2 ^ 64 = loc.offset.toNat := by omega
  refine .of_exec fun rest => ?_
  simp only [loader, hop, hk, encodeUleb, Uleb.decode_encode_append, Option.map_some, goOn, hmod]

theorem executes_addAddr_imm {k : ℕ} (hk : k < 16) :
    loader.Executes st [Fin.ofNat 256 (0x40 ||| k)] [] (st.addAddr (8 * k)) := by
  obtain ⟨hop, hk⟩ := opcode_or (by decide : 4 < 16) hk
  refine .of_exec fun rest => ?_
  simp only [loader, hop, hk, List.nil_append, goOn]

theorem executes_addAddr_uleb {n : ℤ} (h0 : 0 ≤ n) (hlt : n < 2 ^ 64) :
    loader.Executes st (0x30 :: encodeUleb n) [] (st.addAddr n.toNat) := by
  have hop : (0x30 : Byte).val / 16 = 3 := by decide
  have hmod : n % 2 ^ 64 = n := Int.emod_eq_of_lt h0 hlt
  refine .of_exec fun rest => ?_
  simp only [loader, hop, encodeUleb, Uleb.decode_encode_append, Option.map_some, goOn, hmod]

theorem executes_doRebase {n : ℕ} (hn : n < 2 ^ 64) :
    loader.Executes st (doRebase n) (st.rebase 8 n).1 (st.rebase 8 n).2 := by
  rw [doRebase]
  split
  case isTrue h =>
    obtain ⟨hop, hk⟩ := opcode_or (by decide : 5 < 16) h
    refine .of_exec fun rest => ?_
    simp only [loader, hop, hk, List.nil_append, times]
  case isFalse h =>
    have hop : (0x60 : Byte).val / 16 = 6 := by decide
    have hmod : ((n : ℤ) % 2 ^ 64).toNat = n := by omega
    refine .of_exec fun rest => ?_
    simp only [loader, hop, encodeUleb, Uleb.decode_encode_append, Option.map_some, times, hmod]

end Opcodes

/-! ## Runs -/

def behind (loc : Location) : RebaseState :=
  ⟨1, loc.segIdx, loc.offset.toNat + 8⟩

theorem addAddr_slot {loc : Location} (h : InRange loc) : (slot loc).addAddr 8 = behind loc := by
  obtain ⟨-, h0, hlt⟩ := h
  simp only [slot, behind, RebaseState.addAddr, RebaseState.mk.injEq, true_and]
  omega

variable {rebases : List Location} {cur : Location}

theorem rebase_runLength (h : ∀ loc ∈ cur :: rebases, InRange loc) :
    ∃ last, (cur :: rebases)[runLength cur rebases]? = some last ∧ InRange last ∧
      (slot cur).rebase 8 (runLength cur rebases + 1) =
        ((cur :: rebases.take (runLength cur rebases)).map slot, behind last) := by
  induction rebases generalizing cur with
  | nil =>
    have hcur := h cur List.mem_cons_self
    refine ⟨cur, rfl, hcur, ?_⟩
    simp only [runLength, RebaseState.rebase, addAddr_slot hcur, List.take_nil,
      List.map_cons, List.map_nil]
  | cons next rebases ih =>
    obtain ⟨hcur, htail⟩ := List.forall_mem_cons.mp h
    rw [runLength]
    split
    case isTrue hadj =>
      obtain ⟨last, hget, hlast, hrebase⟩ := ih htail
      have hslot : (slot cur).addAddr 8 = slot next := by
        have h0 := hcur.2.1
        rw [addAddr_slot hcur]
        simp only [behind, slot, RebaseState.mk.injEq, true_and]
        omega
      refine ⟨last, hget, hlast, ?_⟩
      rw [RebaseState.rebase, hslot, hrebase]
      rfl
    case isFalse =>
      refine ⟨cur, rfl, hcur, ?_⟩
      simp only [RebaseState.rebase, addAddr_slot hcur, List.take_zero,
        List.map_cons, List.map_nil]

/-- What the encoder takes for granted in front of a run. -/
def Ready (last : Option Location) (st : RebaseState) : Prop :=
  st.type = 1 ∧ ∀ loc ∈ last, InRange loc ∧ st = behind loc

theorem executes_moveTo {last : Option Location} {st : RebaseState}
    (hready : Ready last st) (hcur : InRange cur) :
    loader.Executes st (moveTo last cur) [] (slot cur) := by
  obtain ⟨htype, hlast⟩ := hready
  obtain ⟨hseg, h0, hlt⟩ := hcur
  have hset : loader.Executes st (setLocation cur) [] (slot cur) := by
    have hexec := @executes_setLocation st cur hseg h0 (hlt.trans (by decide))
    rwa [htype] at hexec
  cases last with
  | none => exact hset
  | some last =>
    obtain ⟨⟨-, hl0, hllt⟩, rfl⟩ := hlast last rfl
    rw [moveTo]
    split
    case isTrue => exact hset
    case isFalse hsame =>
      obtain ⟨hsame, hdist⟩ := not_or.mp hsame
      rw [not_ne_iff] at hsame
      have hslot : (behind last).addAddr (cur.offset - last.offset - 8).toNat = slot cur := by
        simp only [behind, slot, RebaseState.addAddr, hsame, RebaseState.mk.injEq, true_and]
        omega
      dsimp only
      split
      case isTrue h =>
        have hscaled : 8 * ((cur.offset - last.offset - 8) / 8).toNat =
            (cur.offset - last.offset - 8).toNat := by omega
        rw [← hslot, ← hscaled]
        exact executes_addAddr_imm (by omega)
      case isFalse =>
        rw [← hslot]
        exact executes_addAddr_uleb (by omega) (by omega)

theorem runLength_lt (h : ∀ loc ∈ cur :: rebases, InRange loc) :
    cur.offset + 8 * runLength cur rebases < 2 ^ 31 := by
  induction rebases generalizing cur with
  | nil =>
    have hcur := (h cur List.mem_cons_self).2.2
    simpa [runLength] using hcur
  | cons next rebases ih =>
    have hcur := (h cur List.mem_cons_self).2.2
    rw [runLength]
    split
    case isTrue hadj =>
      have hlt := ih (fun loc hloc => h loc (List.mem_cons_of_mem _ hloc))
      push_cast
      omega
    case isFalse => simpa using hcur

theorem executes_encodeRuns {last : Option Location} {st : RebaseState}
    (hready : Ready last st) (h : ∀ loc ∈ rebases, InRange loc) :
    ∃ st', loader.Executes st (encodeRuns last rebases) (rebases.map slot) st' := by
  induction last, rebases using encodeRuns.induct generalizing st with
  | case1 last =>
    rw [encodeRuns]
    exact ⟨st, .refl st⟩
  | case2 last cur rebases ih =>
    set n := runLength cur rebases
    obtain ⟨next, hget, hnext, hrebase⟩ := rebase_runLength h
    have hcur := h cur List.mem_cons_self
    have hrest : ∀ loc ∈ rebases.drop n, InRange loc := fun loc hloc =>
      h loc (List.mem_cons_of_mem _ (List.mem_of_mem_drop hloc))
    have hbehind : Ready (cur :: rebases)[n]? (behind next) := by
      rw [hget]
      refine ⟨rfl, fun loc hloc => ?_⟩
      obtain rfl := Option.mem_some.mp hloc
      exact ⟨hnext, rfl⟩
    obtain ⟨st', htail⟩ := ih hbehind hrest
    have hlt := runLength_lt h
    have hrun := @executes_doRebase (slot cur) (n + 1) (by have := hcur.2.1; omega)
    rw [hrebase] at hrun
    refine ⟨st', ?_⟩
    have hexec := ((executes_moveTo hready hcur).trans hrun).trans htail
    rw [encodeRuns]
    convert hexec using 1
    rw [List.nil_append, ← List.map_append, List.cons_append, List.take_append_drop]

theorem interpret_encode_sorted (h : ∀ loc ∈ rebases, InRange loc) :
    ∃ n < 8, loader.interpret {} (encodeRebaseEntries rebases) =
      some ((rebases.insertionSort Precedes).map slot, List.replicate n 0) := by
  have hperm := List.perm_insertionSort Precedes rebases
  have hstart : Ready none { type := 1 } :=
    ⟨rfl, fun _ h => absurd h (Option.not_mem_none _)⟩
  have hsorted : ∀ loc ∈ rebases.insertionSort Precedes, InRange loc := fun loc hloc =>
    h loc (hperm.mem_iff.mp hloc)
  obtain ⟨st, hexec⟩ := executes_encodeRuns hstart hsorted
  have htype := @executes_type {} (Fin.ofNat 256 (0x10 ||| 1)) (by decide)
  set buf := Fin.ofNat 256 (0x10 ||| 1) ::
    (encodeRuns none (rebases.insertionSort Precedes) ++ [0]) with hbuf
  have hbytes : encodeRebaseEntries rebases =
      [Fin.ofNat 256 (0x10 ||| 1)] ++ encodeRuns none (rebases.insertionSort Precedes) ++
        0 :: padding buf := by
    simp only [encodeRebaseEntries, hbuf, List.cons_append, List.append_assoc, List.nil_append]
  refine ⟨(buf.length + 7) / 8 * 8 - buf.length, by omega, ?_⟩
  rw [hbytes]
  exact (htype.trans hexec).interpret_eq rfl

/-- For every list of locations in range, the loader rebases each of them once
and nothing else. -/
theorem interpret_encodeRebaseEntries {rebases : List Location}
    (h : ∀ loc ∈ rebases, InRange loc) :
    ∃ done n, loader.interpret {} (encodeRebaseEntries rebases) = some (done, List.replicate n 0) ∧
      n < 8 ∧ done.Perm (rebases.map slot) := by
  obtain ⟨n, hn, hrun⟩ := interpret_encode_sorted h
  exact ⟨_, n, hrun, hn, (List.perm_insertionSort Precedes rebases).map slot⟩

/-- Two slots overlap, and one of them is listed twice. -/
theorem interpret_encodeRebaseEntries_example :
    ∃ done n, loader.interpret {}
        (encodeRebaseEntries [⟨1, 24⟩, ⟨1, 8⟩, ⟨2, 0⟩, ⟨1, 28⟩, ⟨1, 8⟩]) =
          some (done, List.replicate n 0) ∧
      n < 8 ∧ done.Perm [⟨1, 1, 24⟩, ⟨1, 1, 8⟩, ⟨1, 2, 0⟩, ⟨1, 1, 28⟩, ⟨1, 1, 8⟩] :=
  interpret_encodeRebaseEntries (by decide)

theorem slot_inj {a b : Location} (ha : InRange a) (hb : InRange b) : slot a = slot b ↔ a = b := by
  obtain ⟨-, ha, -⟩ := ha
  obtain ⟨-, hb, -⟩ := hb
  constructor
  · intro h
    obtain ⟨-, hseg, hoff⟩ := RebaseState.mk.inj h
    obtain ⟨aseg, aoff⟩ := a
    obtain ⟨bseg, boff⟩ := b
    simp only [Location.mk.injEq]
    simp only at ha hb hseg hoff
    omega
  · rintro rfl
    rfl

/-- The loader slides exactly the pointers that hold an address of the image, if each stub has
a slot of its own and no absolute symbol is rebased.  Each entry is slid once. -/
theorem loader_slides_iff {τ : Type*} [DecidableEq τ] {ctx : Context τ}
    (hsound : ctx.RebaseSound) (h : ∀ loc ∈ ctx.rebases, InRange loc) :
    ∃ done rest, loader.interpret {} (encodeRebaseEntries ctx.rebases) = some (done, rest) ∧
      done.Perm (ctx.rebases.map slot) ∧ (∀ st ∈ done, ∃ loc, InRange loc ∧ slot loc = st) ∧
      ∀ loc, InRange loc → (slot loc ∈ done ↔ ∃ x, ctx.HoldsAddress x ∧ ctx.location x = loc) := by
  have hcovers := Context.rebaseCovers_of_sound hsound
  obtain ⟨n, -, hrun⟩ := interpret_encode_sorted h
  have hperm := (List.perm_insertionSort Precedes ctx.rebases).map slot
  refine ⟨_, _, hrun, hperm, fun st hst => ?_, fun loc hloc => ?_⟩
  · obtain ⟨loc, hmem, rfl⟩ := List.mem_map.mp (hperm.mem_iff.mp hst)
    exact ⟨loc, h loc hmem, rfl⟩
  · rw [← hcovers loc, hperm.mem_iff, List.mem_map]
    constructor
    · rintro ⟨loc', hmem, heq⟩
      obtain rfl := (slot_inj (h loc' hmem) hloc).mp heq
      exact hmem
    · intro hmem
      exact ⟨loc, hmem, rfl⟩

/-- A word of data and the slot of an imported function that is called. -/
theorem loader_slides_called :
    ∃ done rest, loader.interpret {} (encodeRebaseEntries
        (importedFunction { needsStub := true }).rebases) = some (done, rest) ∧
      done.Perm ((importedFunction { needsStub := true }).rebases.map slot) ∧
      (∀ st ∈ done, ∃ loc, InRange loc ∧ slot loc = st) ∧
      ∀ loc, InRange loc → (slot loc ∈ done ↔ ∃ x,
        (importedFunction { needsStub := true }).HoldsAddress x ∧
          (importedFunction { needsStub := true }).location x = loc) :=
  loader_slides_iff sound_importedFunction (by decide)

end Mold.MachO.RebaseOpcodes
