import Mathlib.Data.List.TakeWhile
import Mold.MachO.LazyBinding
import Mold.MachO.RebaseOpcodes

/-!
# Bind opcodes

`encode_bind_entries` sorts the bindings and leaves out what is the same as for
the binding before.  The loader keeps all registers between binds, so it still
has what is left out, apart from the address, which a bind advances by a word.
Since locations are distinct, the address is always set.
-/

namespace Mold.MachO.BindOpcodes

open Mold.Lib Mold.Common Mold.MachO.Resolver Mold.MachO.LazyBinding

/-! ## The encoder -/

structure BindEntry where
  sym : StubSymbol
  segIdx : ℕ
  offset : ℤ
  addend : ℤ

/-- The comparison of `encode_bind_entries`: the second entry is not less than
the first. -/
def Precedes (a b : BindEntry) : Prop :=
  a.sym.name < b.sym.name ∨ a.sym.name = b.sym.name ∧
    (a.segIdx < b.segIdx ∨ a.segIdx = b.segIdx ∧
      (a.offset < b.offset ∨ a.offset = b.offset ∧ a.addend ≤ b.addend))

instance instDecidableRelPrecedes : DecidableRel Precedes := fun _ _ =>
  inferInstanceAs (Decidable (_ ∨ _))

structure Context where
  flatNamespace : Bool
  dylibIdx : ℕ → ℕ

namespace Context

variable (ctx : Context)

def getDylibIdx (sym : StubSymbol) : ℤ :=
  Resolver.getDylibIdx ctx.flatNamespace ctx.dylibIdx sym.file

/-- `BIND_OPCODE_SET_SYMBOL_TRAILING_FLAGS_IMM` -/
def setSymbol (sym : StubSymbol) : List Byte :=
  Fin.ofNat 256 (0x40 ||| Link.symbolFlags sym) :: (sym.name ++ [0])

/-- `BIND_OPCODE_SET_SEGMENT_AND_OFFSET_ULEB` -/
def setLocation (b : BindEntry) : List Byte :=
  Fin.ofNat 256 (0x70 ||| b.segIdx) :: encodeUleb b.offset

/-- `BIND_OPCODE_SET_ADDEND_SLEB` -/
def setAddend (addend : ℤ) : List Byte :=
  0x60 :: encodeSleb addend

def bindOpcodes (last : Option BindEntry) (b : BindEntry) : List Byte :=
  (if last.any fun l => b.sym.file = l.sym.file then []
    else ordinalOpcode (ctx.getDylibIdx b.sym)) ++
  (if last.any fun l => l.sym.name = b.sym.name ∧ l.sym.isWeak = b.sym.isWeak then []
    else setSymbol b.sym) ++
  (if last.any fun l => l.segIdx = b.segIdx ∧ l.offset = b.offset then []
    else setLocation b) ++
  (if last.any fun l => l.addend = b.addend then [] else setAddend b.addend) ++
  [0x90]

/-- The loop of `encode_bind_entries`. -/
def encodeBinds : (last : Option BindEntry) → List BindEntry → List Byte
  | _, [] => []
  | last, b :: bindings => ctx.bindOpcodes last b ++ encodeBinds (some b) bindings

/-- `encode_bind_entries`; `BIND_TYPE_POINTER` is 1. -/
def encodeBindEntries (bindings : List BindEntry) : List Byte :=
  let buf := Fin.ofNat 256 (0x50 ||| 1) ::
    (ctx.encodeBinds none (bindings.insertionSort Precedes) ++ [0])
  buf ++ RebaseOpcodes.padding buf

end Context

/-! ## The loader -/

structure BindRegisters where
  type : ℕ := 0
  ordinal : ℤ := 0
  name : List Byte := []
  flags : ℕ := 0
  segIdx : ℕ := 0
  offset : ℕ := 0
  addend : ℤ := 0
  deriving DecidableEq

namespace BindRegisters

def addAddr (st : BindRegisters) (n : ℕ) : BindRegisters :=
  { st with offset := (st.offset + n) % 2 ^ 64 }

/-- Bind `count` times and advance the address by `step` after each time. -/
def bind (st : BindRegisters) (step : ℕ) : ℕ → List BindRegisters × BindRegisters
  | 0 => ([], st)
  | count + 1 =>
    let result := (st.addAddr step).bind step count
    (st :: result.1, result.2)

end BindRegisters

def goOn (st : BindRegisters) : Effect BindRegisters BindRegisters := .next st []

def times (st : BindRegisters) (step count : ℕ) : Effect BindRegisters BindRegisters :=
  .next (st.bind step count).2 (st.bind step count).1

def binder : Interpreter BindRegisters BindRegisters where
  exec st b bytes :=
    match b.val / 16 with
    | 0 => some (.stop, bytes)
    | 1 => some (goOn { st with ordinal := (b.val % 16 : ℕ) }, bytes)
    | 2 => (Uleb.decode bytes).map fun (n, rest) => (goOn { st with ordinal := n }, rest)
    | 3 => some (goOn { st with ordinal := specialOrdinal b.val }, bytes)
    | 4 => some (goOn { st with name := bytes.takeWhile (· ≠ 0), flags := b.val % 16 },
        (bytes.dropWhile (· ≠ 0)).tail)
    | 5 => some (goOn { st with type := b.val % 16 }, bytes)
    | 6 => (Sleb.decode bytes).map fun (n, rest) =>
      (goOn { st with addend := n.bmod (2 ^ 64) }, rest)
    | 7 => (Uleb.decode bytes).map fun (n, rest) =>
      (goOn { st with segIdx := b.val % 16, offset := n % 2 ^ 64 }, rest)
    | 8 => (Uleb.decode bytes).map fun (n, rest) => (goOn (st.addAddr n), rest)
    | 9 => some (times st 8 1, bytes)
    | 10 => (Uleb.decode bytes).map fun (n, rest) => (times st (n + 8) 1, rest)
    | 11 => some (times st (b.val % 16 * 8 + 8) 1, bytes)
    | 12 =>
      match Uleb.decode bytes with
      | none => none
      | some (count, bytes) => (Uleb.decode bytes).map fun (n, rest) =>
        (times st (n + 8) count, rest)
    | _ => none

namespace Context

variable (ctx : Context)

def bound (b : BindEntry) : BindRegisters where
  type := 1
  ordinal := ctx.getDylibIdx b.sym
  name := b.sym.name
  flags := Link.symbolFlags b.sym
  segIdx := b.segIdx
  offset := (b.offset % 2 ^ 64).toNat
  addend := b.addend

/-- The bindings that the opcodes can describe: negative ordinals have four bits,
and addends have 64. -/
def InRange (b : BindEntry) : Prop :=
  b.segIdx < 16 ∧ -16 < ctx.getDylibIdx b.sym ∧ -2 ^ 63 ≤ b.addend ∧ b.addend < 2 ^ 63

instance instDecidableInRange (b : BindEntry) : Decidable (ctx.InRange b) :=
  inferInstanceAs (Decidable (_ ∧ _))

end Context

def Apart (a b : BindEntry) : Prop := ¬ (a.segIdx = b.segIdx ∧ a.offset = b.offset)

instance instDecidableRelApart : DecidableRel Apart := fun _ _ =>
  inferInstanceAs (Decidable (¬ _))

section Opcodes

variable {st : BindRegisters}

theorem executes_type {b : Byte} (h : b.val / 16 = 5) :
    binder.Executes st [b] [] { st with type := b.val % 16 } :=
  .of_exec fun rest => by simp only [binder, h, List.nil_append, goOn]

theorem executes_ordinalOpcode {idx : ℤ} (h : -16 < idx) :
    binder.Executes st (ordinalOpcode idx) [] { st with ordinal := idx } := by
  rw [ordinalOpcode]
  split
  case isTrue hneg =>
    have hval : (Fin.ofNat 256 (0x30 + (idx % 16).toNat)).val = 48 + (idx % 16).toNat := by
      rw [Fin.val_ofNat]
      omega
    have hop : (48 + (idx % 16).toNat) / 16 = 3 := by omega
    have hord : specialOrdinal (48 + (idx % 16).toNat) = idx := by
      rw [specialOrdinal]
      split <;> omega
    refine .of_exec fun rest => ?_
    simp only [binder, hval, hop, hord, List.nil_append, goOn]
  case isFalse hneg =>
    split
    case isTrue himm =>
      have hval : (Fin.ofNat 256 (0x10 + idx.toNat)).val = 16 + idx.toNat := by
        rw [Fin.val_ofNat]
        omega
      have hop : (16 + idx.toNat) / 16 = 1 := by omega
      have hord : ((16 + idx.toNat) % 16 : ℕ) = idx := by omega
      refine .of_exec fun rest => ?_
      simp only [binder, hval, hop, hord, List.nil_append, goOn]
    case isFalse himm =>
      have hop : (Fin.ofNat 256 0x20).val / 16 = 2 := by decide
      have hord : (idx.toNat : ℤ) = idx := Int.toNat_of_nonneg (by omega)
      refine .of_exec fun rest => ?_
      simp only [binder, hop, hord, Uleb.decode_encode_append, Option.map_some, goOn]

theorem executes_setSymbol (sym : StubSymbol) :
    binder.Executes st (Context.setSymbol sym) []
      { st with name := sym.name, flags := Link.symbolFlags sym } := by
  have hflags : Link.symbolFlags sym < 16 := by
    rw [Link.symbolFlags]
    split <;> decide
  obtain ⟨hop, hk⟩ := opcode_or (by decide : 4 < 16) hflags
  have hne : ∀ c ∈ sym.name, decide (c ≠ 0) = true :=
    fun c hc => decide_eq_true (ne_of_mem_of_not_mem hc sym.name_nul)
  refine .of_exec fun rest => ?_
  have htake : (sym.name ++ [0] ++ rest).takeWhile (· ≠ 0) = sym.name := by
    rw [List.append_assoc, List.takeWhile_append_of_pos hne, List.singleton_append,
      List.takeWhile_cons_of_neg (by simp), List.append_nil]
  have hdrop : (sym.name ++ [0] ++ rest).dropWhile (· ≠ 0) = 0 :: rest := by
    rw [List.append_assoc, List.dropWhile_append_of_pos hne, List.singleton_append,
      List.dropWhile_cons_of_neg (by simp)]
  simp only [binder, hop, hk, htake, hdrop, List.tail_cons, goOn]

theorem executes_setLocation {b : BindEntry} (hseg : b.segIdx < 16) :
    binder.Executes st (Context.setLocation b) []
      { st with segIdx := b.segIdx, offset := (b.offset % 2 ^ 64).toNat } := by
  obtain ⟨hop, hk⟩ := opcode_or (by decide : 7 < 16) hseg
  have hmod : (b.offset % 2 ^ 64).toNat % 2 ^ 64 = (b.offset % 2 ^ 64).toNat := by omega
  refine .of_exec fun rest => ?_
  simp only [binder, hop, hk, encodeUleb, Uleb.decode_encode_append, Option.map_some, goOn, hmod]

theorem executes_setAddend {addend : ℤ} (hlo : -2 ^ 63 ≤ addend) (hhi : addend < 2 ^ 63) :
    binder.Executes st (Context.setAddend addend) [] { st with addend := addend } := by
  have hop : (0x60 : Byte).val / 16 = 6 := by decide
  have hmod : addend.bmod (2 ^ 64) = addend :=
    Int.bmod_eq_of_le (by push_cast; omega) (by push_cast; omega)
  refine .of_exec fun rest => ?_
  simp only [binder, hop, encodeSleb, Sleb.decode_encode_append, Option.map_some, goOn, hmod]

theorem executes_bind : binder.Executes st [0x90] [st] (st.addAddr 8) := by
  have hop : (0x90 : Byte).val / 16 = 9 := by decide
  refine .of_exec fun rest => ?_
  simp only [binder, hop, List.nil_append, times, BindRegisters.bind]

end Opcodes

namespace Context

variable {ctx : Context}

def Holds (ctx : Context) (last : Option BindEntry) (st : BindRegisters) : Prop :=
  st.type = 1 ∧ ∀ l ∈ last, st.ordinal = ctx.getDylibIdx l.sym ∧ st.name = l.sym.name ∧
    st.flags = Link.symbolFlags l.sym ∧ st.addend = l.addend

theorem executes_bindOpcodes {last : Option BindEntry} {st : BindRegisters} {b : BindEntry}
    (hholds : ctx.Holds last st) (hb : ctx.InRange b) (hapart : ∀ l ∈ last, Apart l b) :
    binder.Executes st (ctx.bindOpcodes last b) [ctx.bound b] ((ctx.bound b).addAddr 8) := by
  obtain ⟨htype, hlast⟩ := hholds
  obtain ⟨hseg, hord, hlo, hhi⟩ := hb
  obtain ⟨type, ordinal, name, flags, segIdx, offset, addend⟩ := st
  simp only at htype hlast
  subst htype
  have hordinal : binder.Executes ⟨1, ordinal, name, flags, segIdx, offset, addend⟩
      (if last.any fun l => b.sym.file = l.sym.file then []
        else ordinalOpcode (ctx.getDylibIdx b.sym)) []
      ⟨1, ctx.getDylibIdx b.sym, name, flags, segIdx, offset, addend⟩ := by
    refine .of_ite (fun hsame => ?_) fun _ => executes_ordinalOpcode hord
    obtain ⟨l, hl, hfile⟩ := (Option.any_eq_true _ _).mp hsame
    rw [(hlast l hl).1, getDylibIdx, getDylibIdx, of_decide_eq_true hfile]
  have hsymbol : binder.Executes
      ⟨1, ctx.getDylibIdx b.sym, name, flags, segIdx, offset, addend⟩
      (if last.any fun l => l.sym.name = b.sym.name ∧ l.sym.isWeak = b.sym.isWeak then []
        else setSymbol b.sym) []
      ⟨1, ctx.getDylibIdx b.sym, b.sym.name, Link.symbolFlags b.sym, segIdx, offset, addend⟩ := by
    refine .of_ite (fun hsame => ?_) fun _ => executes_setSymbol b.sym
    obtain ⟨l, hl, hsym⟩ := (Option.any_eq_true _ _).mp hsame
    obtain ⟨hname, hweak⟩ := of_decide_eq_true hsym
    rw [(hlast l hl).2.1, (hlast l hl).2.2.1, hname, Link.symbolFlags, Link.symbolFlags, hweak]
  have hlocation : binder.Executes
      ⟨1, ctx.getDylibIdx b.sym, b.sym.name, Link.symbolFlags b.sym, segIdx, offset, addend⟩
      (if last.any fun l => l.segIdx = b.segIdx ∧ l.offset = b.offset then []
        else setLocation b) []
      ⟨1, ctx.getDylibIdx b.sym, b.sym.name, Link.symbolFlags b.sym, b.segIdx,
        (b.offset % 2 ^ 64).toNat, addend⟩ := by
    refine .of_ite (fun hsame => ?_) fun _ => executes_setLocation hseg
    obtain ⟨l, hl, hloc⟩ := (Option.any_eq_true _ _).mp hsame
    exact absurd (of_decide_eq_true hloc) (hapart l hl)
  have haddend : binder.Executes
      ⟨1, ctx.getDylibIdx b.sym, b.sym.name, Link.symbolFlags b.sym, b.segIdx,
        (b.offset % 2 ^ 64).toNat, addend⟩
      (if last.any fun l => l.addend = b.addend then [] else setAddend b.addend) []
      (ctx.bound b) := by
    refine .of_ite (fun hsame => ?_) fun _ => executes_setAddend hlo hhi
    obtain ⟨l, hl, hadd⟩ := (Option.any_eq_true _ _).mp hsame
    rw [(hlast l hl).2.2.2, of_decide_eq_true hadd]
    rfl
  exact (((hordinal.trans hsymbol).trans hlocation).trans haddend).trans executes_bind

theorem holds_bound (b : BindEntry) : ctx.Holds (some b) ((ctx.bound b).addAddr 8) := by
  refine ⟨rfl, fun l hl => ?_⟩
  obtain rfl := Option.mem_some.mp hl
  exact ⟨rfl, rfl, rfl, rfl⟩

theorem executes_encodeBinds {last : Option BindEntry} {st : BindRegisters}
    {bindings : List BindEntry} (hholds : ctx.Holds last st)
    (hrange : ∀ b ∈ bindings, ctx.InRange b) (hlast : ∀ l ∈ last, ∀ b ∈ bindings, Apart l b)
    (hapart : bindings.Pairwise Apart) :
    ∃ st', binder.Executes st (ctx.encodeBinds last bindings) (bindings.map ctx.bound) st' := by
  induction bindings generalizing last st with
  | nil => exact ⟨st, .refl st⟩
  | cons b bindings ih =>
    obtain ⟨hb, hrange⟩ := List.forall_mem_cons.mp hrange
    obtain ⟨hnext, hapart⟩ := List.pairwise_cons.mp hapart
    have hfirst := executes_bindOpcodes hholds hb fun l hl => hlast l hl b List.mem_cons_self
    obtain ⟨st', hrest⟩ := ih (holds_bound b) hrange
      (fun l hl => by rwa [← Option.mem_some.mp hl]) hapart
    exact ⟨st', hfirst.trans hrest⟩

/-- For every list of bindings with different locations, the loader makes each of
them once and nothing else. -/
theorem interpret_encodeBindEntries {bindings : List BindEntry}
    (hrange : ∀ b ∈ bindings, ctx.InRange b) (hapart : bindings.Pairwise Apart) :
    ∃ done n, binder.interpret {} (ctx.encodeBindEntries bindings) =
        some (done, List.replicate n 0) ∧
      n < 8 ∧ done.Perm (bindings.map ctx.bound) := by
  have hperm := List.perm_insertionSort Precedes bindings
  have hstart : ctx.Holds none { type := 1 } :=
    ⟨rfl, fun _ h => absurd h (Option.not_mem_none _)⟩
  have hsorted : ∀ b ∈ bindings.insertionSort Precedes, ctx.InRange b := fun b hb =>
    hrange b (hperm.mem_iff.mp hb)
  obtain ⟨st, hexec⟩ := executes_encodeBinds hstart hsorted
    (fun _ h => absurd h (Option.not_mem_none _))
    ((hperm.pairwise_iff fun h hba => h ⟨hba.1.symm, hba.2.symm⟩).mpr hapart)
  have htype := @executes_type {} (Fin.ofNat 256 (0x50 ||| 1)) (by decide)
  set buf := Fin.ofNat 256 (0x50 ||| 1) ::
    (ctx.encodeBinds none (bindings.insertionSort Precedes) ++ [0]) with hbuf
  have hbytes : ctx.encodeBindEntries bindings =
      [Fin.ofNat 256 (0x50 ||| 1)] ++ ctx.encodeBinds none (bindings.insertionSort Precedes) ++
        0 :: RebaseOpcodes.padding buf := by
    simp only [encodeBindEntries, hbuf, List.cons_append, List.append_assoc, List.nil_append]
  refine ⟨_, (buf.length + 7) / 8 * 8 - buf.length, ?_, by omega, hperm.map ctx.bound⟩
  rw [hbytes]
  exact (htype.trans hexec).interpret_eq rfl

end Context

def exampleSym (name : Byte) (dylib : ℕ) (h : (0 : Byte) ∉ [name]) : StubSymbol where
  name := [name]
  isWeak := name = 0x62
  file := some (.dylib dylib)
  name_nul := h

/-- Two bindings of one symbol with different addends, and a weak symbol of a
dylib with a large ordinal. -/
theorem interpret_encodeBindEntries_example :
    ∃ done n, binder.interpret {}
        ((⟨false, fun d => 16 * d + 1⟩ : Context).encodeBindEntries
          [⟨exampleSym 0x62 1 (by decide), 2, 0, 0⟩, ⟨exampleSym 0x61 0 (by decide), 2, 16, -65⟩,
            ⟨exampleSym 0x61 0 (by decide), 2, 8, 0⟩]) =
          some (done, List.replicate n 0) ∧
      n < 8 ∧ done.Perm
        [⟨1, 17, [0x62], 1, 2, 0, 0⟩, ⟨1, 1, [0x61], 0, 2, 16, -65⟩, ⟨1, 1, [0x61], 0, 2, 8, 0⟩] :=
  Context.interpret_encodeBindEntries (by decide) (by decide)

end Mold.MachO.BindOpcodes
