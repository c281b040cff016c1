import Mold.MachO.LazyBinding
import Mathlib.Data.List.TakeWhile

/-!
# The parts of lazy binding agree

The record of a stub is interpreted opcode by opcode.  The tables have entries of
one length, so the entry of a stub is at the multiple of the length by its
number.  What is left are the fields with fewer bits than an address or an
offset: the parts agree exactly if everything fits into them.
-/

namespace Mold.MachO.LazyBinding

open Mold.Lib Mold.Lib.BitField Mold.Common Mold.MachO.Resolver

section Opcodes

variable {fuel : ℕ} {st : BindState} {b : Byte} {bytes : List Byte}

theorem interpret_imm (h : b.val / 16 = 1) :
    interpret (fuel + 1) st (b :: bytes) =
      interpret fuel { st with ordinal := some (b.val % 16 : ℕ) } bytes := by
  simp only [interpret, h]

theorem interpret_uleb (h : b.val / 16 = 2) (n : ℕ) :
    interpret (fuel + 1) st (b :: (Uleb.encode n ++ bytes)) =
      interpret fuel { st with ordinal := some (n : ℤ) } bytes := by
  simp only [interpret, h, Uleb.decode_encode_append]

theorem interpret_special (h : b.val / 16 = 3) :
    interpret (fuel + 1) st (b :: bytes) =
      interpret fuel { st with ordinal := some (specialOrdinal b.val) } bytes := by
  simp only [interpret, h]

theorem interpret_name (h : b.val / 16 = 4) {name : List Byte} (hname : (0 : Byte) ∉ name) :
    interpret (fuel + 1) st (b :: (name ++ 0 :: bytes)) =
      interpret fuel { st with name := some name, flags := b.val % 16 } bytes := by
  have hne : ∀ c ∈ name, decide (c ≠ 0) = true :=
    fun c hc => decide_eq_true (ne_of_mem_of_not_mem hc hname)
  have htake : (name ++ 0 :: bytes).takeWhile (· ≠ 0) = name := by
    rw [List.takeWhile_append_of_pos hne, List.takeWhile_cons_of_neg (by simp), List.append_nil]
  have hdrop : (name ++ 0 :: bytes).dropWhile (· ≠ 0) = 0 :: bytes := by
    rw [List.dropWhile_append_of_pos hne, List.dropWhile_cons_of_neg (by simp)]
  simp only [interpret, h, htake, hdrop, List.tail_cons]

theorem interpret_place (h : b.val / 16 = 7) (n : ℕ) :
    interpret (fuel + 1) st (b :: (Uleb.encode n ++ bytes)) =
      interpret fuel { st with place := some (b.val % 16, n) } bytes := by
  simp only [interpret, h, Uleb.decode_encode_append]

theorem interpret_bind (h : b.val / 16 = 9) :
    interpret (fuel + 1) st (b :: bytes) = (interpret fuel st bytes).map (st :: ·) := by
  simp only [interpret, h]

end Opcodes

def loadedOrdinal (idx : ℤ) : ℤ :=
  if idx < 0 then specialOrdinal (48 + (idx % 16).toNat) else idx

theorem loadedOrdinal_eq_iff {idx : ℤ} : loadedOrdinal idx = idx ↔ -16 < idx := by
  rw [loadedOrdinal, specialOrdinal]
  split
  · split <;> omega
  · omega

theorem interpret_ordinalOpcode (fuel : ℕ) (st : BindState) (idx : ℤ) (bytes : List Byte) :
    interpret (fuel + 1) st (ordinalOpcode idx ++ bytes) =
      interpret fuel { st with ordinal := some (loadedOrdinal idx) } bytes := by
  rw [ordinalOpcode, loadedOrdinal]
  split
  · have hval : (Fin.ofNat 256 (0x30 + (idx % 16).toNat)).val = 48 + (idx % 16).toNat := by
      rw [Fin.val_ofNat]
      omega
    rw [List.singleton_append, interpret_special (by omega), hval]
  · split
    · have hval : (Fin.ofNat 256 (0x10 + idx.toNat)).val = 16 + idx.toNat := by
        rw [Fin.val_ofNat]
        omega
      have hmod : ((16 + idx.toNat) % 16 : ℕ) = idx := by omega
      rw [List.singleton_append, interpret_imm (by omega), hval, hmod]
    · have hnat : (idx.toNat : ℤ) = idx := Int.toNat_of_nonneg (by omega)
      rw [List.cons_append, interpret_uleb (by decide), hnat]

namespace Link

variable {link : Link}

theorem interpret_bindRecord (fuel : ℕ) (x : StubSymbol × ℕ) (rest : List Byte) :
    interpret (fuel + 5) {} (link.bindRecord x ++ rest) =
      some [{ ordinal := some (loadedOrdinal (link.getDylibIdx x.1)),
              name := some x.1.name, flags := symbolFlags x.1,
              place := some (link.dataSegIdx, link.slotOffset x.2) }] := by
  have hflags : symbolFlags x.1 < 16 := by
    rw [symbolFlags]
    split <;> decide
  obtain ⟨hop, hk⟩ := opcode_or (by decide : 4 < 16) hflags
  obtain ⟨hop', hk'⟩ := opcode_or (by decide : 7 < 16) link.dataSegIdx_lt
  rw [bindRecord, List.append_assoc, interpret_ordinalOpcode, List.cons_append,
    List.append_assoc, List.cons_append, List.cons_append, List.append_assoc, writeUleb,
    interpret_name hop x.1.name_nul, interpret_place hop', List.cons_append,
    interpret_bind (by decide), List.cons_append, interpret_done (by decide), hk, hk']
  rfl

theorem bindLoop_spec (syms : List (StubSymbol × ℕ)) (bindOffsets : List ℕ)
    (contents : List Byte) :
    link.bindLoop syms (bindOffsets, contents) =
      (bindOffsets ++ (List.range syms.length).map fun i =>
          (contents.length + ((syms.take i).flatMap link.bindRecord).length) % 2 ^ 32,
        contents ++ syms.flatMap link.bindRecord) := by
  induction syms generalizing bindOffsets contents with
  | nil => simp [bindLoop]
  | cons sym syms ih =>
    rw [bindLoop, ih, List.length_cons, List.range_succ_eq_map, List.map_cons, List.map_map]
    simp only [List.append_assoc, List.singleton_append, List.flatMap_cons,
      List.take_zero, List.flatMap_nil, List.length_nil, Nat.add_zero,
      List.length_append]
    congr 3
    refine List.map_congr_left fun i _ => ?_
    simp only [Function.comp_apply, List.take_succ_cons, List.flatMap_cons,
      List.length_append, Nat.add_assoc]

variable {i : ℕ} {sym : StubSymbol}

theorem getElem?_numbered (h : link.syms[i]? = some sym) : link.numbered[i]? = some (sym, i) := by
  rw [numbered, List.getElem?_zipIdx, h, Option.map_some, Nat.zero_add]

theorem getElem?_bindOffsets (h : link.syms[i]? = some sym) :
    link.bindOffsets[i]? = some (link.recordOffset i % 2 ^ 32) := by
  have hi := (List.getElem?_eq_some_iff.mp (getElem?_numbered h)).1
  rw [bindOffsets, bindLoop_spec, List.nil_append, List.getElem?_map,
    List.getElem?_range hi, Option.map_some, List.length_nil, Nat.zero_add]
  rfl

theorem exists_drop_lazyBind (h : link.syms[i]? = some sym) :
    ∃ rest, link.lazyBind.drop (link.recordOffset i) = link.bindRecord (sym, i) ++ rest := by
  obtain ⟨hi, hget⟩ := List.getElem?_eq_some_iff.mp (getElem?_numbered h)
  have hcontents : (link.bindLoop link.numbered ([], [])).2 =
      link.numbered.flatMap link.bindRecord := by
    rw [bindLoop_spec]
    exact List.nil_append _
  have hle : link.recordOffset i ≤ (link.numbered.flatMap link.bindRecord).length := by
    conv_rhs => rw [← List.take_append_drop i link.numbered, List.flatMap_append,
      List.length_append]
    exact Nat.le_add_right _ _
  rw [lazyBind, hcontents, List.drop_append_of_le_length hle, recordOffset,
    drop_flatMap, List.drop_eq_getElem_cons hi, hget, List.flatMap_cons,
    List.append_assoc]
  exact ⟨_, rfl⟩

theorem interpretAt_recordOffset (h : link.syms[i]? = some sym) :
    interpretAt link.lazyBind (link.recordOffset i) =
      some [{ ordinal := some (loadedOrdinal (link.getDylibIdx sym)),
              name := some sym.name, flags := symbolFlags sym,
              place := some (link.dataSegIdx, link.slotOffset i) }] := by
  obtain ⟨rest, hrest⟩ := exists_drop_lazyBind h
  have hlen : 5 ≤ (link.bindRecord (sym, i) ++ rest).length := by
    simp only [bindRecord, List.length_append, List.length_cons, List.length_nil]
    have hpos := List.length_pos_of_ne_nil (ordinalOpcode_ne_nil (link.getDylibIdx sym))
    omega
  obtain ⟨fuel, hfuel⟩ := Nat.exists_eq_add_of_le' hlen
  rw [interpretAt, hrest, hfuel, interpret_bindRecord]

/-! ## Tables -/

@[simp] theorem length_rel32 (x : ℤ) : (rel32 x).length = 4 := length_le 4 _

theorem length_stub (x : StubSymbol × ℕ) : (link.stub x).length = 6 := by
  simp [stub]

theorem length_stubHelperEntry (x : StubSymbol × ℕ) : (link.stubHelperEntry x).length = 10 := by
  simp [stubHelperEntry]

theorem length_stubHelperHeader : link.stubHelperHeader.length = 16 := by
  simp [stubHelperHeader]

theorem toSigned_rel32 (x : ℤ) :
    -2 ^ 31 ≤ toSigned 32 (readLe (rel32 x)) ∧ toSigned 32 (readLe (rel32 x)) < 2 ^ 31 ∧
      toSigned 32 (readLe (rel32 x)) % 2 ^ 32 = x % 2 ^ 32 := by
  have hlt : (x % 2 ^ 32).toNat < 256 ^ 4 := by omega
  rw [rel32, readLe_le_of_lt hlt, toSigned]
  split <;> omega

theorem jumpSlot_stub_iff (h : link.syms[i]? = some sym) :
    jumpSlot (link.stubsAddr + 6 * i) ((link.stubs.drop (6 * i)).take 6) =
        some (((link.lazySymbolPtrAddr + 8 * i : ℕ) : ℤ) % 2 ^ 64) ↔
      ∃ disp : ℤ, -2 ^ 31 ≤ disp ∧ disp < 2 ^ 31 ∧
        (link.stubsAddr + 6 * i + 6 + disp) % 2 ^ 64 =
          (link.lazySymbolPtrAddr + 8 * i) % 2 ^ 64 := by
  have hcode : (link.stubs.drop (6 * i)).take 6 = link.stub (sym, i) :=
    take_drop_flatMap_const length_stub (getElem?_numbered h)
  have htake : (rel32 ((link.lazySymbolPtrAddr + 8 * i : ℕ) -
      (link.stubsAddr + i * 6 : ℕ) - 6)).take 4 = _ :=
    List.take_of_length_le (Nat.le_of_eq (length_rel32 _))
  obtain ⟨hle, hlt, hmod⟩ := toSigned_rel32
    ((link.lazySymbolPtrAddr + 8 * i : ℕ) - (link.stubsAddr + i * 6 : ℕ) - 6)
  rw [hcode, stub, jumpSlot]
  simp only [List.cons_append, List.nil_append, List.take_succ_cons, List.take_zero,
    List.drop_succ_cons, List.drop_zero, if_true, htake, Option.some_inj]
  push_cast at *
  constructor
  · intro heq
    exact ⟨_, hle, hlt, heq⟩
  · rintro ⟨disp, hdisp, hdisp', heq⟩
    omega

theorem pushed_entry (h : link.syms[i]? = some sym) :
    pushed ((link.stubHelper.drop (16 + 10 * i)).take 10) =
      some (toSigned 32 (link.recordOffset i % 2 ^ 32)) := by
  have hcode : (link.stubHelper.drop (16 + 10 * i)).take 10 = link.stubHelperEntry (sym, i) := by
    rw [stubHelper, ← List.drop_drop, drop_append_of_length _ length_stubHelperHeader]
    exact take_drop_flatMap_const length_stubHelperEntry (getElem?_numbered h)
  have hoffset : link.bindOffsets.getD i 0 = link.recordOffset i % 2 ^ 32 := by
    rw [List.getD_eq_getElem?_getD, getElem?_bindOffsets h, Option.getD_some]
  have hlt : link.recordOffset i % 2 ^ 32 < 256 ^ 4 := Nat.mod_lt _ (by decide)
  rw [hcode, stubHelperEntry, hoffset, pushed]
  simp only [List.take_succ_cons, List.take_zero, List.drop_succ_cons, List.drop_zero,
    if_true, take_append_of_length _ (length_le 4 _), readLe_le_of_lt hlt]

theorem lazySymbolPtr_slot (h : link.syms[i]? = some sym) :
    readLe ((link.lazySymbolPtr.drop (8 * i)).take 8) =
      (link.stubHelperAddr + (16 + 10 * i)) % 2 ^ 64 := by
  rw [lazySymbolPtr, take_drop_flatMap_const (fun x => length_le 8 _)
    (getElem?_numbered h), readLe_le, Nat.add_assoc, show 256 ^ 8 = 2 ^ 64 from rfl]

theorem agrees_iff_fits (h : link.syms[i]? = some sym) : link.Agrees i sym ↔ link.Fits i sym := by
  constructor
  · intro hagrees
    have hjumps := hagrees.stub_jumps
    have hpushes := hagrees.entry_pushes
    have hbinds := hagrees.record_binds
    rw [pushed_entry h, Option.some_inj, toSigned] at hpushes
    rw [interpretAt_recordOffset h, Option.some_inj, List.cons.injEq,
      BindState.mk.injEq, Option.some_inj] at hbinds
    constructor
    · exact (jumpSlot_stub_iff h).mp hjumps
    · split at hpushes <;> omega
    · exact loadedOrdinal_eq_iff.mp hbinds.1.1
  · intro hfits
    have hoffset := hfits.offset_lt
    have hmod : link.recordOffset i % 2 ^ 32 = link.recordOffset i :=
      Nat.mod_eq_of_lt (by omega)
    constructor
    · exact (jumpSlot_stub_iff h).mpr hfits.reach
    · exact lazySymbolPtr_slot h
    · rw [getElem?_bindOffsets h, hmod]
    · rw [pushed_entry h, hmod, toSigned, if_pos hoffset]
    · rw [interpretAt_recordOffset h, loadedOrdinal_eq_iff.mpr hfits.ordinal]

/-- All parts of lazy binding agree exactly if the distances, the offsets and the
ordinals fit into their fields. -/
theorem agree_iff_fits (link : Link) :
    link.Agree ↔ ∀ (i : ℕ) sym, link.syms[i]? = some sym → link.Fits i sym := by
  constructor
  · intro hagree i sym h
    exact (agrees_iff_fits h).mp (hagree i sym h)
  · intro hfits i sym h
    exact (agrees_iff_fits h).mpr (hfits i sym h)

end Link

/-- A program with one stub, at the beginning of `__TEXT`, and with `__DATA` at the
given distance from it. -/
def oneStub (distance : ℕ) : Link where
  syms := [{ name := [95, 102], isWeak := false, file := some (.dylib 0),
             name_nul := by decide }]
  flatNamespace := false
  dylibIdx _ := 1
  stubsAddr := 2 ^ 32 + 4096
  stubHelperAddr := 2 ^ 32 + 8192
  lazySymbolPtrAddr := 2 ^ 32 + 4096 + distance
  dataVmaddr := 2 ^ 32 + 4096 + distance
  dataSegIdx := 3
  dyldPrivateAddr := 2 ^ 32 + 4104 + distance
  stubBinderGotAddr := 2 ^ 32 + distance
  dataSegIdx_lt := by decide
  dataVmaddr_le := Nat.le_refl _

/-- Behind 2 GiB the slot is not within reach of the stub. -/
theorem oneStub_not_agree : ¬ (oneStub (2 ^ 31 + 4096)).Agree := by
  intro hagree
  obtain ⟨disp, hle, hlt, heq⟩ :=
    ((Link.agrees_iff_fits rfl).mp (hagree 0 _ rfl)).reach
  simp only [oneStub] at heq
  omega

end Mold.MachO.LazyBinding
