import Mold.MachO.CompactUnwind

/-!
# Addresses of unwind records

Each relocation sets one field of one record, and the last one for a field stays.  For
a function that is given by its address, the difference of the addresses is taken the
other way round, and for a symbol the place of the symbol in its subsection is left out.
-/

namespace Mold.MachO.CompactUnwind

open Mold.MachO.Subsections

variable {σ τ : Type*}

namespace UnwindSection

variable {file : UnwindSection σ τ} {rels : List MachRel} {r : MachRel} {i : ℕ}
  {rec : UnwindRecord σ τ} {recs recs' : List (UnwindRecord σ τ)}

theorem entrySize_pos (file : UnwindSection σ τ) : 0 < file.entrySize :=
  Nat.lt_of_lt_of_le (by decide) (Nat.le_add_left 8 _)

theorem lsdaOffset_pos (file : UnwindSection σ τ) : 0 < file.lsdaOffset :=
  Nat.lt_of_lt_of_le (by decide) (Nat.le_add_left 8 _)

theorem lsdaOffset_lt (file : UnwindSection σ τ) : file.lsdaOffset < file.entrySize := by
  have hword : 0 < file.wordSize := by
    rw [wordSize]
    split <;> decide
  rw [lsdaOffset, entrySize]
  omega

theorem personalityOffset_lt (file : UnwindSection σ τ) :
    file.personalityOffset < file.lsdaOffset := by
  have hword : 0 < file.wordSize := by
    rw [wordSize]
    split <;> decide
  rw [lsdaOffset, personalityOffset]
  omega

theorem relocate_cases (h : file.relocate recs r = some recs') :
    (∃ x, r.offset.toNat % file.entrySize = 0 ∧
      file.functionOf r (r.offset.toNat / file.entrySize) = some x ∧
      recs' = recs.modify (r.offset.toNat / file.entrySize) fun dst =>
        { dst with subsec := some x.1, inputOffset := x.2 }) ∨
    (∃ sym, r.offset.toNat % file.entrySize = file.personalityOffset ∧
      recs' = recs.modify (r.offset.toNat / file.entrySize) fun dst =>
        { dst with personality := some sym }) ∨
    (∃ x, r.offset.toNat % file.entrySize = file.lsdaOffset ∧ file.lsdaOf r = some x ∧
      recs' = recs.modify (r.offset.toNat / file.entrySize) fun dst =>
        { dst with lsda := x.1, lsdaOffset := x.2 }) := by
  simp only [relocate] at h
  split_ifs at h with _ _ hfunction hpersonality hlsda
  · obtain ⟨x, hx, rfl⟩ := Option.map_eq_some_iff.mp h
    exact .inl ⟨x, hfunction, hx, rfl⟩
  · obtain ⟨sym, -, rfl⟩ := Option.map_eq_some_iff.mp h
    exact .inr (.inl ⟨sym, hpersonality, rfl⟩)
  · obtain ⟨x, hx, rfl⟩ := Option.map_eq_some_iff.mp h
    exact .inr (.inr ⟨x, hlsda, hx, rfl⟩)

theorem relAt_concat {field : ℕ} (hfield : field < file.entrySize) :
    file.relAt (rels ++ [r]) i field =
      if r.offset.toNat / file.entrySize = i ∧ r.offset.toNat % file.entrySize = field then
        some r
      else file.relAt rels i field := by
  have hiff : r.offset.toNat = i * file.entrySize + field ↔
      r.offset.toNat / file.entrySize = i ∧ r.offset.toNat % file.entrySize = field := by
    rw [Nat.mul_comm, Nat.add_comm]
    constructor
    · intro h
      rw [h, Nat.add_mul_div_left _ _ file.entrySize_pos, Nat.div_eq_of_lt hfield,
        Nat.add_mul_mod_self_left, Nat.mod_eq_of_lt hfield]
      exact ⟨Nat.zero_add i, rfl⟩
    · rintro ⟨rfl, rfl⟩
      exact (Nat.mod_add_div _ _).symm
  rw [relAt, List.reverse_concat, List.find?_cons]
  by_cases h : r.offset.toNat = i * file.entrySize + field
  · rw [if_pos (hiff.mp h), beq_iff_eq.mpr h]
  · rw [if_neg (mt hiff.mpr h), beq_false_of_ne h]
    rfl

theorem offset_of_relAt {field : ℕ} (h : file.relAt rels i field = some r) :
    r.offset.toNat = i * file.entrySize + field := by
  have hr := List.find?_some h
  exact beq_iff_eq.mp hr

/-! ## What the records are made of -/

structure FieldsAt (file : UnwindSection σ τ) (rels : List MachRel) (i : ℕ)
    (rec : UnwindRecord σ τ) : Prop where
  encoding : rec.encoding = file.encoding i
  function : ∀ r, file.relAt rels i 0 = some r → ∃ x, file.functionOf r i = some x ∧
    rec.subsec = some x.1 ∧ rec.inputOffset = x.2
  noFunction : file.relAt rels i 0 = none → rec.subsec = none
  lsda : ∀ r, file.relAt rels i file.lsdaOffset = some r → ∃ x, file.lsdaOf r = some x ∧
    rec.lsda = x.1 ∧ rec.lsdaOffset = x.2
  noLsda : file.relAt rels i file.lsdaOffset = none → rec.lsda = none

section Step

variable (h : file.FieldsAt rels i rec)
include h

theorem FieldsAt.other
    (hfunction : ¬ (r.offset.toNat / file.entrySize = i ∧ r.offset.toNat % file.entrySize = 0))
    (hlsda : ¬ (r.offset.toNat / file.entrySize = i ∧
      r.offset.toNat % file.entrySize = file.lsdaOffset)) :
    file.FieldsAt (rels ++ [r]) i rec := by
  have hzero : file.relAt (rels ++ [r]) i 0 = file.relAt rels i 0 := by
    rw [relAt_concat file.entrySize_pos, if_neg hfunction]
  have htwo : file.relAt (rels ++ [r]) i file.lsdaOffset = file.relAt rels i file.lsdaOffset := by
    rw [relAt_concat file.lsdaOffset_lt, if_neg hlsda]
  refine ⟨h.encoding, ?_, ?_, ?_, ?_⟩
  · rw [hzero]
    exact h.function
  · rw [hzero]
    exact h.noFunction
  · rw [htwo]
    exact h.lsda
  · rw [htwo]
    exact h.noLsda

theorem FieldsAt.setFunction {x : σ × UInt32} (hi : r.offset.toNat / file.entrySize = i)
    (hfield : r.offset.toNat % file.entrySize = 0) (hx : file.functionOf r i = some x) :
    file.FieldsAt (rels ++ [r]) i { rec with subsec := some x.1, inputOffset := x.2 } := by
  have hzero : file.relAt (rels ++ [r]) i 0 = some r := by
    rw [relAt_concat file.entrySize_pos, if_pos ⟨hi, hfield⟩]
  have htwo : file.relAt (rels ++ [r]) i file.lsdaOffset = file.relAt rels i file.lsdaOffset := by
    rw [relAt_concat file.lsdaOffset_lt, if_neg]
    rintro ⟨-, hlsda⟩
    exact file.lsdaOffset_pos.ne (hfield.symm.trans hlsda)
  refine ⟨h.encoding, ?_, ?_, ?_, ?_⟩
  · rw [hzero]
    rintro _ ⟨⟩
    exact ⟨x, hx, rfl, rfl⟩
  · rw [hzero]
    exact fun hnone => absurd hnone (Option.some_ne_none r)
  · rw [htwo]
    exact h.lsda
  · rw [htwo]
    exact h.noLsda

theorem FieldsAt.setLsda {x : Option σ × UInt32} (hi : r.offset.toNat / file.entrySize = i)
    (hfield : r.offset.toNat % file.entrySize = file.lsdaOffset)
    (hx : file.lsdaOf r = some x) :
    file.FieldsAt (rels ++ [r]) i { rec with lsda := x.1, lsdaOffset := x.2 } := by
  have htwo : file.relAt (rels ++ [r]) i file.lsdaOffset = some r := by
    rw [relAt_concat file.lsdaOffset_lt, if_pos ⟨hi, hfield⟩]
  have hzero : file.relAt (rels ++ [r]) i 0 = file.relAt rels i 0 := by
    rw [relAt_concat file.entrySize_pos, if_neg]
    rintro ⟨-, hfunction⟩
    exact file.lsdaOffset_pos.ne (hfunction.symm.trans hfield)
  refine ⟨h.encoding, ?_, ?_, ?_, ?_⟩
  · rw [hzero]
    exact h.function
  · rw [hzero]
    exact h.noFunction
  · rw [htwo]
    rintro _ ⟨⟩
    exact ⟨x, hx, rfl, rfl⟩
  · rw [htwo]
    exact fun hnone => absurd hnone (Option.some_ne_none r)

end Step

def Tracks (file : UnwindSection σ τ) (rels : List MachRel) (recs : List (UnwindRecord σ τ)) :
    Prop :=
  recs.length = file.numEntries ∧ ∀ i rec, recs[i]? = some rec → file.FieldsAt rels i rec

theorem tracks_initial (file : UnwindSection σ τ) : file.Tracks [] file.initial := by
  refine ⟨by rw [initial, List.length_map, List.length_range], fun i rec hrec => ?_⟩
  rw [initial, List.getElem?_map, Option.map_eq_some_iff] at hrec
  obtain ⟨j, hj, rfl⟩ := hrec
  obtain ⟨-, rfl⟩ := List.getElem?_eq_some_iff.mp hj
  rw [List.getElem_range]
  exact ⟨rfl, fun r hr => absurd hr (by simp [relAt]), fun _ => rfl,
    fun r hr => absurd hr (by simp [relAt]), fun _ => rfl⟩

theorem Tracks.relocate (h : file.Tracks rels recs) (hstep : file.relocate recs r = some recs') :
    file.Tracks (rels ++ [r]) recs' := by
  obtain ⟨hlen, hfields⟩ := h
  rcases relocate_cases hstep with
    ⟨x, hfield, hx, rfl⟩ | ⟨sym, hfield, rfl⟩ | ⟨x, hfield, hx, rfl⟩
  · refine ⟨by rw [List.length_modify, hlen], fun i rec' hrec' => ?_⟩
    rw [List.getElem?_modify, Option.map_eq_map, Option.map_eq_some_iff] at hrec'
    obtain ⟨rec, hrec, rfl⟩ := hrec'
    split
    case isTrue hi => exact (hfields i rec hrec).setFunction hi hfield (hi ▸ hx)
    case isFalse hi => exact (hfields i rec hrec).other (fun h => hi h.1) fun h => hi h.1
  · have hpersonality := file.personalityOffset_lt
    have hzero : r.offset.toNat % file.entrySize ≠ 0 := by
      rw [hfield, personalityOffset]
      omega
    have htwo : r.offset.toNat % file.entrySize ≠ file.lsdaOffset := by omega
    refine ⟨by rw [List.length_modify, hlen], fun i rec' hrec' => ?_⟩
    rw [List.getElem?_modify, Option.map_eq_map, Option.map_eq_some_iff] at hrec'
    obtain ⟨rec, hrec, rfl⟩ := hrec'
    have hother := (hfields i rec hrec).other (r := r) (fun h => hzero h.2) fun h => htwo h.2
    split
    case isTrue hi =>
      exact ⟨hother.encoding, hother.function, hother.noFunction, hother.lsda, hother.noLsda⟩
    case isFalse hi => exact hother
  · refine ⟨by rw [List.length_modify, hlen], fun i rec' hrec' => ?_⟩
    rw [List.getElem?_modify, Option.map_eq_map, Option.map_eq_some_iff] at hrec'
    obtain ⟨rec, hrec, rfl⟩ := hrec'
    split
    case isTrue hi => exact (hfields i rec hrec).setLsda hi hfield hx
    case isFalse hi => exact (hfields i rec hrec).other (fun h => hi h.1) fun h => hi h.1

theorem tracks_foldlM (h : rels.foldlM file.relocate file.initial = some recs) :
    file.Tracks rels recs := by
  induction rels using List.reverseRecOn generalizing recs with
  | nil =>
    obtain rfl := Option.some.inj h
    exact file.tracks_initial
  | append_singleton rels r ih =>
    rw [List.foldlM_append] at h
    obtain ⟨mid, hmid, hlast⟩ := Option.bind_eq_some_iff.mp h
    rw [List.foldlM_cons] at hlast
    obtain ⟨last, hstep, hend⟩ := Option.bind_eq_some_iff.mp hlast
    obtain rfl := Option.some.inj hend
    exact (ih hmid).relocate hstep

theorem tracks_relocated (h : file.relocated = some recs) : file.Tracks file.rels recs := by
  rw [relocated] at h
  split at h
  case isTrue => exact absurd h (by simp)
  case isFalse => exact tracks_foldlM h

theorem add_sub_eq_iff (a b : UInt32) : a + (a - b) = b ↔ (b - a).toNat % 2 ^ 31 = 0 := by
  rw [← UInt32.toNat_inj, UInt32.toNat_add, UInt32.toNat_sub, UInt32.toNat_sub]
  have ha := a.toNat_lt
  have hb := b.toNat_lt
  omega

theorem codeStart_eq_addr (h : file.relAt rels i 0 = some r) : file.codeStart i = file.addr r := by
  rw [codeStart, addr, offset_of_relAt h, Nat.add_zero]

theorem add_eq_targetAddr_of_isExtern (hr : r.isExtern = true) (a : UInt32) :
    a + file.addr r = file.targetAddr r ↔
      a = (((file.machSyms[r.idx]?).map MachSym.value).getD 0).toUInt32 := by
  rw [targetAddr, if_pos hr]
  exact UInt32.add_left_inj _

theorem function_iff {x : σ × UInt32} (h : file.relAt rels i 0 = some r)
    (hx : file.functionOf r i = some x) :
    file.inputAddr x.1 + x.2 = file.targetAddr r ↔
      if r.isExtern then file.SymbolAtStart r else file.AddrAtStart r := by
  rw [functionOf, codeStart_eq_addr h] at hx
  split at hx
  case isTrue hr =>
    obtain ⟨subsec, hsubsec, rfl⟩ := Option.map_eq_some_iff.mp hx
    rw [add_eq_targetAddr_of_isExtern hr, if_pos hr, SymbolAtStart]
    constructor
    · exact fun h => ⟨subsec, hsubsec, h⟩
    · rintro ⟨s, hs, h⟩
      exact Option.some.inj (hs.symm.trans hsubsec) ▸ h
  case isFalse hr =>
    obtain ⟨subsec, hsubsec, rfl⟩ := Option.map_eq_some_iff.mp hx
    rw [targetAddr, if_neg hr, if_neg hr, add_sub_eq_iff, AddrAtStart]
    constructor
    · exact fun h => ⟨subsec, hsubsec, h⟩
    · rintro ⟨s, hs, h⟩
      exact Option.some.inj (hs.symm.trans hsubsec) ▸ h

theorem lsda_iff {x : Option σ × UInt32} (hx : file.lsdaOf r = some x) :
    (∃ lsda, x.1 = some lsda ∧ file.inputAddr lsda + x.2 = file.targetAddr r) ↔
      (r.isExtern = true → file.SymbolAtStart r) := by
  rw [lsdaOf] at hx
  split at hx
  case isTrue hr =>
    obtain rfl := Option.some.inj hx
    simp only [add_eq_targetAddr_of_isExtern hr, hr, true_imp_iff, SymbolAtStart]
  case isFalse hr =>
    obtain ⟨lsda, -, rfl⟩ := Option.map_eq_some_iff.mp hx
    refine iff_of_true ⟨lsda, rfl, ?_⟩ fun h => absurd h hr
    rw [targetAddr, if_neg hr, UInt32.add_comm, UInt32.sub_add_cancel]

theorem keepsAddresses_iff (hfields : file.FieldsAt file.rels i rec)
    (hsubsec : rec.subsec.isSome = true) :
    file.KeepsAddresses i rec ↔
      (∀ r, file.relAt file.rels i 0 = some r →
        if r.isExtern then file.SymbolAtStart r else file.AddrAtStart r) ∧
      ∀ r, file.relAt file.rels i file.lsdaOffset = some r → r.isExtern = true →
        file.SymbolAtStart r := by
  constructor
  · intro h
    refine ⟨fun r hr => ?_, fun r hr => ?_⟩
    · obtain ⟨x, hx, hsome, hoffset⟩ := hfields.function r hr
      obtain ⟨r', s, hr', hs, haddr⟩ := h.function
      obtain rfl := Option.some.inj (hr'.symm.trans hr)
      obtain rfl := Option.some.inj (hs.symm.trans hsome)
      exact (function_iff hr hx).mp (hoffset ▸ haddr)
    · obtain ⟨x, hx, hlsda, hoffset⟩ := hfields.lsda r hr
      refine (lsda_iff hx).mp ?_
      rw [← hlsda, ← hoffset]
      exact h.lsda r hr
  · rintro ⟨hfunction, hlsda⟩
    refine ⟨?_, fun r hr => ?_, hfields.noLsda⟩
    · cases hr : file.relAt file.rels i 0 with
      | none =>
        rw [hfields.noFunction hr] at hsubsec
        exact absurd hsubsec Bool.false_ne_true
      | some r =>
        obtain ⟨x, hx, hsome, hoffset⟩ := hfields.function r hr
        refine ⟨r, x.1, rfl, hsome, ?_⟩
        rw [hoffset]
        exact (function_iff hr hx).mpr (hfunction r hr)
    · obtain ⟨x, hx, hsome, hoffset⟩ := hfields.lsda r hr
      rw [hsome, hoffset]
      exact (lsda_iff hx).mpr (hlsda r hr)

/-- The records of an accepted section keep their functions and LSDAs exactly if the
addresses among them are first bytes of subsections where the formulas need it. -/
theorem keepsFunctions_iff {kept : List (UnwindRecord σ τ)}
    (h : file.parseCompactUnwind = some kept) : file.KeepsFunctions ↔ file.Safe := by
  obtain ⟨recs, hrecs, hkept⟩ := Option.bind_eq_some_iff.mp h
  dsimp only at hkept
  split at hkept
  case isFalse => exact absurd hkept (by simp)
  case isTrue hall =>
    obtain rfl := Option.some.inj hkept
    obtain ⟨hlen, hfields⟩ := tracks_relocated hrecs
    rw [List.all_eq_true] at hall
    constructor
    · intro hkeeps
      have hrecord : ∀ i < file.numEntries, file.isDwarf (file.encoding i) = false →
          ∃ rec, file.FieldsAt file.rels i rec ∧ rec.subsec.isSome = true ∧
            file.KeepsAddresses i rec := by
        intro i hi hmode
        have hrec := List.getElem?_eq_getElem (hlen ▸ hi)
        have hfield := hfields i _ hrec
        rw [← hfield.encoding] at hmode
        have hmem : recs[i] ∈ recs.filter fun rec => !file.isDwarf rec.encoding :=
          List.mem_filter.mpr ⟨List.mem_of_getElem? hrec, by rw [hmode]; rfl⟩
        exact ⟨_, hfield, hall _ hmem, hkeeps recs _ hrecs h i _ hrec hmem⟩
      constructor
      · intro i hi hmode
        obtain ⟨rec, hfield, hsome, hkeep⟩ := hrecord i hi hmode
        exact ((keepsAddresses_iff hfield hsome).mp hkeep).1
      · intro i hi hmode
        obtain ⟨rec, hfield, hsome, hkeep⟩ := hrecord i hi hmode
        exact ((keepsAddresses_iff hfield hsome).mp hkeep).2
    · intro hsafe recs' kept' hrecs' hkept' i rec hrec hmem
      obtain rfl := Option.some.inj (hrecs'.symm.trans hrecs)
      obtain rfl := Option.some.inj (hkept'.symm.trans h)
      have hfield := hfields i rec hrec
      have hi : i < file.numEntries := hlen ▸ (List.getElem?_eq_some_iff.mp hrec).1
      have hmode : file.isDwarf (file.encoding i) = false := by
        have hnot := (List.mem_filter.mp hmem).2
        rw [← hfield.encoding]
        simpa only [Bool.not_eq_true'] using hnot
      exact (keepsAddresses_iff hfield (hall rec hmem)).mpr
        ⟨hsafe.function i hi hmode, hsafe.lsda i hi hmode⟩

/-- One entry, whose function begins at `start` in the only subsection of the file. -/
def functionAt (start : UInt8) : UnwindSection Unit Unit where
  target := .x86_64
  is64 := true
  size := 32
  contents k := if k = 0 then start else if k = 8 then 16 else if k = 15 then 1 else 0
  rels := [{ offset := 0 }]
  machSyms := []
  syms _ := ()
  symToSubsec _ := none
  subsections := [()]
  subsectionLookup := []
  inputAddr _ := 0
  externSyms := []
  perm := List.Perm.refl _
  sorted := List.Pairwise.nil

theorem keepsFunctions_functionAt_zero : (functionAt 0).KeepsFunctions := by
  have hkept : (functionAt 0).parseCompactUnwind =
      some [{ subsec := some (), codeLen := 16, encoding := 0x1000000 }] := rfl
  refine (keepsFunctions_iff hkept).mpr ⟨fun i hi _ r hr => ?_, fun i hi _ r hr => ?_⟩
  · obtain rfl : i = 0 := Nat.lt_one_iff.mp hi
    obtain rfl := Option.some.inj hr
    exact ⟨(), rfl, rfl⟩
  · obtain rfl : i = 0 := Nat.lt_one_iff.mp hi
    have hnone : (functionAt 0).relAt (functionAt 0).rels 0 (functionAt 0).lsdaOffset = none :=
      rfl
    rw [hnone] at hr
    exact absurd hr.symm (Option.some_ne_none r)

/-- The function 8 bytes behind the beginning is kept as 8 bytes in front of it. -/
theorem not_keepsFunctions_functionAt_eight :
    (functionAt 8).parseCompactUnwind.map (List.map UnwindRecord.inputOffset) = some [0xfffffff8] ∧
      ¬ (functionAt 8).KeepsFunctions := by
  refine ⟨by decide, fun h => ?_⟩
  have hkeeps := h
    [{ subsec := some (), inputOffset := 0xfffffff8, codeLen := 16, encoding := 0x1000000 }]
    _ rfl rfl 0 _ rfl List.mem_cons_self
  obtain ⟨r, s, hr, -, haddr⟩ := hkeeps.function
  obtain rfl := Option.some.inj hr
  cases s
  exact absurd haddr (by decide)

end UnwindSection

end Mold.MachO.CompactUnwind
