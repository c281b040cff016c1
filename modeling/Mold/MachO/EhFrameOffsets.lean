import Mold.MachO.EhFrame

/-!
# Which FDE an unwind record finds

A record finds the FDE of its own function if its place is its rank among the
survivors.  Offsets grow with the rank, so another survivor has another offset,
and a place behind the survivors still has the initial offset.  So the
encodings are correct exactly if no FDE of a dead function is in front of the
FDE of a live one, and the offsets fit into 24 bits.
-/

namespace Mold.MachO.EhFrame

open Mold.Lib

variable {σ τ : Type*} {target : Target} {offset : ℕ}

theorem unwindModeDwarf_or (h : offset < 2 ^ 24) :
    target.unwindModeDwarf ||| offset = 2 ^ 24 * target.dwarfMode + offset :=
  (Nat.two_pow_add_eq_or_of_lt h target.dwarfMode).symm

theorem isDwarfEncoding_iff {offset t : ℕ} (h : offset < 2 ^ 24) :
    Link.IsDwarfEncoding target (target.unwindModeDwarf ||| offset) t ↔ offset = t := by
  have hmode : target.dwarfMode < 16 := by cases target <;> decide
  rw [unwindModeDwarf_or h, Link.IsDwarfEncoding]
  omega

theorem not_isDwarfEncoding_initial (target : Target) (t : ℕ) :
    ¬ Link.IsDwarfEncoding target (target.unwindModeDwarf ||| (2 ^ 32 - 1)) t := by
  rintro ⟨hmode, -⟩
  cases target
  · exact absurd hmode (by decide)
  · exact absurd hmode (by decide)

theorem Link.IsDwarfEncoding.lt {encoding t : ℕ}
    (h : Link.IsDwarfEncoding target encoding t) : t < 2 ^ 24 := by
  rw [← h.2]
  exact Nat.mod_lt _ (by decide)

namespace Link

variable {link : Link σ τ}

/-! ## The storage of the FDEs -/

theorem getElem?_setOffsets_of_lt {n offset k : ℕ} {l : List (FdeRecord σ × ℕ)}
    {x : FdeRecord σ × ℕ} (hk : k < n) (hx : l[k]? = some x) :
    (setOffsets n offset l)[k]? =
      some (x.1, offsetAt (fun y => y.1.size) offset l k % 2 ^ 32) := by
  induction l generalizing n offset k with
  | nil => simp at hx
  | cons y l ih =>
    cases n with
    | zero => exact absurd hk (Nat.not_lt_zero k)
    | succ n =>
      cases k with
      | zero =>
        obtain rfl : y = x := by simpa using hx
        simp [setOffsets, offsetAt]
      | succ k =>
        rw [setOffsets, List.getElem?_cons_succ, offsetAt_cons_succ]
        exact ih (Nat.lt_of_succ_lt_succ hk) hx

theorem getElem?_setOffsets_of_le {n offset k : ℕ} {l : List (FdeRecord σ × ℕ)}
    (hk : n ≤ k) : (setOffsets n offset l)[k]? = l[k]? := by
  induction l generalizing n offset k with
  | nil => cases n <;> rfl
  | cons y l ih =>
    cases n with
    | zero => rfl
    | succ n =>
      cases k with
      | zero => exact absurd hk (Nat.not_succ_le_zero n)
      | succ k =>
        rw [setOffsets, List.getElem?_cons_succ, List.getElem?_cons_succ]
        exact ih (Nat.le_of_succ_le_succ hk)

theorem size_pos (fde : FdeRecord σ) : 0 < fde.size := Nat.succ_pos _

theorem fdeOffset_eq (file : ObjectFile σ τ) (offset i : ℕ) :
    link.fdeOffset file offset i =
      offsetAt FdeRecord.size (offset + link.cieBytes file) (link.liveFdes file)
        (rank (fun fde => link.isAlive fde.subsec) file.fdes i) := by
  rw [fdeOffset, offsetAt, liveFdes, take_rank, fdeBytes]

variable {file : ObjectFile σ τ} {fde : FdeRecord σ}

theorem getElem?_storage_of_lt {offset k : ℕ} (hk : (link.liveFdes file)[k]? = some fde) :
    (link.storage file offset)[k]? = some (fde,
      offsetAt FdeRecord.size (offset + link.cieBytes file) (link.liveFdes file) k % 2 ^ 32) := by
  have hlive : k < (link.liveFdes file).length :=
    (List.getElem?_eq_some_iff.mp hk).1
  have hlt : k < (file.fdes.filter fun fde => link.isAlive fde.subsec).length :=
    hlive
  have hmap : eraseStorage (fun fde => link.isAlive fde.1.subsec) (initialFdes file) =
      (eraseStorage (fun fde => link.isAlive fde.subsec) file.fdes).map
        fun fde => (fde, 2 ^ 32 - 1) :=
    eraseStorage_map _ _
  have hget : (eraseStorage (fun fde => link.isAlive fde.1.subsec)
      (initialFdes file))[k]? = some (fde, 2 ^ 32 - 1) := by
    rw [hmap, List.getElem?_map, getElem?_eraseStorage hlt]
    exact congrArg (Option.map _) hk
  rw [storage, getElem?_setOffsets_of_lt hlive hget, hmap]
  congr 3
  rw [offsetAt, offsetAt, ← List.map_take, List.map_map, eraseStorage,
    List.take_append_of_le_length (Nat.le_of_lt hlt)]
  rfl

theorem getElem?_storage_of_le {offset k : ℕ} (hk : (link.liveFdes file).length ≤ k)
    (hfde : file.fdes[k]? = some fde) :
    (link.storage file offset)[k]? = some (fde, 2 ^ 32 - 1) := by
  have hmap : eraseStorage (fun fde => link.isAlive fde.1.subsec) (initialFdes file) =
      (eraseStorage (fun fde => link.isAlive fde.subsec) file.fdes).map
        fun fde => (fde, 2 ^ 32 - 1) :=
    eraseStorage_map _ _
  have hle : (file.fdes.filter fun fde => link.isAlive fde.subsec).length ≤ k :=
    hk
  have hindex : (file.fdes.filter fun fde => link.isAlive fde.subsec).length +
      (k - (file.fdes.filter fun fde => link.isAlive fde.subsec).length) = k :=
    Nat.add_sub_of_le hk
  rw [storage, getElem?_setOffsets_of_le hk, hmap, List.getElem?_map,
    eraseStorage, List.getElem?_append_right hle, List.getElem?_drop]
  rw [hindex, hfde]
  rfl

theorem fdeOutputOffset_eq {f i : ℕ} {offset x : ℕ}
    (hfile : (link.place 0 link.objs)[f]? = some (file, offset))
    (hplace : (link.storage file offset)[i]? = some (fde, x)) :
    link.fdeOutputOffset ⟨f, i⟩ = x := by
  rw [fdeOutputOffset, hfile]
  simp only [hplace]

/-! ## Records and encodings -/

def OffsetsCorrect (link : Link σ τ) (target : Target) : Prop :=
  ∀ (f : ℕ) file offset, (link.place 0 link.objs)[f]? = some (file, offset) →
    ∀ (i : ℕ) fde, file.fdes[i]? = some fde → link.isAlive fde.subsec = true →
      IsDwarfEncoding target (target.unwindModeDwarf ||| link.fdeOutputOffset ⟨f, i⟩)
        (link.fdeOffset file offset i)

theorem map_fst_place (offset : ℕ) (files : List (ObjectFile σ τ)) :
    (link.place offset files).map Prod.fst = files := by
  induction files generalizing offset with
  | nil => rfl
  | cons file files ih => rw [place, List.map_cons, ih]

theorem objs_getElem?_of_place {f : ℕ} (h : (link.place 0 link.objs)[f]? = some (file, offset)) :
    link.objs[f]? = some file := by
  have hget := congrArg (Option.map Prod.fst) h
  rwa [← List.getElem?_map, map_fst_place] at hget

/-- What completing the encodings does to the pointer `ptr`: a record with it is
still there, and every such record has the offset found at it. -/
def Completed (target : Target) (deref : FdePtr → ℕ) (ptr : FdePtr)
    (recs out : List (UnwindRecord σ τ)) : Prop :=
  ((∃ rec ∈ recs, rec.fde = some ptr) → ∃ rec ∈ out, rec.fde = some ptr) ∧
    ∀ rec ∈ out, rec.fde = some ptr → rec.encoding = target.unwindModeDwarf ||| deref ptr

variable {deref : FdePtr → ℕ}

theorem Completed.cons_none {ptr : FdePtr}
    {recs out : List (UnwindRecord σ τ)} {rec rec' : UnwindRecord σ τ}
    (h : Completed target deref ptr recs out) (hrec : rec.fde = none)
    (hrec' : rec'.fde = none) :
    Completed target deref ptr (rec :: recs) (rec' :: out) := by
  obtain ⟨hkept, hencoded⟩ := h
  constructor
  · rintro ⟨r, hr, hptr⟩
    rcases List.mem_cons.mp hr with rfl | hr
    · exact absurd (hrec.symm.trans hptr) (by simp)
    · obtain ⟨r', hr', hptr'⟩ := hkept ⟨r, hr, hptr⟩
      exact ⟨r', List.mem_cons_of_mem _ hr', hptr'⟩
  · intro r hr hptr
    rcases List.mem_cons.mp hr with rfl | hr
    · exact absurd (hrec'.symm.trans hptr) (by simp)
    · exact hencoded r hr hptr

theorem encodeRecords_completed [DecidableEq τ]
    {ps : List τ} {recs : List (UnwindRecord σ τ)}
    {out : List τ × List (UnwindRecord σ τ)}
    (h : encodeRecords target deref ps recs = some out) (ptr : FdePtr) :
    Completed target deref ptr recs out.2 := by
  induction recs generalizing ps out with
  | nil =>
    obtain rfl : (ps, []) = out := by simpa [encodeRecords] using h
    simp [Completed]
  | cons rec recs ih =>
    rw [encodeRecords] at h
    split at h
    · next p _ hfde =>
        obtain ⟨out', hout, rfl⟩ := Option.map_eq_some_iff.mp h
        obtain ⟨hkept, hencoded⟩ := ih hout
        constructor
        · rintro ⟨r, hr, hptr⟩
          rcases List.mem_cons.mp hr with rfl | hr
          · exact ⟨_, List.mem_cons_self, hptr⟩
          · obtain ⟨r', hr', hptr'⟩ := hkept ⟨r, hr, hptr⟩
            exact ⟨r', List.mem_cons_of_mem _ hr', hptr'⟩
        · intro r hr hptr
          rcases List.mem_cons.mp hr with rfl | hr
          · have hsame : rec.fde = some ptr := hptr
            rw [hfde, Option.some_inj] at hsame
            rw [← hsame]
          · exact hencoded r hr hptr
    · next sym hfde _ =>
        split at h
        · exact absurd h (by simp)
        · obtain ⟨out', hout, rfl⟩ := Option.map_eq_some_iff.mp h
          exact (ih hout).cons_none hfde hfde
    · next hfde _ =>
        obtain ⟨out', hout, rfl⟩ := Option.map_eq_some_iff.mp h
        exact (ih hout).cons_none hfde hfde

theorem exists_encodeRecords [DecidableEq τ]
    {ps : List τ} {recs : List (UnwindRecord σ τ)}
    (h : ∀ rec ∈ recs, rec.personality = none) :
    ∃ out, encodeRecords target deref ps recs = some out := by
  induction recs with
  | nil => exact ⟨_, rfl⟩
  | cons rec recs ih =>
    obtain ⟨out, hout⟩ := ih fun r hr => h r (List.mem_cons_of_mem _ hr)
    have hrec := h rec List.mem_cons_self
    rw [encodeRecords, hout, hrec]
    cases rec.fde with
    | none => exact ⟨_, rfl⟩
    | some ptr => exact ⟨_, rfl⟩

theorem exists_encodedRecords [DecidableEq σ] [DecidableEq τ] (target : Target)
    (h : ∀ file ∈ link.objs, ∀ rec ∈ file.compact, rec.personality = none) :
    ∃ out, link.encodedRecords target = some out := by
  refine exists_encodeRecords fun rec hrec => ?_
  obtain ⟨s, -, hrec⟩ := List.mem_flatMap.mp hrec
  obtain ⟨x, hx, hrec⟩ := List.mem_flatMap.mp (List.mem_filter.mp hrec).1
  rw [associateCompactUnwind, List.mem_mergeSort] at hrec
  rcases List.mem_append.mp hrec with hrec | hrec
  · exact h x.1 (List.mem_of_getElem? (List.mem_zipIdx_iff_getElem?.mp hx)) rec hrec
  · obtain ⟨y, -, rfl⟩ := List.mem_map.mp hrec
    rfl

theorem exists_mem_records [DecidableEq σ] {f i : ℕ} (hfile : link.objs[f]? = some file)
    (hfde : file.fdes[i]? = some fde) (halive : link.isAlive fde.subsec = true) :
    ∃ rec ∈ link.records, rec.fde = some ⟨f, i⟩ := by
  let rec' : UnwindRecord σ τ :=
    { subsec := fde.subsec, fde := some ⟨f, i⟩,
      codeLen := link.inputSize fde.subsec }
  have hsub : fde.subsec ∈ link.members :=
    link.mem_members file (List.mem_of_getElem? hfile) fde (List.mem_of_getElem? hfde) halive
  have hrec : rec' ∈ link.associateCompactUnwind (file, f) := by
    rw [associateCompactUnwind, List.mem_mergeSort]
    refine List.mem_append_right _ (List.mem_map.mpr ⟨(fde, i), ?_, rfl⟩)
    exact List.mem_zipIdx_iff_getElem?.mpr hfde
  refine ⟨rec', List.mem_flatMap.mpr ⟨fde.subsec, hsub, ?_⟩, rfl⟩
  refine List.mem_filter.mpr ⟨List.mem_flatMap.mpr ⟨(file, f), ?_, hrec⟩, ?_⟩
  · exact List.mem_zipIdx_iff_getElem?.mpr hfile
  · exact decide_eq_true rfl

theorem encodingsCorrect_iff [DecidableEq σ] [DecidableEq τ]
    {out : List τ × List (UnwindRecord σ τ)}
    (h : link.encodedRecords target = some out) :
    link.EncodingsCorrect target out.2 ↔ link.OffsetsCorrect target := by
  constructor
  · intro hcorrect f file offset hfile i fde hfde halive
    obtain ⟨⟨rec, hrec, hptr⟩, hall⟩ :=
      hcorrect f file offset hfile i fde hfde halive
    have hencoding := (encodeRecords_completed h ⟨f, i⟩).2 rec hrec hptr
    rw [← hencoding]
    exact hall rec hrec hptr
  · intro hcorrect f file offset hfile i fde hfde halive
    obtain ⟨hkept, hencoded⟩ := encodeRecords_completed h ⟨f, i⟩
    constructor
    · exact hkept (exists_mem_records (objs_getElem?_of_place hfile) hfde halive)
    · intro rec hrec hptr
      rw [hencoded rec hrec hptr]
      exact hcorrect f file offset hfile i fde hfde halive

theorem offsetsCorrect_of_deadFdesLast (h : link.DeadFdesLast) : link.OffsetsCorrect target := by
  intro f file offset hfile i fde hfde halive
  obtain ⟨hfront, hlt⟩ := h f file offset hfile i fde hfde halive
  have hrank : rank (fun fde => link.isAlive fde.subsec) file.fdes i = i :=
    (rank_eq_iff (Nat.le_of_lt (List.getElem?_eq_some_iff.mp hfde).1)).mpr hfront
  have hget : (link.liveFdes file)[rank _ file.fdes i]? = some fde :=
    getElem?_filter_rank hfde halive
  have hoffset : link.fdeOffset file offset i = _ := fdeOffset_eq file offset i
  rw [hrank] at hget hoffset
  rw [fdeOutputOffset_eq hfile (getElem?_storage_of_lt hget), ← hoffset,
    Nat.mod_eq_of_lt (Nat.lt_trans hlt (by decide)), isDwarfEncoding_iff hlt]

theorem rank_eq_of_offsetsCorrect (h : link.OffsetsCorrect target) {f i : ℕ}
    (hfile : (link.place 0 link.objs)[f]? = some (file, offset))
    (hfde : file.fdes[i]? = some fde) (halive : link.isAlive fde.subsec = true) :
    rank (fun fde => link.isAlive fde.subsec) file.fdes i = i := by
  have hi := h f file offset hfile i fde hfde halive
  by_cases hlive : i < (link.liveFdes file).length
  · -- The survivor in this place is at its own right offset as well.
    obtain ⟨m, x, hm, hx, hrank⟩ := exists_rank_eq hlive
    have hget : (link.liveFdes file)[rank _ file.fdes m]? = some x :=
      getElem?_filter_rank hm hx
    have hm' := (h f file offset hfile m x hm hx).lt
    rw [fdeOffset_eq, hrank] at hm'
    rw [hrank] at hget
    rw [fdeOutputOffset_eq hfile (getElem?_storage_of_lt hget),
      Nat.mod_eq_of_lt (Nat.lt_trans hm' (by decide)), isDwarfEncoding_iff hm',
      fdeOffset_eq] at hi
    exact (offsetAt_inj size_pos (Nat.le_of_lt hlive)
      (Nat.le_of_lt (rank_lt_length hfde halive)) hi).symm
  · rw [fdeOutputOffset_eq hfile (getElem?_storage_of_le (Nat.le_of_not_lt hlive) hfde)] at hi
    exact absurd hi (not_isDwarfEncoding_initial target _)

theorem offsetsCorrect_iff_deadFdesLast : link.OffsetsCorrect target ↔ link.DeadFdesLast := by
  constructor
  · intro h f file offset hfile i fde hfde halive
    constructor
    · exact (rank_eq_iff (Nat.le_of_lt (List.getElem?_eq_some_iff.mp hfde).1)).mp
        (rank_eq_of_offsetsCorrect h hfile hfde halive)
    · exact (h f file offset hfile i fde hfde halive).lt
  · exact offsetsCorrect_of_deadFdesLast

/-- The encodings of the DWARF records hold the offsets of their own FDEs
exactly if in no file the FDE of a dead function is in front of the FDE of a
live one, and the offsets fit into their field. -/
theorem encodingsCorrect_iff_deadFdesLast [DecidableEq σ] [DecidableEq τ]
    (link : Link σ τ) (target : Target) (out : List τ × List (UnwindRecord σ τ))
    (h : link.encodedRecords target = some out) :
    link.EncodingsCorrect target out.2 ↔ link.DeadFdesLast :=
  (encodingsCorrect_iff h).trans offsetsCorrect_iff_deadFdesLast

end Link

/-- A file with two functions that have FDEs, the functions `0` and `1` at the
addresses `0` and `16`. -/
def twoFunctions : ObjectFile ℕ ℕ where
  cies := [20]
  fdes := [⟨0, 0, 28⟩, ⟨1, 0, 28⟩]
  compact := []

/-- A link in which the function `n` and everything behind it stays. -/
def twoFunctionsLink (n : ℕ) : Link ℕ ℕ where
  objs := [twoFunctions]
  isAlive s := n ≤ s
  inputAddr s := 16 * s
  inputSize _ := 16
  members := [0, 1].filter fun s => n ≤ s
  mem_members := by
    intro file hfile fde hfde halive
    obtain rfl := List.mem_singleton.mp hfile
    simp only [twoFunctions, List.mem_cons, List.not_mem_nil, or_false] at hfde
    rcases hfde with rfl | rfl
    · exact List.mem_filter.mpr ⟨List.mem_cons_self, halive⟩
    · exact List.mem_filter.mpr ⟨by simp, halive⟩

theorem twoFunctionsLink_encodedRecords (n : ℕ) :
    ∃ out, (twoFunctionsLink n).encodedRecords .x86_64 = some out := by
  refine Link.exists_encodedRecords _ fun file hfile rec hrec => ?_
  obtain rfl := List.mem_singleton.mp hfile
  exact absurd hrec List.not_mem_nil

theorem twoFunctionsLink_place (n : ℕ) :
    ((twoFunctionsLink n).place 0 (twoFunctionsLink n).objs)[0]? = some (twoFunctions, 0) := rfl

/-- With both functions in the output the encodings are correct. -/
theorem twoFunctionsLink_encodingsCorrect :
    ∃ out, (twoFunctionsLink 0).encodedRecords .x86_64 = some out ∧
      (twoFunctionsLink 0).EncodingsCorrect .x86_64 out.2 := by
  obtain ⟨out, hout⟩ := twoFunctionsLink_encodedRecords 0
  refine ⟨out, hout, (Link.encodingsCorrect_iff_deadFdesLast _ _ out hout).mpr ?_⟩
  intro f file offset hfile i fde hfde halive
  constructor
  · exact fun other _ => decide_eq_true (Nat.zero_le other.subsec)
  · obtain rfl : file = twoFunctions := by
      have hmem := List.mem_of_getElem? hfile
      exact (Prod.ext_iff.mp (List.mem_singleton.mp hmem)).1
    obtain rfl : offset = 0 := by
      have hmem := List.mem_of_getElem? hfile
      exact (Prod.ext_iff.mp (List.mem_singleton.mp hmem)).2
    have hi : i < 2 := (List.getElem?_eq_some_iff.mp hfde).1
    match i, hi with
    | 0, _ => decide +kernel
    | 1, _ => decide +kernel

/-- If the first function is stripped, the encoding of the second one is not the
offset of its FDE. -/
theorem twoFunctionsLink_not_encodingsCorrect :
    ∃ out, (twoFunctionsLink 1).encodedRecords .x86_64 = some out ∧
      ¬ (twoFunctionsLink 1).EncodingsCorrect .x86_64 out.2 := by
  obtain ⟨out, hout⟩ := twoFunctionsLink_encodedRecords 1
  refine ⟨out, hout, fun hcorrect => ?_⟩
  have hoffsets := (Link.encodingsCorrect_iff hout).mp hcorrect
  obtain ⟨hmode, -⟩ :=
    hoffsets 0 twoFunctions 0 (twoFunctionsLink_place 1) 1 ⟨1, 0, 28⟩ rfl rfl
  exact absurd hmode (by decide +kernel)

end Mold.MachO.EhFrame
