import Mold.MachO.SymtabNumbering

/-!
# Partition of the symbol table

The names that a file writes follow one another in the space that it has
counted, and its stabs and symbols fill the slots that it has counted.  So in a
link whose dylibs keep imported symbols only and whose files list no kept
symbol twice, every slot is written exactly once, every index is unique and
lies in the range of its class, and the strings tile the string table.
-/

namespace Mold.MachO.Symtab

open Mold.Lib

namespace Context

variable {τ : Type*} {ctx : Context τ}

theorem map_fst_named (idx : τ → ℤ) (file : InputFile τ) (stroff : ℕ) (syms : List (Option τ)) :
    (ctx.named idx file stroff syms).map Prod.fst =
      syms.reduceOption.filter (ctx.emits idx file) := by
  induction syms generalizing stroff with
  | nil => rfl
  | cons s syms ih =>
    cases s with
    | none => rw [List.reduceOption_cons_of_none, named, ih]
    | some s =>
      rw [List.reduceOption_cons_of_some, List.filter_cons, named]
      split
      · rw [List.map_cons, ih]
      · exact ih stroff

def nameString (ctx : Context τ) (x : τ × ℕ) : Segment Byte :=
  ⟨x.2, (ctx.sym x.1).name ++ [0]⟩

theorem tiles_named (idx : τ → ℤ) (file : InputFile τ) (stroff : ℕ) (syms : List (Option τ)) :
    Tiles (((ctx.named idx file stroff syms).map ctx.nameString).map
        Segment.filled) stroff (ctx.namesEnd idx file stroff syms) := by
  induction syms generalizing stroff with
  | nil => exact rfl
  | cons s syms ih =>
    cases s with
    | none => exact ih stroff
    | some s =>
      rw [named, namesEnd]
      split
      · refine ⟨rfl, ?_⟩
        have hlen : (ctx.nameString (s, stroff)).filled.reserved =
            (ctx.sym s).name.length + 1 := by
          simp [nameString, Segment.filled]
        rw [hlen]
        exact ih _
      · exact ih stroff

theorem namesEnd_eq (idx : τ → ℤ) (file : InputFile τ) (stroff : ℕ) (syms : List (Option τ)) :
    ctx.namesEnd idx file stroff syms = stroff +
      ((syms.reduceOption.filter (ctx.emits idx file)).map
        fun s => (ctx.sym s).name.length + 1).sum := by
  induction syms generalizing stroff with
  | nil => rfl
  | cons s syms ih =>
    cases s with
    | none => rw [List.reduceOption_cons_of_none, namesEnd, ih]
    | some s =>
      rw [List.reduceOption_cons_of_some, List.filter_cons, namesEnd]
      split
      · rw [ih, List.map_cons, List.sum_cons]
        omega
      · exact ih stroff

section Writing

variable [DecidableEq τ]

/-! ## What the files write -/

theorem WellFormed.emits_eq (h : ctx.WellFormed) {file : InputFile τ} (hfile : file ∈ ctx.files) :
    file.syms.reduceOption.filter (ctx.emits ctx.outputSymtabIdx file) = ctx.kept file := by
  apply List.filter_congr
  intro s hs
  rw [List.reduceOption_mem_iff] at hs
  rw [Bool.eq_iff_iff, emits, Bool.and_eq_true, beq_iff_eq, bne_iff_ne]
  constructor
  · rintro ⟨howner, hidx⟩
    have hmem : s ∈ ctx.allKept := by
      by_contra hnot
      exact hidx (h.outputSymtabIdx_eq.2 s hnot)
    obtain ⟨other, hother, hkept⟩ := List.mem_flatMap.mp hmem
    have hkeeps := (mem_kept.mp hkept).2
    have href := file_eq_of_keeps hkeeps
    rw [howner, Option.some_inj] at href
    rwa [file_unique hfile hother href]
  · intro hkeeps
    refine ⟨file_eq_of_keeps hkeeps, ?_⟩
    have hmem : ctx.outputSymtabIdx s ∈ ctx.allKept.map ctx.outputSymtabIdx :=
      List.mem_map_of_mem (List.mem_flatMap.mpr ⟨file, hfile, mem_kept.mpr ⟨hs, hkeeps⟩⟩)
    rw [h.outputSymtabIdx_eq.1] at hmem
    obtain ⟨n, -, hn⟩ := List.mem_map.mp hmem
    rw [← hn]
    simp

theorem map_fst_place (o : Counts) (files : List (InputFile τ)) :
    (ctx.place o files).map Prod.fst = files := by
  induction files generalizing o with
  | nil => rfl
  | cons file files ih => rw [place, List.map_cons, ih]

variable {x : InputFile τ × Counts}

theorem mem_place {o : Counts} {files : List (InputFile τ)}
    (hx : x ∈ ctx.place o files) : x.1 ∈ files := by
  have hmem : x.1 ∈ (ctx.place o files).map Prod.fst := List.mem_map_of_mem hx
  rwa [map_fst_place] at hmem

theorem WellFormed.tiles_fileStrings (h : ctx.WellFormed) (hfile : x.1 ∈ ctx.files) :
    Tiles ((ctx.fileStrings ctx.outputSymtabIdx x).map Segment.filled)
      x.2.strtab (x.2.strtab + (ctx.counts x.1).strtab) := by
  have hnames := ctx.tiles_named ctx.outputSymtabIdx x.1 x.2.strtab x.1.syms
  have hend := ctx.namesEnd_eq ctx.outputSymtabIdx x.1 x.2.strtab x.1.syms
  rw [h.emits_eq hfile] at hend
  have hcount : (ctx.counts x.1).strtab = (ctx.initCounts x.1).strtab +
      ((ctx.kept x.1).map fun s => (ctx.sym s).name.length + 1).sum := by
    rw [counts_eq, strtab_foldl_countSymbol]
  rw [fileStrings, List.map_append]
  refine hnames.append ?_
  rw [hend, hcount, initCounts]
  split
  · refine ⟨rfl, ?_⟩
    simp only [Segment.filled, List.length_append, List.length_singleton, List.map_nil, Tiles]
    omega
  · simp only [List.map_nil, Tiles]
    omega

theorem WellFormed.tiles_place (h : ctx.WellFormed) {o : Counts}
    {files : List (InputFile τ)} (hfiles : ∀ file ∈ files, file ∈ ctx.files) :
    Tiles (((ctx.place o files).flatMap (ctx.fileStrings ctx.outputSymtabIdx)).map Segment.filled)
      o.strtab
      (o.strtab + (files.map fun file => (ctx.counts file).strtab).sum) := by
  induction files generalizing o with
  | nil => exact rfl
  | cons file files ih =>
    rw [place, List.flatMap_cons, List.map_append, List.map_cons, List.sum_cons, ← Nat.add_assoc]
    have htail := ih (o := o.add (ctx.counts file))
      fun f hf => hfiles f (List.mem_cons_of_mem file hf)
    exact (h.tiles_fileStrings (x := (file, o)) (hfiles file List.mem_cons_self)).append htail

omit [DecidableEq τ] in
theorem tiles_astStrings (stroff : ℕ) (paths : List (List Byte)) :
    Tiles ((astStrings stroff paths).map Segment.filled) stroff
      (stroff + (paths.map fun path => path.length + 1).sum) := by
  induction paths generalizing stroff with
  | nil => exact rfl
  | cons path paths ih =>
    refine ⟨rfl, ?_⟩
    have hlen : (Segment.filled ⟨stroff, path ++ [0]⟩ : Placement Byte).reserved =
        path.length + 1 := by
      simp [Segment.filled]
    rw [hlen, List.map_cons, List.sum_cons, ← Nat.add_assoc stroff (path.length + 1)]
    exact ih (stroff + (path.length + 1))

theorem WellFormed.tiles_strings (h : ctx.WellFormed) :
    Tiles (((⟨0, strtabInitImage⟩ :: ctx.strings : List (Segment Byte))).map
      Segment.filled) 0 ctx.strtabSize := by
  refine ⟨rfl, ?_⟩
  have hast := tiles_astStrings strtabInitImage.length ctx.addAstPath
  have hfiles := @WellFormed.tiles_place _ ctx _ h ctx.firstOffsets ctx.files
    fun _ hf => hf
  have hsum := measure_foldl_add (m := Counts.strtab) (fun _ _ => rfl)
    (ctx.files.map ctx.counts) {}
  have hsize : ctx.strtabSize = ctx.firstOffsets.strtab +
      (ctx.files.map fun file => (ctx.counts file).strtab).sum := by
    rw [strtabSize, total, hsum, List.map_map]
    simp only [Nat.zero_add]
    rfl
  rw [strings, List.map_append, hsize]
  refine Tiles.append ?_ hfiles
  simpa [firstOffsets, Segment.filled, strtabInitImage] using hast

/-! ## Slots -/

theorem map_fst_consecutive (first : ℕ) (entries : List Nlist) :
    (consecutive first entries).map Prod.fst =
      (List.range' first entries.length).map Int.ofNat := by
  rw [consecutive, List.map_map, ← List.zipIdx_map_snd first entries, List.map_map]
  rfl

theorem exists_mem_consecutive (first : ℕ) {entries : List Nlist}
    {entry : Nlist} (h : entry ∈ entries) :
    ∃ i, (i, entry) ∈ consecutive first entries := by
  rw [← List.zipIdx_map_fst first entries] at h
  obtain ⟨x, hx, rfl⟩ := List.mem_map.mp h
  exact ⟨(x.2 : ℤ), List.mem_map.mpr ⟨x, hx, rfl⟩⟩

omit [DecidableEq τ] in
theorem length_fileStabs (syms : List (τ × ℕ)) (stroff : ℕ) :
    (ctx.fileStabs syms stroff).length = 3 + ((syms.map Prod.fst).map ctx.numSymbolStabs).sum := by
  have hlen : (syms.flatMap ctx.symbolStabs).length =
      ((syms.map Prod.fst).map ctx.numSymbolStabs).sum := by
    rw [List.length_flatMap, List.map_map]
    congr 1
    apply List.map_congr_left
    intro x _
    simp only [symbolStabs, Function.comp_apply, numSymbolStabs]
    cases (ctx.sym x.1).subsec with
    | none => rfl
    | some subsec => cases hsub : subsec.isText <;> simp [hsub]
  simp only [fileStabs, List.length_append, hlen, List.length_cons, List.length_nil]
  omega

theorem WellFormed.map_fst_stabWrites (h : ctx.WellFormed) (hfile : x.1 ∈ ctx.files) :
    (ctx.stabWrites ctx.outputSymtabIdx x).map Prod.fst =
      (List.range' x.2.stabs (ctx.counts x.1).stabs).map Int.ofNat := by
  have hnamed := ctx.map_fst_named ctx.outputSymtabIdx x.1 x.2.strtab x.1.syms
  rw [h.emits_eq hfile] at hnamed
  rw [stabWrites]
  split
  · next hdebug =>
      rw [map_fst_consecutive, length_fileStabs, hnamed, counts_eq,
        stabs_foldl_countSymbol hdebug, initCounts, if_pos hdebug]
  · next hdebug =>
      rw [Bool.not_eq_true] at hdebug
      rw [counts_eq, stabs_foldl_countSymbol_of_no_debug hdebug, initCounts, hdebug]
      rfl

theorem WellFormed.map_fst_symbolWrites (h : ctx.WellFormed) (hfile : x.1 ∈ ctx.files) :
    (ctx.symbolWrites ctx.outputSymtabIdx x).map Prod.fst =
      (ctx.kept x.1).map ctx.outputSymtabIdx := by
  have hnamed := ctx.map_fst_named ctx.outputSymtabIdx x.1 x.2.strtab x.1.syms
  rw [h.emits_eq hfile] at hnamed
  rw [symbolWrites, ← hnamed, List.map_map, List.map_map]
  rfl

omit [DecidableEq τ] in
theorem map_fst_astWrites :
    ctx.astWrites.map Prod.fst = (List.range' 0 ctx.addAstPath.length).map Int.ofNat := by
  have hlen : ∀ (paths : List (List Byte)) (n : ℕ),
      (astStrings n paths).length = paths.length := by
    intro paths
    induction paths with
    | nil => intro n; rfl
    | cons path paths ih =>
      intro n
      rw [astStrings, List.length_cons, ih, List.length_cons]
  rw [astWrites, map_fst_consecutive, List.length_map, hlen]

theorem WellFormed.map_fst_writes_perm (h : ctx.WellFormed) :
    (ctx.writes.map Prod.fst).Perm ((List.range ctx.numSymbols).map Int.ofNat) := by
  have hfiles : (ctx.placed.flatMap (ctx.fileWrites ctx.outputSymtabIdx)).map
      Prod.fst = ctx.placed.flatMap fun x =>
        (List.range' x.2.stabs (ctx.counts x.1).stabs).map Int.ofNat ++
          (ctx.kept x.1).map ctx.outputSymtabIdx := by
    rw [List.map_flatMap]
    apply List.flatMap_congr
    intro x hx
    rw [fileWrites, List.map_append, h.map_fst_stabWrites (mem_place hx),
      h.map_fst_symbolWrites (mem_place hx)]
  have hstabs : ctx.placed.flatMap (fun x =>
      (List.range' x.2.stabs (ctx.counts x.1).stabs).map Int.ofNat) =
      (List.range' ctx.addAstPath.length (ctx.total ctx.files).stabs).map Int.ofNat := by
    have hsum := measure_foldl_add (m := Counts.stabs) (fun _ _ => rfl)
      (ctx.files.map ctx.counts) {}
    rw [← List.map_flatMap, placed,
      flatMap_place_range (m := Counts.stabs) fun _ _ => rfl, total, hsum,
      List.map_map]
    simp only [Nat.zero_add]
    rfl
  have hkept : ctx.placed.flatMap (fun x => (ctx.kept x.1).map ctx.outputSymtabIdx) =
      (number ctx.flagClass ctx.firstOffsets.get ctx.allKept).map Int.ofNat := by
    have hplaced : ctx.placed.map Prod.fst = ctx.files :=
      map_fst_place ctx.firstOffsets ctx.files
    rw [← h.outputSymtabIdx_eq.1, allKept, List.map_flatMap, ← hplaced, List.flatMap_map]
  have hlocals : ctx.firstOffsets.locals =
      ctx.addAstPath.length + (ctx.total ctx.files).stabs := rfl
  have hle : ctx.firstOffsets.locals ≤ ctx.numSymbols := by
    simp only [numSymbols, undefsOffset, firstOffsets]
    omega
  rw [writes, List.map_append, map_fst_astWrites, hfiles]
  refine ((List.flatMap_append_perm _ _ _).symm.append_left _).trans ?_
  rw [hstabs, hkept]
  refine (((number_allKept_perm h).map Int.ofNat).append_left _).append_left _
    |>.trans (List.Perm.of_eq ?_)
  have hfirst : ∀ a n, List.range' 0 a ++ List.range' a n = List.range' 0 (a + n) := by
    intro a n
    have happend := List.range'_append_1 (s := 0) (m := a) (n := n)
    rwa [Nat.zero_add] at happend
  rw [← List.map_append, ← List.map_append, hlocals, List.range'_append_1,
    hfirst, List.range_eq_range']
  congr 2
  omega

/-! ## The partition -/

/-- The index lies in the range of the class: locals follow the stabs in the
range of local symbols, the other classes have ranges of their own. -/
def InRange (ctx : Context τ) (i : ℤ) : SymClass → Prop
  | .locals => (ctx.firstOffsets.locals : ℤ) ≤ i ∧
      i < ctx.createDysymtabCmd.ilocalsym + ctx.createDysymtabCmd.nlocalsym
  | .globals => (ctx.createDysymtabCmd.iextdefsym : ℤ) ≤ i ∧
      i < ctx.createDysymtabCmd.iextdefsym + ctx.createDysymtabCmd.nextdefsym
  | .undefs => (ctx.createDysymtabCmd.iundefsym : ℤ) ≤ i ∧
      i < ctx.createDysymtabCmd.iundefsym + ctx.createDysymtabCmd.nundefsym

structure Partitioned (ctx : Context τ) : Prop where
  range : ∀ file ∈ ctx.files, ∀ s ∈ ctx.kept file,
    ctx.InRange (ctx.outputSymtabIdx s) (ctx.flagClass s)
  unique : ∀ file ∈ ctx.files, ∀ s ∈ ctx.kept file,
    ∀ other ∈ ctx.files, ∀ t ∈ ctx.kept other,
      ctx.outputSymtabIdx s = ctx.outputSymtabIdx t → s = t
  stabs : ∀ w ∈ ctx.writes, 0x20 ≤ w.2.nType → 0 ≤ w.1 ∧ w.1 < ctx.firstOffsets.locals
  slots : (ctx.writes.map Prod.fst).Perm ((List.range ctx.numSymbols).map Int.ofNat)
  disjoint : (⟨0, strtabInitImage⟩ :: ctx.strings).Pairwise Segment.Disjoint
  inside : ∀ seg ∈ ctx.strings, seg.stop ≤ ctx.strtabSize
  recorded : ∀ seg ∈ ctx.strings, ∃ w ∈ ctx.writes, w.2.stroff = seg.start
  names : ∀ file ∈ ctx.files, ∀ s ∈ ctx.kept file,
    ∃ entry, (ctx.outputSymtabIdx s, entry) ∈ ctx.writes ∧
      (ctx.sym s).name ++ [0] <+: ctx.strtab.drop entry.stroff

theorem WellFormed.mem_zip_number (h : ctx.WellFormed) {s : τ} (hs : s ∈ ctx.allKept) :
    ∃ n : ℕ, ctx.outputSymtabIdx s = n ∧ (s, n) ∈ ctx.allKept.zip
      (number ctx.flagClass ctx.firstOffsets.get ctx.allKept) := by
  obtain ⟨i, hi, rfl⟩ := List.getElem_of_mem hs
  have hlen : i < (number ctx.flagClass ctx.firstOffsets.get ctx.allKept).length := by
    rwa [length_number]
  refine ⟨(number ctx.flagClass ctx.firstOffsets.get ctx.allKept)[i], ?_, ?_⟩
  · have hget := congrArg (fun l : List ℤ => l[i]?) h.outputSymtabIdx_eq.1
    simpa [List.getElem?_eq_getElem hi, List.getElem?_eq_getElem hlen] using hget
  · have hzip : i < (ctx.allKept.zip (number ctx.flagClass
        ctx.firstOffsets.get ctx.allKept)).length := by
      rw [List.length_zip]
      omega
    have hmem := List.getElem_mem hzip
    rwa [List.getElem_zip] at hmem

theorem WellFormed.inRange (h : ctx.WellFormed) {s : τ} (hs : s ∈ ctx.allKept) :
    ctx.InRange (ctx.outputSymtabIdx s) (ctx.flagClass s) := by
  obtain ⟨n, hidx, hzip⟩ := h.mem_zip_number hs
  obtain ⟨hle, hlt⟩ := number_mem_range hzip
  rw [classSize_allKept h] at hlt
  rw [hidx]
  cases hclass : ctx.flagClass s with
  | locals =>
    rw [hclass] at hle hlt
    simp only [Counts.get, firstOffsets] at hle hlt
    simp only [InRange, createDysymtabCmd, globalsOffset, firstOffsets]
    omega
  | globals =>
    rw [hclass] at hle hlt
    simp only [Counts.get, firstOffsets] at hle hlt
    simp only [InRange, createDysymtabCmd, globalsOffset, undefsOffset, firstOffsets]
    omega
  | undefs =>
    rw [hclass] at hle hlt
    simp only [Counts.get, firstOffsets] at hle hlt
    simp only [InRange, createDysymtabCmd, numSymbols, undefsOffset, firstOffsets]
    omega

theorem WellFormed.nodup_indices (h : ctx.WellFormed) :
    (ctx.allKept.map ctx.outputSymtabIdx).Nodup := by
  rw [h.outputSymtabIdx_eq.1]
  refine List.Nodup.map (fun _ _ => Int.ofNat.inj) ?_
  exact (number_allKept_perm h).nodup_iff.mpr List.nodup_range'

theorem symbolEntry_nType_lt (file : InputFile τ) (x : τ × ℕ) :
    (ctx.symbolEntry file x).nType < 0x20 := by
  rw [symbolEntry]
  split
  · simp [dylibEntry]
  · simp only [objectEntry]
    have hextern : (if (ctx.sym x.1).visibility = .scopeGlobal then 1 else 0) ≤ 1 := by
      split <;> omega
    split
    · dsimp only
      omega
    · split_ifs <;> dsimp only <;> omega

theorem symbolEntry_stroff (file : InputFile τ) (x : τ × ℕ) :
    (ctx.symbolEntry file x).stroff = x.2 := by
  rw [symbolEntry]
  split
  · rfl
  · simp only [objectEntry]
    split
    · rfl
    · split_ifs <;> rfl

theorem WellFormed.mem_stabWrites_lt (h : ctx.WellFormed) (hx : x ∈ ctx.placed) {w : ℤ × Nlist}
    (hw : w ∈ ctx.stabWrites ctx.outputSymtabIdx x) :
    0 ≤ w.1 ∧ w.1 < ctx.firstOffsets.locals := by
  have hindex := List.mem_map_of_mem (f := Prod.fst) hw
  rw [h.map_fst_stabWrites (mem_place hx)] at hindex
  obtain ⟨n, hn, hw⟩ := List.mem_map.mp hindex
  have hall : n ∈ ctx.placed.flatMap fun x =>
      List.range' x.2.stabs (ctx.counts x.1).stabs :=
    List.mem_flatMap.mpr ⟨x, hx, hn⟩
  rw [placed, flatMap_place_range (m := Counts.stabs) fun _ _ => rfl, List.mem_range'_1] at hall
  have hsum := measure_foldl_add (m := Counts.stabs) (fun _ _ => rfl) (ctx.files.map ctx.counts) {}
  have hlocals : ctx.firstOffsets.locals = ctx.firstOffsets.stabs +
      (ctx.files.map fun file => (ctx.counts file).stabs).sum := by
    simp only [firstOffsets, total, hsum, List.map_map, Nat.zero_add]
    rfl
  rw [← hw, hlocals]
  refine ⟨Int.natCast_nonneg n, ?_⟩
  exact Int.ofNat_lt.mpr hall.2

theorem mem_astWrites_lt {w : ℤ × Nlist} (hw : w ∈ ctx.astWrites) :
    0 ≤ w.1 ∧ w.1 < ctx.firstOffsets.locals := by
  have hindex := List.mem_map_of_mem (f := Prod.fst) hw
  rw [map_fst_astWrites] at hindex
  obtain ⟨n, hn, hw⟩ := List.mem_map.mp hindex
  rw [List.mem_range'_1] at hn
  have hle : ctx.addAstPath.length ≤ ctx.firstOffsets.locals :=
    Nat.le_add_right _ _
  rw [← hw]
  exact ⟨Int.natCast_nonneg n, Int.ofNat_lt.mpr (by omega)⟩

theorem mem_fileStrings_recorded {idx : τ → ℤ}
    {seg : Segment Byte} (hseg : seg ∈ ctx.fileStrings idx x) :
    ∃ w ∈ ctx.fileWrites idx x, w.2.stroff = seg.start := by
  rw [fileStrings, List.mem_append] at hseg
  rcases hseg with hseg | hseg
  · obtain ⟨y, hy, rfl⟩ := List.mem_map.mp hseg
    refine ⟨(idx y.1, ctx.symbolEntry x.1 y), ?_, symbolEntry_stroff x.1 y⟩
    exact List.mem_append_right _ (List.mem_map.mpr ⟨y, hy, rfl⟩)
  · split at hseg
    · next hdebug =>
        obtain rfl := List.mem_singleton.mp hseg
        obtain ⟨entry, hentry, hstroff⟩ : ∃ entry ∈ ctx.fileStabs
            (ctx.named idx x.1 x.2.strtab x.1.syms)
            (ctx.namesEnd idx x.1 x.2.strtab x.1.syms),
            entry.stroff = ctx.namesEnd idx x.1 x.2.strtab x.1.syms :=
          ⟨_, List.mem_cons_of_mem _ List.mem_cons_self, rfl⟩
        obtain ⟨i, hi⟩ := exists_mem_consecutive x.2.stabs hentry
        refine ⟨(i, entry), List.mem_append_left _ ?_, hstroff⟩
        rw [stabWrites, if_pos hdebug]
        exact hi
    · exact absurd hseg List.not_mem_nil

omit [DecidableEq τ] in
theorem mem_astStrings_recorded {seg : Segment Byte}
    (hseg : seg ∈ astStrings strtabInitImage.length ctx.addAstPath) :
    ∃ w ∈ ctx.astWrites, w.2.stroff = seg.start := by
  have hentry := List.mem_map_of_mem
    (f := fun seg : Segment Byte => { stroff := seg.start, nType := 0x32 : Nlist })
    hseg
  obtain ⟨i, hi⟩ := exists_mem_consecutive 0 hentry
  exact ⟨_, hi, rfl⟩

/-- If dylibs keep imported symbols only and files list kept symbols once, the
symbol table is partitioned among the files. -/
theorem partitioned_of_wellFormed (h : ctx.WellFormed) : ctx.Partitioned := by
  have htiles := h.tiles_strings
  have hdisjoint := htiles.pairwise_disjoint_of_filled
  have hmem : ∀ file ∈ ctx.files, ∀ s ∈ ctx.kept file, s ∈ ctx.allKept :=
    fun file hfile s hs => List.mem_flatMap.mpr ⟨file, hfile, hs⟩
  refine ⟨?_, ?_, ?_, h.map_fst_writes_perm, hdisjoint, ?_, ?_, ?_⟩
  · intro file hfile s hs
    exact h.inRange (hmem file hfile s hs)
  · intro file hfile s hs other hother t ht heq
    exact List.inj_on_of_nodup_map h.nodup_indices (hmem file hfile s hs)
      (hmem other hother t ht) heq
  · intro w hw hstab
    rw [writes, List.mem_append] at hw
    rcases hw with hw | hw
    · exact mem_astWrites_lt hw
    · obtain ⟨x, hx, hw⟩ := List.mem_flatMap.mp hw
      rw [fileWrites, List.mem_append] at hw
      rcases hw with hw | hw
      · exact h.mem_stabWrites_lt hx hw
      · obtain ⟨y, -, rfl⟩ := List.mem_map.mp hw
        exact absurd (symbolEntry_nType_lt x.1 y) (Nat.not_lt.mpr hstab)
  · intro seg hseg
    exact htiles.stop_le_of_filled (List.mem_cons_of_mem _ hseg)
  · intro seg hseg
    rw [strings, List.mem_append] at hseg
    rcases hseg with hseg | hseg
    · obtain ⟨w, hw, heq⟩ := mem_astStrings_recorded hseg
      exact ⟨w, List.mem_append_left _ hw, heq⟩
    · obtain ⟨x, hx, hseg⟩ := List.mem_flatMap.mp hseg
      obtain ⟨w, hw, heq⟩ := mem_fileStrings_recorded hseg
      exact ⟨w, List.mem_append_right _ (List.mem_flatMap.mpr ⟨x, hx, hw⟩), heq⟩
  · intro file hfile s hs
    have hplaced : file ∈ ctx.placed.map Prod.fst := by
      rwa [placed, map_fst_place]
    obtain ⟨x, hx, rfl⟩ := List.mem_map.mp hplaced
    have hnamed := ctx.map_fst_named ctx.outputSymtabIdx x.1 x.2.strtab x.1.syms
    rw [h.emits_eq hfile] at hnamed
    rw [← hnamed] at hs
    obtain ⟨y, hy, rfl⟩ := List.mem_map.mp hs
    refine ⟨ctx.symbolEntry x.1 y, ?_, ?_⟩
    · refine List.mem_append_right _ (List.mem_flatMap.mpr ⟨x, hx, ?_⟩)
      exact List.mem_append_right _ (List.mem_map.mpr ⟨y, hy, rfl⟩)
    · rw [symbolEntry_stroff]
      have hseg : ctx.nameString y ∈ ctx.strings := by
        refine List.mem_append_right _ (List.mem_flatMap.mpr ⟨x, hx, ?_⟩)
        exact List.mem_append_left _ (List.mem_map.mpr ⟨y, hy, rfl⟩)
      refine Segment.prefix_drop_foldl_write hdisjoint ?_ (List.mem_cons_of_mem _ hseg)
      intro seg hmem
      rw [List.length_replicate]
      exact htiles.stop_le_of_filled hmem

theorem Partitioned.getElem?_symtab (h : ctx.Partitioned) {i : ℤ} {entry : Nlist}
    (hw : (i, entry) ∈ ctx.writes) :
    ctx.symtab[i.toNat]? = some entry := by
  have hindex : ∀ w ∈ ctx.writes, ∃ n, w.1 = Int.ofNat n ∧ n < ctx.numSymbols := by
    intro w hw
    have hmem := h.slots.mem_iff.mp (List.mem_map_of_mem hw)
    obtain ⟨n, hn, heq⟩ := List.mem_map.mp hmem
    exact ⟨n, heq.symm, List.mem_range.mp hn⟩
  have hnodup : (ctx.writes.map Prod.fst).Nodup :=
    h.slots.nodup_iff.mpr (List.nodup_range.map fun _ _ => Int.ofNat.inj)
  have hdisjoint : (ctx.writes.map fun w =>
      (⟨w.1.toNat, [w.2]⟩ : Segment Nlist)).Pairwise Segment.Disjoint := by
    rw [List.pairwise_map]
    refine (List.pairwise_map.mp hnodup).imp_of_mem fun {v w} hv hw hne => ?_
    obtain ⟨m, hm, -⟩ := hindex v hv
    obtain ⟨n, hn, -⟩ := hindex w hw
    rw [hm, hn] at hne
    have hne' : m ≠ n := fun heq => hne (congrArg Int.ofNat heq)
    simp only [Segment.Disjoint, Segment.stop, hm, hn, Int.ofNat_eq_natCast,
      Int.toNat_natCast, List.length_singleton]
    omega
  have hfits : ∀ seg ∈ ctx.writes.map fun w =>
      (⟨w.1.toNat, [w.2]⟩ : Segment Nlist),
      seg.stop ≤ (List.replicate ctx.numSymbols ({} : Nlist)).length := by
    intro seg hseg
    obtain ⟨w, hw, rfl⟩ := List.mem_map.mp hseg
    obtain ⟨n, hn, hlt⟩ := hindex w hw
    simp only [Segment.stop, hn, Int.ofNat_eq_natCast, Int.toNat_natCast,
      List.length_singleton, List.length_replicate]
    exact hlt
  have hinit := Segment.prefix_drop_foldl_write hdisjoint hfits (List.mem_map_of_mem hw)
  obtain ⟨rest, hrest⟩ := hinit
  have hhead := congrArg List.head? hrest
  rw [List.head?_drop] at hhead
  exact hhead.symm

theorem Partitioned.exists_symtab_entry (h : ctx.Partitioned) {s : τ} (hs : s ∈ ctx.allKept) :
    ∃ n < ctx.numSymbols, ctx.outputSymtabIdx s = Int.ofNat n ∧
      ∃ entry, ctx.symtab[n]? = some entry ∧
        (ctx.sym s).name ++ [0] <+: ctx.strtab.drop entry.stroff := by
  obtain ⟨file, hfile, hmem⟩ := List.mem_flatMap.mp hs
  obtain ⟨entry, hw, hname⟩ := h.names file hfile s hmem
  have hslot := h.slots.mem_iff.mp (List.mem_map_of_mem (f := Prod.fst) hw)
  obtain ⟨n, hn, hidx⟩ := List.mem_map.mp hslot
  change Int.ofNat n = ctx.outputSymtabIdx s at hidx
  rw [← hidx] at hw
  exact ⟨n, List.mem_range.mp hn, hidx.symm, entry, h.getElem?_symtab hw, hname⟩

end Writing

end Context

/-- Four symbols: the functions `_f` and `_v` of an object file, `_g` of a
dylib, and the symbols that the linker defines. -/
def sampleSymbol (gImported : Bool) : Fin 4 → TableSymbol
  | 0 => { name := [95, 102], file := some (.obj 0),
           subsec := some { sectIdx := 1, inputSize := 4 }, addr := 4096 }
  | 1 => { name := [95, 118], file := some (.obj 0),
           subsec := some { isText := false, sectIdx := 2, inputSize := 8 },
           visibility := .scopeLocal, addr := 8192 }
  | 2 => { name := [95, 103], file := some (.dylib 0), hasGot := true,
           isImported := gImported }
  | 3 => { name := [95, 104], file := some (.dylib 0), hasStub := true,
           isImported := true }

def sampleLink (gImported : Bool) (syms : List (Option (Fin 4))) : Context (Fin 4) where
  sym := sampleSymbol gImported
  files := [
    { ref := .obj 0, syms := syms, hasDebugInfo := true, osoPath := [97] },
    { ref := .dylib 0, syms := [some 3, some 2], dylibIdx := 1 }]
  addAstPath := [[98]]
  dyldPrivate := 3
  mhDylibHeader := 3
  mhBundleHeader := 3
  dsoHandle := 3
  mhExecuteHeader := 3
  files_nodup := by simp

theorem sampleLink_partitioned : (sampleLink true [some 0, none, some 1]).Partitioned :=
  Context.partitioned_of_wellFormed ⟨by decide, by decide⟩

/-- A dylib symbol that is not imported gets the index of another symbol, and a
symbol that is listed twice leaves a slot empty. -/
theorem sampleLink_not_partitioned :
    ¬ (sampleLink false [some 0, some 1]).Partitioned ∧
      ¬ (sampleLink true [some 0, some 0]).Partitioned := by
  constructor
  · intro h
    have hdylib : { ref := .dylib 0, syms := [some 3, some 2], dylibIdx := 1 } ∈
        (sampleLink false [some 0, some 1]).files :=
      List.mem_cons_of_mem _ List.mem_cons_self
    have heq := h.unique _ hdylib 2 (by decide) _ hdylib 3 (by decide) (by decide)
    exact absurd heq (by decide)
  · intro h
    exact absurd h.slots (by decide)

end Mold.MachO.Symtab
