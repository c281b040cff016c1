import Mathlib.Data.List.ReduceOption
import Mold.MachO.Symtab

/-!
# Counting and numbering the kept symbols

The three loops over the symbols of a file select the kept symbols: counting
by the filters of `compute_symtab_size`, numbering and writing by the values
`-2` and `-1` of `output_symtab_idx`.  Numbering file by file with the offsets
that the counters give is one numbering by class of the kept symbols of all
files.

This needs that a dylib keeps only imported symbols, which it counts as
undefined whatever their flags are, and that no file lists a kept symbol twice.
-/

namespace Mold.MachO.Symtab

open Mold.Lib

namespace Context

variable {τ : Type*} (ctx : Context τ)

/-! ## Kept symbols -/

def kept (file : InputFile τ) : List τ :=
  file.syms.reduceOption.filter (ctx.keeps file)

/-- What the linker guarantees of the files before the symbol table is laid
out: dylib symbols with a stub or a GOT slot are imported, and no file lists a
symbol that it keeps twice. -/
structure WellFormed : Prop where
  imported : ∀ file ∈ ctx.files, file.ref.isDylib = true →
    ∀ s ∈ ctx.kept file, (ctx.sym s).isImported = true
  nodup : ∀ file ∈ ctx.files, (ctx.kept file).Nodup

variable {ctx} {file : InputFile τ}

theorem mem_kept {s : τ} : s ∈ ctx.kept file ↔ some s ∈ file.syms ∧ ctx.keeps file s = true := by
  rw [kept, List.mem_filter, List.reduceOption_mem_iff]

theorem file_eq_of_keeps {s : τ}
    (h : ctx.keeps file s = true) : (ctx.sym s).file = some file.ref := by
  rw [keeps] at h
  split at h
  · rw [dylibKeeps, Bool.and_eq_true, beq_iff_eq] at h
    exact h.1
  · simp only [objectKeeps, Bool.and_eq_true, beq_iff_eq] at h
    exact h.1.1.1

theorem file_unique {file other : InputFile τ} (hfile : file ∈ ctx.files)
    (hother : other ∈ ctx.files) (href : file.ref = other.ref) : file = other :=
  List.inj_on_of_nodup_map ctx.files_nodup hfile hother href

theorem WellFormed.countedClass_eq (h : ctx.WellFormed)
    (hfile : file ∈ ctx.files) {s : τ} (hs : s ∈ ctx.kept file) :
    ctx.countedClass file s = ctx.flagClass s := by
  rw [countedClass]
  split
  · next hdylib => rw [flagClass, if_pos (h.imported file hfile hdylib s hs)]
  · rfl

def allKept (ctx : Context τ) : List τ := ctx.files.flatMap ctx.kept

theorem WellFormed.nodup_allKept (h : ctx.WellFormed) : ctx.allKept.Nodup := by
  refine List.nodup_flatMap.mpr ⟨h.nodup, ?_⟩
  have hrefs : ctx.files.Pairwise fun f g => f.ref ≠ g.ref :=
    List.pairwise_map.mp ctx.files_nodup
  refine hrefs.imp fun {f g} hne => ?_
  intro s hf hg
  have hfile := file_eq_of_keeps (mem_kept.mp hf).2
  rw [file_eq_of_keeps (mem_kept.mp hg).2] at hfile
  exact hne (Option.some.inj hfile).symm

/-! ## Counting -/

theorem foldl_reduceOption_filter {S : Type*} (f : S → τ → S) (p : τ → Bool)
    (syms : List (Option τ)) (st : S) :
    syms.foldl (fun st s => match s with
      | none => st
      | some s => if p s then f st s else st) st =
      (syms.reduceOption.filter p).foldl f st := by
  induction syms generalizing st with
  | nil => rfl
  | cons s syms ih =>
    cases s with
    | none =>
      rw [List.foldl_cons, List.reduceOption_cons_of_none]
      exact ih st
    | some s =>
      rw [List.foldl_cons, List.reduceOption_cons_of_some, List.filter_cons]
      by_cases hs : p s = true
      · simp only [hs, if_true, List.foldl_cons]
        exact ih _
      · simp only [hs, if_false, Bool.false_eq_true]
        exact ih _

theorem get_incr (c : Counts) (k l : SymClass) :
    (c.incr k).get l = Function.update c.get k (c.get k + 1) l := by
  cases k <;> cases l <;> simp [Counts.incr, Counts.get]

theorem get_incr_eq (c : Counts) (k : SymClass) :
    (c.incr k).get = Function.update c.get k (c.get k + 1) :=
  funext (get_incr c k)

theorem get_add (c d : Counts) (k : SymClass) : (c.add d).get k = c.get k + d.get k := by
  cases k <;> rfl

theorem get_countSymbol (file : InputFile τ) (c : Counts) (s : τ) (k : SymClass) :
    (ctx.countSymbol file c s).get k = (c.incr (ctx.countedClass file s)).get k := by
  cases k <;> rfl

theorem get_foldl_countSymbol (file : InputFile τ) (c : Counts) (K : List τ) (k : SymClass) :
    (K.foldl (ctx.countSymbol file) c).get k =
      c.get k + classSize (ctx.countedClass file) K k := by
  induction K generalizing c with
  | nil => rfl
  | cons s K ih =>
    rw [List.foldl_cons, ih, get_countSymbol, get_incr, update_add_classSize]

theorem strtab_foldl_countSymbol (file : InputFile τ) (c : Counts) (K : List τ) :
    (K.foldl (ctx.countSymbol file) c).strtab =
      c.strtab + (K.map fun s => (ctx.sym s).name.length + 1).sum := by
  induction K generalizing c with
  | nil => rfl
  | cons s K ih =>
    have hstep : (ctx.countSymbol file c s).strtab = c.strtab + ((ctx.sym s).name.length + 1) := by
      simp only [countSymbol]
      cases ctx.countedClass file s <;> rfl
    rw [List.foldl_cons, ih, hstep, List.map_cons, List.sum_cons]
    omega

theorem stabs_foldl_countSymbol
    (h : (!file.ref.isDylib && ctx.emitDebugSyms file) = true) (c : Counts)
    (K : List τ) :
    (K.foldl (ctx.countSymbol file) c).stabs = c.stabs + (K.map ctx.numSymbolStabs).sum := by
  induction K generalizing c with
  | nil => rfl
  | cons s K ih =>
    have hstep : (ctx.countSymbol file c s).stabs = c.stabs + ctx.numSymbolStabs s := by
      simp only [countSymbol, h, if_true]
      cases ctx.countedClass file s <;> rfl
    rw [List.foldl_cons, ih, hstep, List.map_cons, List.sum_cons]
    omega

theorem stabs_foldl_countSymbol_of_no_debug
    (h : (!file.ref.isDylib && ctx.emitDebugSyms file) = false) (c : Counts)
    (K : List τ) : (K.foldl (ctx.countSymbol file) c).stabs = c.stabs := by
  induction K generalizing c with
  | nil => rfl
  | cons s K ih =>
    have hstep : (ctx.countSymbol file c s).stabs = c.stabs := by
      simp only [countSymbol, h]
      cases ctx.countedClass file s <;> rfl
    rw [List.foldl_cons, ih, hstep]

section Marking

variable [DecidableEq τ]

/-- Setting `output_symtab_idx` of some symbols to `-2`. -/
def mark (idx : τ → ℤ) (K : List τ) : τ → ℤ :=
  K.foldl (fun idx s => Function.update idx s (-2)) idx

theorem mark_apply (idx : τ → ℤ) (K : List τ) (t : τ) :
    mark idx K t = if t ∈ K then -2 else idx t := by
  induction K generalizing idx with
  | nil => rfl
  | cons s K ih =>
    have hstep : mark idx (s :: K) t = mark (Function.update idx s (-2)) K t := rfl
    rw [hstep, ih]
    by_cases ht : t ∈ K
    · simp [ht]
    · by_cases hts : t = s
      · simp [hts]
      · simp [ht, hts]

theorem computeSymtabSize_eq (file : InputFile τ) (idx : τ → ℤ) :
    ctx.computeSymtabSize file idx =
      ((ctx.kept file).foldl (ctx.countSymbol file) (ctx.initCounts file),
        mark idx (ctx.kept file)) := by
  have hfold : ctx.computeSymtabSize file idx =
      (ctx.kept file).foldl (fun st s =>
        (ctx.countSymbol file st.1 s, Function.update st.2 s (-2)))
        (ctx.initCounts file, idx) :=
    foldl_reduceOption_filter _ _ _ _
  rw [hfold]
  clear hfold
  generalize ctx.initCounts file = c
  induction ctx.kept file generalizing c idx with
  | nil => rfl
  | cons s K ih => rw [List.foldl_cons, ih]; rfl

theorem counts_eq (file : InputFile τ) :
    ctx.counts file = (ctx.kept file).foldl (ctx.countSymbol file) (ctx.initCounts file) := by
  rw [counts, computeSymtabSize_eq]

theorem get_counts (file : InputFile τ) (k : SymClass) :
    (ctx.counts file).get k = classSize (ctx.countedClass file) (ctx.kept file) k := by
  rw [counts_eq, get_foldl_countSymbol]
  have hinit : (ctx.initCounts file).get k = 0 := by
    rw [initCounts]
    split <;> cases k <;> rfl
  rw [hinit, Nat.zero_add]

theorem markedIdx_apply (t : τ) : ctx.markedIdx t = if t ∈ ctx.allKept then -2 else -1 := by
  have hfold : ∀ (files : List (InputFile τ)) (idx : τ → ℤ),
      files.foldl (fun idx file => (ctx.computeSymtabSize file idx).2) idx t =
        if t ∈ files.flatMap ctx.kept then -2 else idx t := by
    intro files
    induction files with
    | nil => intro idx; rfl
    | cons file files ih =>
      intro idx
      rw [List.foldl_cons, ih, computeSymtabSize_eq]
      simp only [mark_apply, List.flatMap_cons, List.mem_append]
      by_cases hrest : t ∈ files.flatMap ctx.kept
      · simp [hrest]
      · simp [hrest]
  exact hfold ctx.files _

end Marking

section Assigning

variable [DecidableEq τ]

theorem foldl_assignSymbol {syms : List (Option τ)}
    {c : Counts} {idx : τ → ℤ}
    (hselect : ∀ s, some s ∈ syms →
      ((ctx.sym s).file = some file.ref ∧ idx s = -2 ↔ ctx.keeps file s = true))
    (hnodup : (syms.reduceOption.filter (ctx.keeps file)).Nodup) :
    (syms.reduceOption.filter (ctx.keeps file)).map
        (syms.foldl (ctx.assignSymbol file) (c, idx)).2 =
      (number ctx.flagClass c.get (syms.reduceOption.filter (ctx.keeps file))).map Int.ofNat ∧
    ∀ t, t ∉ syms.reduceOption.filter (ctx.keeps file) →
      (syms.foldl (ctx.assignSymbol file) (c, idx)).2 t = idx t := by
  induction syms generalizing c idx with
  | nil => exact ⟨rfl, fun _ _ => rfl⟩
  | cons s syms ih =>
    have htail : ∀ t, some t ∈ syms → some t ∈ s :: syms :=
      fun t ht => List.mem_cons_of_mem s ht
    cases s with
    | none =>
      rw [List.reduceOption_cons_of_none] at hnodup ⊢
      exact ih (fun t ht => hselect t (htail t ht)) hnodup
    | some s =>
      rw [List.reduceOption_cons_of_some] at hnodup ⊢
      by_cases hs : ctx.keeps file s = true
      · rw [List.filter_cons_of_pos hs] at hnodup ⊢
        rw [List.nodup_cons] at hnodup
        have hfresh : ∀ t, ctx.keeps file t = true → some t ∈ syms → t ≠ s := by
          rintro t ht hmem rfl
          exact hnodup.1 (List.mem_filter.mpr
            ⟨List.reduceOption_mem_iff.mpr hmem, ht⟩)
        have hstep : ctx.assignSymbol file (c, idx) (some s) =
            (c.incr (ctx.flagClass s), Function.update idx s (c.get (ctx.flagClass s))) := by
          simp only [assignSymbol, if_pos ((hselect s List.mem_cons_self).mpr hs)]
        rw [List.foldl_cons, hstep]
        obtain ⟨hnumbers, hframe⟩ := @ih (c.incr (ctx.flagClass s))
          (Function.update idx s (c.get (ctx.flagClass s)))
          (by
            intro t ht
            by_cases hts : t = s
            · subst hts
              have hkept : some t ∈ syms := ht
              exact absurd rfl (hfresh t hs hkept)
            · rw [Function.update_of_ne hts]
              exact hselect t (htail t ht))
          hnodup.2
        refine ⟨?_, ?_⟩
        · rw [List.map_cons, hnumbers, hframe s hnodup.1,
            Function.update_self, number_cons, List.map_cons, get_incr_eq]
          rfl
        · intro t ht
          rw [List.mem_cons, not_or] at ht
          rw [hframe t ht.2, Function.update_of_ne ht.1]
      · rw [List.filter_cons_of_neg hs] at hnodup ⊢
        have hstep : ctx.assignSymbol file (c, idx) (some s) = (c, idx) := by
          simp only [assignSymbol]
          rw [if_neg fun h => hs ((hselect s List.mem_cons_self).mp h)]
        rw [List.foldl_cons, hstep]
        exact ih (fun t ht => hselect t (htail t ht)) hnodup

theorem foldl_assignFile {files : List (InputFile τ)} {o : Counts} {idx : τ → ℤ}
    (hclass : ∀ file ∈ files, ∀ s ∈ ctx.kept file, ctx.countedClass file s = ctx.flagClass s)
    (hselect : ∀ file ∈ files, ∀ s, some s ∈ file.syms →
      ((ctx.sym s).file = some file.ref ∧ idx s = -2 ↔ ctx.keeps file s = true))
    (hnodup : (files.flatMap ctx.kept).Nodup) :
    (files.flatMap ctx.kept).map ((ctx.place o files).foldl ctx.assignFile idx) =
      (number ctx.flagClass o.get (files.flatMap ctx.kept)).map Int.ofNat ∧
    ∀ t, t ∉ files.flatMap ctx.kept → (ctx.place o files).foldl ctx.assignFile idx t = idx t := by
  induction files generalizing o idx with
  | nil => exact ⟨rfl, fun _ _ => rfl⟩
  | cons file files ih =>
    rw [List.flatMap_cons, List.nodup_append'] at hnodup
    obtain ⟨hnodup, hnodups, hdisjoint⟩ := hnodup
    obtain ⟨hnumbers, hframe⟩ :
        (ctx.kept file).map (ctx.assignFile idx (file, o)) =
            (number ctx.flagClass o.get (ctx.kept file)).map Int.ofNat ∧
          ∀ t, t ∉ ctx.kept file → ctx.assignFile idx (file, o) t = idx t :=
      foldl_assignSymbol (hselect file List.mem_cons_self) hnodup
    have hsize : ∀ k, (o.add (ctx.counts file)).get k =
        o.get k + classSize ctx.flagClass (ctx.kept file) k := by
      intro k
      rw [get_add, get_counts, classSize, classSize]
      congr 1
      apply List.countP_congr
      intro s hs
      rw [hclass file List.mem_cons_self s hs]
    obtain ⟨htails, hframes⟩ := @ih (o.add (ctx.counts file)) (ctx.assignFile idx (file, o))
      (fun f hf => hclass f (List.mem_cons_of_mem file hf))
      (by
        intro f hf s hs
        by_cases hmem : s ∈ ctx.kept file
        · have hnone : ctx.keeps f s ≠ true := fun hkeeps =>
            hdisjoint hmem (List.mem_flatMap.mpr
              ⟨f, hf, mem_kept.mpr ⟨hs, hkeeps⟩⟩)
          have hidx : ctx.assignFile idx (file, o) s ∈
              (ctx.kept file).map (ctx.assignFile idx (file, o)) :=
            List.mem_map_of_mem hmem
          have hnumbered := hnumbers ▸ hidx
          obtain ⟨n, -, hn⟩ := List.mem_map.mp hnumbered
          rw [← hn]
          exact ⟨fun h => absurd h.2 (by simp), fun h => absurd h hnone⟩
        · have hsame : ctx.assignFile idx (file, o) s = idx s := hframe s hmem
          rw [hsame]
          exact hselect f (List.mem_cons_of_mem file hf) s hs)
      hnodups
    refine ⟨?_, ?_⟩
    · rw [List.flatMap_cons, List.map_append, number_append, List.map_append,
        place, List.foldl_cons, htails]
      congr 1
      · rw [← hnumbers]
        apply List.map_congr_left
        intro s hs
        exact hframes s fun hmem => hdisjoint hs hmem
      · rw [funext hsize]
    · intro t ht
      rw [List.flatMap_cons, List.mem_append, not_or] at ht
      rw [place, List.foldl_cons, hframes t ht.2]
      exact hframe t ht.1

theorem WellFormed.outputSymtabIdx_eq (h : ctx.WellFormed) :
    ctx.allKept.map ctx.outputSymtabIdx =
        (number ctx.flagClass ctx.firstOffsets.get ctx.allKept).map Int.ofNat ∧
      ∀ t, t ∉ ctx.allKept → ctx.outputSymtabIdx t = -1 := by
  have hselect : ∀ file ∈ ctx.files, ∀ s, some s ∈ file.syms →
      ((ctx.sym s).file = some file.ref ∧ ctx.markedIdx s = -2 ↔ ctx.keeps file s = true) := by
    intro file hfile s hs
    rw [markedIdx_apply]
    constructor
    · rintro ⟨howner, hidx⟩
      have hmem : s ∈ ctx.allKept := by
        by_contra hnot
        rw [if_neg hnot] at hidx
        exact absurd hidx (by decide)
      obtain ⟨other, hother, hkept⟩ := List.mem_flatMap.mp hmem
      have hkeeps := (mem_kept.mp hkept).2
      have href := file_eq_of_keeps hkeeps
      rw [howner, Option.some_inj] at href
      rwa [file_unique hfile hother href]
    · intro hkeeps
      have hmem : s ∈ ctx.allKept :=
        List.mem_flatMap.mpr ⟨file, hfile, mem_kept.mpr ⟨hs, hkeeps⟩⟩
      exact ⟨file_eq_of_keeps hkeeps, if_pos hmem⟩
  obtain ⟨hnumbers, hframe⟩ := foldl_assignFile (o := ctx.firstOffsets)
    (fun file hfile s hs => h.countedClass_eq hfile hs) hselect h.nodup_allKept
  refine ⟨hnumbers, ?_⟩
  intro t ht
  rw [outputSymtabIdx, placed, hframe t ht, markedIdx_apply, if_neg ht]

theorem measure_foldl_add {m : Counts → ℕ}
    (hm : ∀ c d, m (c.add d) = m c + m d) (cs : List Counts) (c : Counts) :
    m (cs.foldl Counts.add c) = m c + (cs.map m).sum := by
  induction cs generalizing c with
  | nil => rfl
  | cons d cs ih => rw [List.foldl_cons, ih, hm, List.map_cons, List.sum_cons, Nat.add_assoc]

theorem flatMap_place_range {m : Counts → ℕ} (hm : ∀ c d, m (c.add d) = m c + m d) (o : Counts)
    (files : List (InputFile τ)) :
    (ctx.place o files).flatMap (fun x => List.range' (m x.2) (m (ctx.counts x.1))) =
      List.range' (m o) (files.map fun file => m (ctx.counts file)).sum := by
  induction files generalizing o with
  | nil => rfl
  | cons file files ih =>
    rw [place, List.flatMap_cons, ih, hm, List.map_cons, List.sum_cons, List.range'_append_1]

theorem classSize_allKept (h : ctx.WellFormed) (k : SymClass) :
    classSize ctx.flagClass ctx.allKept k = (ctx.total ctx.files).get k := by
  have hsum := measure_foldl_add (m := fun c => c.get k)
    (fun c d => get_add c d k) (ctx.files.map ctx.counts) {}
  have hinit : Counts.get {} k = 0 := by cases k <;> rfl
  rw [total, hsum, hinit, Nat.zero_add, List.map_map, classSize, allKept, List.countP_flatMap]
  congr 1
  apply List.map_congr_left
  intro file hfile
  simp only [Function.comp_apply, get_counts, classSize]
  apply List.countP_congr
  intro s hs
  rw [h.countedClass_eq hfile hs]

theorem number_allKept_perm (h : ctx.WellFormed) :
    (number ctx.flagClass ctx.firstOffsets.get ctx.allKept).Perm
      (List.range' ctx.firstOffsets.locals (ctx.numSymbols - ctx.firstOffsets.locals)) := by
  have hnodup : [SymClass.locals, .globals, .undefs].Nodup := by decide
  have hcover : ∀ s ∈ ctx.allKept, ctx.flagClass s ∈ [SymClass.locals, .globals, .undefs] := by
    intro s _
    cases ctx.flagClass s <;> decide
  have hperm := number_perm ctx.firstOffsets.get ctx.allKept hnodup hcover
  simp only [List.flatMap_cons, List.flatMap_nil, classSize_allKept h, List.append_nil] at hperm
  refine hperm.trans (List.Perm.of_eq ?_)
  have hlast : ctx.firstOffsets.get .undefs =
      ctx.firstOffsets.get .globals + (ctx.total ctx.files).get .globals := rfl
  have hmiddle : ctx.firstOffsets.get .globals =
      ctx.firstOffsets.get .locals + (ctx.total ctx.files).get .locals := rfl
  have hsize : ctx.numSymbols = ctx.firstOffsets.get .undefs +
      (ctx.total ctx.files).get .undefs := rfl
  have hstart : ctx.firstOffsets.locals = ctx.firstOffsets.get .locals := rfl
  rw [hlast, List.range'_append_1, hmiddle, List.range'_append_1, hstart]
  congr 1
  omega

end Assigning

end Context

end Mold.MachO.Symtab
