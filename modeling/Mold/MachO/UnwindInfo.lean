import Mold.MachO.EhFrame
import Mold.Lib.StableSort
import Mathlib.Data.List.TakeWhile

/-!
# Unwind records in pages

`UnwindInfoSection::compute_size` sorts the unwind records by the addresses of
their functions, merges neighbours that say the same, and splits the result into
groups, each of which becomes a second-level page of `__unwind_info`.  The
address of a function is that of its subsection at the time of the call plus the
offset of the record.
-/

namespace Mold.MachO.UnwindInfo

open Mold.Lib Mold.MachO.EhFrame

variable {σ τ : Type*}

/-- `UnwindRecord::get_func_addr` for the given addresses of subsections. -/
def getFuncAddr (addr : σ → ℕ) (rec : EhFrame.UnwindRecord σ τ) : ℕ :=
  addr rec.subsec + rec.inputOffset

def sortRecords (addr : σ → ℕ) (records : List (EhFrame.UnwindRecord σ τ)) :
    List (EhFrame.UnwindRecord σ τ) :=
  records.mergeSort fun a b => decide (getFuncAddr addr a ≤ getFuncAddr addr b)

/-- The mode `STACK_IND` of x86-64, whose encodings do not say everything. -/
def isStackInd : Target → ℕ → Bool
  | .x86_64, encoding => encoding / 2 ^ 24 % 16 == 3
  | .arm64, _ => false

section Merge

variable [DecidableEq τ] (target : Target) (addr : σ → ℕ)

def canMerge (a b : EhFrame.UnwindRecord σ τ) : Bool :=
  !(isStackInd target a.encoding || isStackInd target b.encoding) &&
    getFuncAddr addr a + a.codeLen == getFuncAddr addr b &&
    a.encoding == b.encoding && a.personality == b.personality && a.fde == b.fde &&
    a.lsda.isNone && b.lsda.isNone

/-- The loop of `merge_unwind_records` with the record `records[i]`. -/
def mergeFrom (rec : EhFrame.UnwindRecord σ τ) :
    List (EhFrame.UnwindRecord σ τ) → List (EhFrame.UnwindRecord σ τ)
  | [] => [rec]
  | next :: rest =>
    if canMerge target addr rec next then
      mergeFrom { rec with codeLen := (rec.codeLen + next.codeLen) % 2 ^ 32 } rest
    else
      rec :: mergeFrom next rest

def mergeUnwindRecords : List (EhFrame.UnwindRecord σ τ) → List (EhFrame.UnwindRecord σ τ)
  | [] => []
  | rec :: rest => mergeFrom target addr rec rest

end Merge

/-- The number of records behind `first` in its group. -/
def groupLength (addr : σ → ℕ) (first : EhFrame.UnwindRecord σ τ)
    (rest : List (EhFrame.UnwindRecord σ τ)) : ℕ :=
  min 199 (rest.takeWhile fun rec =>
    decide (getFuncAddr addr rec < getFuncAddr addr first + 2 ^ 24)).length

def splitRecords (addr : σ → ℕ) :
    List (EhFrame.UnwindRecord σ τ) → List (List (EhFrame.UnwindRecord σ τ))
  | [] => []
  | first :: rest =>
    (first :: rest.take (groupLength addr first rest)) ::
      splitRecords addr (rest.drop (groupLength addr first rest))
termination_by records => records.length
decreasing_by
  rw [List.length_cons, List.length_drop]
  omega

/-- The groups that `compute_size` makes. -/
def pages [DecidableEq τ] (target : Target) (addr : σ → ℕ)
    (records : List (EhFrame.UnwindRecord σ τ)) :
    List (List (EhFrame.UnwindRecord σ τ)) :=
  splitRecords addr (mergeUnwindRecords target addr (sortRecords addr records))

/-! ## Facts about the groups -/

def withoutLen (rec : EhFrame.UnwindRecord σ τ) : EhFrame.UnwindRecord σ τ :=
  { rec with codeLen := 0 }

@[simp] theorem getFuncAddr_withoutLen (addr : σ → ℕ) (rec : EhFrame.UnwindRecord σ τ) :
    getFuncAddr addr (withoutLen rec) = getFuncAddr addr rec := rfl

theorem mergeFrom_sublist [DecidableEq τ] (target : Target) (addr : σ → ℕ)
    (rec : EhFrame.UnwindRecord σ τ) (rest : List (EhFrame.UnwindRecord σ τ)) :
    ((mergeFrom target addr rec rest).map withoutLen).Sublist ((rec :: rest).map withoutLen) := by
  induction rest generalizing rec with
  | nil => exact List.Sublist.refl _
  | cons next rest ih =>
    rw [mergeFrom]
    split
    · exact (ih _).trans (List.Sublist.cons_cons _ (List.sublist_cons_self _ _))
    · exact List.Sublist.cons_cons _ (ih next)

theorem mergeUnwindRecords_sublist [DecidableEq τ] (target : Target) (addr : σ → ℕ)
    (records : List (EhFrame.UnwindRecord σ τ)) :
    ((mergeUnwindRecords target addr records).map withoutLen).Sublist
      (records.map withoutLen) := by
  cases records with
  | nil => exact List.Sublist.refl _
  | cons rec rest => exact mergeFrom_sublist target addr rec rest

theorem splitRecords_flatten (addr : σ → ℕ) (records : List (EhFrame.UnwindRecord σ τ)) :
    (splitRecords addr records).flatten = records := by
  induction records using splitRecords.induct addr with
  | case1 => rw [splitRecords, List.flatten_nil]
  | case2 first rest ih =>
    rw [splitRecords, List.flatten_cons, ih, List.cons_append, List.take_append_drop]

theorem lt_of_mem_splitRecords {addr : σ → ℕ} {records : List (EhFrame.UnwindRecord σ τ)}
    {first : EhFrame.UnwindRecord σ τ} {rest : List (EhFrame.UnwindRecord σ τ)}
    (h : first :: rest ∈ splitRecords addr records) :
    rest.length < 200 ∧ ∀ rec ∈ rest, getFuncAddr addr rec < getFuncAddr addr first + 2 ^ 24 := by
  induction records using splitRecords.induct addr with
  | case1 =>
    rw [splitRecords] at h
    exact absurd h List.not_mem_nil
  | case2 first' rest' ih =>
    rw [splitRecords] at h
    rcases List.mem_cons.mp h with heq | h
    · obtain ⟨rfl, rfl⟩ := List.cons.inj heq
      constructor
      · rw [List.length_take, groupLength]
        omega
      · intro rec hrec
        have hinit : rest'.take (groupLength addr first rest') <+:
            rest'.takeWhile fun rec =>
              decide (getFuncAddr addr rec < getFuncAddr addr first + 2 ^ 24) := by
          refine List.prefix_of_prefix_length_le (List.take_prefix _ _)
            (List.takeWhile_prefix _) ?_
          rw [List.length_take, groupLength]
          omega
        have himp := List.mem_takeWhile_imp (hinit.subset hrec)
        exact of_decide_eq_true himp
    · exact ih h

theorem ne_nil_of_mem_splitRecords {addr : σ → ℕ}
    {records page : List (EhFrame.UnwindRecord σ τ)}
    (h : page ∈ splitRecords addr records) : page ≠ [] := by
  induction records using splitRecords.induct addr with
  | case1 =>
    rw [splitRecords] at h
    exact absurd h List.not_mem_nil
  | case2 first rest ih =>
    rw [splitRecords] at h
    rcases List.mem_cons.mp h with rfl | h
    · exact List.cons_ne_nil _ _
    · exact ih h

theorem pairwise_sortRecords (addr : σ → ℕ) (records : List (EhFrame.UnwindRecord σ τ)) :
    (sortRecords addr records).Pairwise fun a b =>
      getFuncAddr addr a ≤ getFuncAddr addr b :=
  pairwise_mergeSort_key (getFuncAddr addr) records

section Pages

variable [DecidableEq τ] {target : Target} {addr : σ → ℕ}
variable {records : List (EhFrame.UnwindRecord σ τ)}

theorem pages_flatten :
    (pages target addr records).flatten =
      mergeUnwindRecords target addr (sortRecords addr records) :=
  splitRecords_flatten _ _

theorem pairwise_pages :
    (pages target addr records).flatten.Pairwise fun a b =>
      getFuncAddr addr a ≤ getFuncAddr addr b := by
  have hsorted : ((sortRecords addr records).map withoutLen).Pairwise fun a b =>
      getFuncAddr addr a ≤ getFuncAddr addr b :=
    List.pairwise_map.mpr (pairwise_sortRecords addr records)
  have hmerged := hsorted.sublist
    (mergeUnwindRecords_sublist target addr (sortRecords addr records))
  rw [List.pairwise_map] at hmerged
  rw [pages_flatten]
  exact hmerged

theorem exists_of_mem_pages {page : List (EhFrame.UnwindRecord σ τ)}
    {rec : EhFrame.UnwindRecord σ τ} (hpage : page ∈ pages target addr records)
    (hrec : rec ∈ page) :
    ∃ rec' ∈ records, withoutLen rec' = withoutLen rec := by
  have hmem : rec ∈ mergeUnwindRecords target addr (sortRecords addr records) := by
    rw [← pages_flatten]
    exact List.mem_flatten.mpr ⟨page, hpage, hrec⟩
  have hsub := (mergeUnwindRecords_sublist target addr (sortRecords addr records)).subset
    (List.mem_map_of_mem hmem)
  obtain ⟨rec', hrec', heq⟩ := List.mem_map.mp hsub
  exact ⟨rec', List.mem_mergeSort.mp hrec', heq⟩

end Pages

end Mold.MachO.UnwindInfo
