import Mold.MachO.SplitFile
import Mathlib.Data.List.TakeWhile

/-!
# Relocations of subsections

The relocations of a section are sorted by their offsets.  `parseRelocations` models the
loop of `parse_relocations` of `input-sections.cc` that gives each subsection a span of
them and makes their offsets relative to the subsection.  A cursor goes over the
relocations, and each subsection takes what is before its end.
-/

namespace Mold.MachO.Subsections

structure Relocation (τ σ : Type*) where
  target : RelocTarget τ σ
  addend : Int64
  offset : UInt32
  type : UInt8
  size : UInt8
  isSubtracted : Bool

variable {τ σ : Type*}

def inputOffset (isec : InputSection) (s : Span) : UInt32 :=
  (s.inputAddr.toUInt64 - isec.addr).toUInt32

def Relocation.rebase (off : UInt32) (r : Relocation τ σ) : Relocation τ σ :=
  { r with offset := r.offset - off }

def isBefore (isec : InputSection) (s : Span) (r : Relocation τ σ) : Bool :=
  r.offset < inputOffset isec s + s.inputSize

/-- The loop over the subsections, where `i` is the cursor and `rels` are the relocations
from it on.  The results are the spans `(rel_offset, nrels)` and the relocations. -/
def assignRelocations (isec : InputSection) :
    ℕ → List Span → List (Relocation τ σ) → List (ℕ × ℕ) × List (Relocation τ σ)
  | _, [], rels => ([], rels)
  | i, s :: l, rels =>
    let taken := rels.takeWhile (isBefore isec s)
    let rest := assignRelocations isec (i + taken.length) l (rels.dropWhile (isBefore isec s))
    ((i, taken.length) :: rest.1, taken.map (Relocation.rebase (inputOffset isec s)) ++ rest.2)

/-- `parse_relocations` behind the sorting. -/
def parseRelocations (isec : InputSection) (subsecs : List Span)
    (rels : List (Relocation τ σ)) : List (ℕ × ℕ) × List (Relocation τ σ) :=
  match rels, subsecs with
  | [], _ => (subsecs.map fun _ => (0, 0), [])
  | rels, [s] =>
    ([(0, rels.length)],
      if inputOffset isec s = 0 then rels
      else rels.map (Relocation.rebase (inputOffset isec s)))
  | rels, subsecs => assignRelocations isec 0 subsecs rels

def getRels (rels : List (Relocation τ σ)) (span : ℕ × ℕ) : List (Relocation τ σ) :=
  (rels.drop span.1).take span.2

/-! ## Specification -/

def Relocation.inputAddr (isec : InputSection) (r : Relocation τ σ) : ℕ :=
  isec.addr.toNat + r.offset.toNat

def relsIn (isec : InputSection) (rels : List (Relocation τ σ)) (s : Span) :
    List (Relocation τ σ) :=
  (rels.filter fun r => s.Contains (r.inputAddr isec)).map fun r =>
    { r with offset := UInt32.ofNat (r.inputAddr isec - s.inputAddr.toNat) }

structure Distributed (isec : InputSection) (subsecs : List Span)
    (rels : List (Relocation τ σ)) (out : List (ℕ × ℕ) × List (Relocation τ σ)) : Prop where
  getRels : out.1.map (getRels out.2) = subsecs.map (relsIn isec rels)
  partition : Consecutive 0 out.1 rels.length

structure Sorted (isec : InputSection) (rels : List (Relocation τ σ)) : Prop where
  ascending : rels.Pairwise fun r r' => r.offset ≤ r'.offset
  inside : ∀ r ∈ rels, r.offset.toNat < isec.size.toNat

/-- The end of the subsection is a 32-bit offset, or no relocation is at its beginning or
behind. -/
def EndFits (isec : InputSection) (rels : List (Relocation τ σ)) (s : Span) : Prop :=
  s.inputEnd < isec.addr.toNat + 2 ^ 32 ∨ ∀ r ∈ rels, r.inputAddr isec < s.inputAddr.toNat

section

variable {isec : InputSection} {s : Span}

theorem inputOffset_toNat (h : isec.addr.toNat ≤ s.inputAddr.toNat) :
    (inputOffset isec s).toNat = s.inputAddr.toNat - isec.addr.toNat := by
  have hle : isec.addr ≤ s.inputAddr.toUInt64 := h
  have hlt := s.inputAddr.toNat_lt
  rw [inputOffset, UInt64.toNat_toUInt32, UInt64.toNat_sub_of_le _ _ hle, UInt32.toNat_toUInt64]
  omega

theorem isBefore_iff (h : isec.addr.toNat ≤ s.inputAddr.toNat)
    (hfits : s.inputEnd < isec.addr.toNat + 2 ^ 32) (r : Relocation τ σ) :
    isBefore isec s r = true ↔ r.inputAddr isec < s.inputEnd := by
  rw [isBefore, decide_eq_true_eq, UInt32.lt_iff_toNat_lt, UInt32.toNat_add, inputOffset_toNat h]
  simp only [Span.inputEnd, Relocation.inputAddr] at *
  omega

theorem not_isBefore (h : isec.addr.toNat ≤ s.inputAddr.toNat)
    (hwrap : isec.addr.toNat + 2 ^ 32 ≤ s.inputEnd) {r : Relocation τ σ}
    (hr : s.inputAddr.toNat ≤ r.inputAddr isec) : isBefore isec s r = false := by
  have haddr := s.inputAddr.toNat_lt
  have hsize := s.inputSize.toNat_lt
  rw [isBefore, decide_eq_false_iff_not, UInt32.lt_iff_toNat_lt, UInt32.toNat_add,
    inputOffset_toNat h]
  simp only [Span.inputEnd, Relocation.inputAddr] at *
  omega

theorem rebase_eq (h : isec.addr.toNat ≤ s.inputAddr.toNat) {r : Relocation τ σ}
    (hr : s.Contains (r.inputAddr isec)) :
    r.rebase (inputOffset isec s) =
      { r with offset := UInt32.ofNat (r.inputAddr isec - s.inputAddr.toNat) } := by
  have hoff := inputOffset_toNat h
  have hle : inputOffset isec s ≤ r.offset := by
    have hlo := hr.1
    rw [UInt32.le_iff_toNat_le, hoff]
    simp only [Relocation.inputAddr] at hlo
    omega
  have heq : r.offset - inputOffset isec s =
      UInt32.ofNat (r.inputAddr isec - s.inputAddr.toNat) := by
    have hlt := r.offset.toNat_lt
    apply UInt32.toNat_inj.mp
    rw [UInt32.toNat_sub_of_le _ _ hle, hoff, UInt32.toNat_ofNat']
    simp only [Relocation.inputAddr]
    omega
  rw [Relocation.rebase, heq]

end

/-! ## All subsections -/

section

variable {isec : InputSection}

theorem takeWhile_eq_filter {α : Type*} {p : α → Bool} {l : List α}
    (h : l.Pairwise fun x y => p y = true → p x = true) :
    l.takeWhile p = l.filter p ∧ l.dropWhile p = l.filter fun x => !p x := by
  induction l with
  | nil => exact ⟨rfl, rfl⟩
  | cons x l ih =>
    obtain ⟨hx, hl⟩ := List.pairwise_cons.mp h
    cases hp : p x with
    | true => simp [hp, ih hl]
    | false =>
      have hno : ∀ y ∈ l, p y = false := fun y hy => by
        by_contra hpy
        rw [hx y hy (by simpa using hpy)] at hp
        cases hp
      have hfilter : l.filter p = [] :=
        List.filter_eq_nil_iff.mpr fun y hy => by simp [hno y hy]
      have hfilter' : l.filter (fun x => !p x) = l :=
        List.filter_eq_self.mpr fun y hy => by simp [hno y hy]
      simp [hp, hfilter, hfilter']

variable {rels : List (Relocation τ σ)}

theorem takeWhile_isBefore {s : Span} (h : isec.addr.toNat ≤ s.inputAddr.toNat)
    (hfits : s.inputEnd < isec.addr.toNat + 2 ^ 32)
    (hsorted : rels.Pairwise fun r r' => r.offset ≤ r'.offset)
    (hlo : ∀ r ∈ rels, s.inputAddr.toNat ≤ r.inputAddr isec) :
    (rels.takeWhile (isBefore isec s)).map (Relocation.rebase (inputOffset isec s)) =
        relsIn isec rels s ∧
      (∀ r ∈ rels.dropWhile (isBefore isec s), s.inputEnd ≤ r.inputAddr isec) ∧
      ∀ t : Span, s.inputEnd ≤ t.inputAddr.toNat →
        relsIn isec (rels.dropWhile (isBefore isec s)) t = relsIn isec rels t := by
  have hprefix : rels.Pairwise fun r r' =>
      isBefore isec s r' = true → isBefore isec s r = true := by
    refine hsorted.imp fun {r r'} hle hr' => ?_
    rw [isBefore_iff h hfits] at hr' ⊢
    exact Nat.lt_of_le_of_lt (Nat.add_le_add_left hle _) hr'
  obtain ⟨htake, hdrop⟩ := takeWhile_eq_filter hprefix
  have hcontains : ∀ r ∈ rels, isBefore isec s r = decide (s.Contains (r.inputAddr isec)) := by
    intro r hr
    rw [Bool.eq_iff_iff, isBefore_iff h hfits, decide_eq_true_eq]
    exact ⟨fun hlt => ⟨hlo r hr, hlt⟩, And.right⟩
  refine ⟨?_, fun r hr => ?_, fun t ht => ?_⟩
  · rw [htake, relsIn, List.filter_congr hcontains]
    refine List.map_congr_left fun r hr => rebase_eq h ?_
    exact of_decide_eq_true (List.mem_filter.mp hr).2
  · rw [hdrop] at hr
    have hno := (List.mem_filter.mp hr).2
    rw [Bool.not_eq_true', ← Bool.not_eq_true, isBefore_iff h hfits] at hno
    exact Nat.le_of_not_lt hno
  · rw [hdrop, relsIn, relsIn, List.filter_filter]
    congr 1
    refine List.filter_congr fun r hr => ?_
    rw [Bool.and_eq_left_iff_imp, decide_eq_true_eq, Bool.not_eq_true', ← Bool.not_eq_true,
      isBefore_iff h hfits]
    exact fun hin => Nat.not_lt.mpr (Nat.le_trans ht hin.1)

theorem getRels_append (pre taken rest : List (Relocation τ σ)) :
    getRels (pre ++ (taken ++ rest)) (pre.length, taken.length) = taken := by
  rw [getRels, List.drop_left, List.take_left]

theorem eq_nil_of_wrap {s : Span} (hwrap : isec.addr.toNat + 2 ^ 32 ≤ s.inputEnd)
    (hlo : ∀ r ∈ rels, s.inputAddr.toNat ≤ r.inputAddr isec)
    (h : relsIn isec rels s = [] ∨ ∀ r ∈ rels, r.inputAddr isec < s.inputAddr.toNat) :
    rels = [] := by
  refine List.eq_nil_iff_forall_not_mem.mpr fun r hr => ?_
  rcases h with h | h
  · rw [relsIn, List.map_eq_nil_iff, List.filter_eq_nil_iff] at h
    have hlt := r.offset.toNat_lt
    refine h r hr (decide_eq_true ⟨hlo r hr, ?_⟩)
    simp only [Relocation.inputAddr]
    omega
  · exact absurd (h r hr) (Nat.not_lt.mpr (hlo r hr))

theorem endFits_dropWhile {s t : Span} (h : isec.addr.toNat ≤ s.inputAddr.toNat)
    (hfits : s.inputEnd < isec.addr.toNat + 2 ^ 32) (ht : s.inputEnd ≤ t.inputAddr.toNat) :
    EndFits isec (rels.dropWhile (isBefore isec s)) t ↔ EndFits isec rels t := by
  refine or_congr Iff.rfl ⟨fun hdrop r hr => ?_, fun hall r hr => ?_⟩
  · rw [← List.takeWhile_append_dropWhile (p := isBefore isec s) (l := rels),
      List.mem_append] at hr
    rcases hr with hr | hr
    · have hlt := (isBefore_iff h hfits r).mp (List.mem_takeWhile_imp hr)
      exact Nat.lt_of_lt_of_le hlt ht
    · exact hdrop r hr
  · exact hall r ((List.dropWhile_sublist _).subset hr)

theorem assignRelocations_iff {lo hi : ℕ} {l : List Span}
    (htiles : Tiles lo l hi) (hbase : isec.addr.toNat ≤ lo)
    (hsorted : rels.Pairwise fun r r' => r.offset ≤ r'.offset)
    (hlo : ∀ r ∈ rels, lo ≤ r.inputAddr isec) (pre : List (Relocation τ σ)) :
    (assignRelocations isec pre.length l rels).1.map
          (getRels (pre ++ (assignRelocations isec pre.length l rels).2)) =
        l.map (relsIn isec rels) ↔ ∀ s ∈ l, EndFits isec rels s := by
  induction l generalizing lo rels pre with
  | nil => exact ⟨fun _ s hs => absurd hs List.not_mem_nil, fun _ => rfl⟩
  | cons s l ih =>
    obtain ⟨rfl, htiles⟩ := htiles
    have hend : isec.addr.toNat ≤ s.inputEnd := Nat.le_add_right_of_le hbase
    have hnext : ∀ t ∈ l, s.inputEnd ≤ t.inputAddr.toNat := fun t ht =>
      (htiles.bounds t ht).1
    rw [assignRelocations]
    simp only [List.map_cons, List.forall_mem_cons, List.cons_eq_cons]
    by_cases hfits : s.inputEnd < isec.addr.toNat + 2 ^ 32
    · obtain ⟨htake, hdrop, hrest⟩ := takeWhile_isBefore hbase hfits hsorted hlo
      have hih := ih htiles hend (hsorted.sublist (List.dropWhile_sublist _)) hdrop
        (pre ++ (rels.takeWhile (isBefore isec s)).map (Relocation.rebase (inputOffset isec s)))
      rw [List.length_append, List.length_map, List.append_assoc] at hih
      refine and_congr ?_ (Iff.trans ?_ (hih.trans ?_))
      · have hhead := getRels_append pre
          ((rels.takeWhile (isBefore isec s)).map (Relocation.rebase (inputOffset isec s)))
          (assignRelocations isec (pre.length + (rels.takeWhile (isBefore isec s)).length) l
            (rels.dropWhile (isBefore isec s))).2
        rw [List.length_map] at hhead
        exact iff_of_true (hhead.trans htake) (.inl hfits)
      · rw [List.map_congr_left fun t ht => hrest t (hnext t ht)]
      · exact forall₂_congr fun t ht => endFits_dropWhile hbase hfits (hnext t ht)
    · have hwrap := Nat.le_of_not_lt hfits
      have hno : ∀ r ∈ rels, isBefore isec s r = false := fun r hr =>
        not_isBefore hbase hwrap (hlo r hr)
      have htake : rels.takeWhile (isBefore isec s) = [] := by
        cases rels with
        | nil => rfl
        | cons r rels => exact List.takeWhile_cons_of_neg (by simp [hno r List.mem_cons_self])
      constructor
      · rintro ⟨hhead, -⟩
        rw [htake, getRels, List.length_nil, List.take_zero] at hhead
        obtain rfl := eq_nil_of_wrap hwrap hlo (.inl hhead.symm)
        have hnil : ∀ t, EndFits isec ([] : List (Relocation τ σ)) t := fun t =>
          .inr fun r hr => absurd hr List.not_mem_nil
        exact ⟨hnil s, fun t _ => hnil t⟩
      · rintro ⟨hs, hl⟩
        obtain rfl := eq_nil_of_wrap hwrap hlo (.inr (hs.resolve_left hfits))
        refine ⟨?_, ?_⟩
        · rw [htake, getRels, List.length_nil, List.take_zero]
          rfl
        · exact (ih htiles hend List.Pairwise.nil
            (fun r hr => absurd hr List.not_mem_nil) pre).mpr hl

theorem consecutive_assignRelocations {lo hi : ℕ} {l : List Span}
    (htiles : Tiles lo l hi) (hbase : isec.addr.toNat ≤ lo)
    (hsorted : rels.Pairwise fun r r' => r.offset ≤ r'.offset)
    (hlo : ∀ r ∈ rels, lo ≤ r.inputAddr isec) (hhi : ∀ r ∈ rels, r.inputAddr isec < hi)
    (hfits : ∀ s ∈ l, EndFits isec rels s) (i : ℕ) :
    Consecutive i (assignRelocations isec i l rels).1 (i + rels.length) := by
  induction l generalizing lo rels i with
  | nil =>
    have hnil : rels = [] := List.eq_nil_iff_forall_not_mem.mpr fun r hr => by
      have hle := hlo r hr
      have hlt := hhi r hr
      rw [Tiles] at htiles
      omega
    rw [hnil]
    exact rfl
  | cons s l ih =>
    obtain ⟨rfl, htiles⟩ := htiles
    obtain ⟨hs, hl⟩ := List.forall_mem_cons.mp hfits
    have hend : isec.addr.toNat ≤ s.inputEnd := Nat.le_add_right_of_le hbase
    have hsplit := congrArg List.length
      (List.takeWhile_append_dropWhile (p := isBefore isec s) (l := rels))
    rw [List.length_append] at hsplit
    have hsub := List.dropWhile_sublist (l := rels) (isBefore isec s)
    refine ⟨rfl, ?_⟩
    rw [← hsplit, ← Nat.add_assoc]
    by_cases hsfits : s.inputEnd < isec.addr.toNat + 2 ^ 32
    · obtain ⟨-, hdrop, -⟩ := takeWhile_isBefore hbase hsfits hsorted hlo
      exact ih htiles hend (hsorted.sublist hsub) hdrop (fun r hr => hhi r (hsub.subset hr))
        (fun t ht => (endFits_dropWhile hbase hsfits (htiles.bounds t ht).1).mpr (hl t ht)) _
    · obtain rfl := eq_nil_of_wrap (Nat.le_of_not_lt hsfits) hlo (.inr (hs.resolve_left hsfits))
      exact ih htiles hend List.Pairwise.nil (fun r hr => absurd hr List.not_mem_nil)
        (fun r hr => absurd hr List.not_mem_nil) (fun t ht => hl t ht) _

theorem consecutive_zero (l : List Span) : Consecutive 0 (l.map fun _ => (0, 0)) 0 := by
  induction l with
  | nil => exact rfl
  | cons s l ih => exact ⟨rfl, ih⟩

theorem parseRelocations_nil (subsecs : List Span) :
    parseRelocations isec subsecs ([] : List (Relocation τ σ)) =
      (subsecs.map fun _ => (0, 0), []) := by
  rw [parseRelocations]

theorem distributed_nil (subsecs : List Span) :
    Distributed isec subsecs ([] : List (Relocation τ σ)) (parseRelocations isec subsecs []) := by
  rw [parseRelocations_nil]
  refine ⟨?_, consecutive_zero subsecs⟩
  rw [List.map_map]
  rfl

theorem distributed_singleton {s : Span} {hi : ℕ}
    (htiles : Tiles isec.addr.toNat [s] hi) (hhi : ∀ r ∈ rels, r.inputAddr isec < hi) :
    Distributed isec [s] rels (parseRelocations isec [s] rels) := by
  cases rels with
  | nil => exact distributed_nil [s]
  | cons r rels =>
    obtain ⟨hstart, hend⟩ := htiles
    rw [Tiles] at hend
    have hoff : inputOffset isec s = 0 := by
      apply UInt32.toNat_inj.mp
      rw [inputOffset_toNat (Nat.le_of_eq hstart.symm), hstart, Nat.sub_self]
      rfl
    have hin : ∀ r' ∈ r :: rels, s.Contains (r'.inputAddr isec) := fun r' hr' =>
      ⟨hstart ▸ Nat.le_add_right _ _, hend ▸ hhi r' hr'⟩
    rw [parseRelocations, if_pos hoff]
    · refine ⟨?_, rfl, Nat.zero_add _⟩
      rw [List.map_cons, List.map_cons, getRels, List.drop_zero, List.take_length, relsIn,
        List.filter_eq_self.mpr fun r' hr' => decide_eq_true (hin r' hr')]
      refine congrArg (· :: []) ?_
      conv_lhs => rw [← List.map_id (r :: rels)]
      refine List.map_congr_left fun r' hr' => ?_
      rw [← rebase_eq (Nat.le_of_eq hstart.symm) (hin r' hr'), Relocation.rebase, hoff,
        UInt32.sub_zero]
      rfl
    · exact List.cons_ne_nil _ _

/-- The relocations of a section are distributed to its subsections exactly if the ends of
the subsections are 32-bit offsets or there is nothing in those where they are not. -/
theorem distributed_iff {subsecs : List Span} {rels : List (Relocation τ σ)}
    (htiles : Tiles isec.addr.toNat subsecs (isec.addr.toNat + isec.size.toNat))
    (hsorted : Sorted isec rels) :
    Distributed isec subsecs rels (parseRelocations isec subsecs rels) ↔
      subsecs.length = 1 ∨ ∀ s ∈ subsecs, EndFits isec rels s := by
  have hhi : ∀ r ∈ rels, r.inputAddr isec < isec.addr.toNat + isec.size.toNat := fun r hr =>
    Nat.add_lt_add_left (hsorted.inside r hr) _
  have hlo : ∀ r ∈ rels, isec.addr.toNat ≤ r.inputAddr isec := fun r _ =>
    Nat.le_add_right _ _
  by_cases hone : subsecs.length = 1
  · obtain ⟨s, rfl⟩ := List.length_eq_one_iff.mp hone
    exact iff_of_true (distributed_singleton htiles hhi) (.inl hone)
  · cases rels with
    | nil =>
      exact iff_of_true (distributed_nil subsecs)
        (.inr fun s _ => .inr fun r hr => absurd hr List.not_mem_nil)
    | cons r rels =>
      have hmain := assignRelocations_iff htiles (Nat.le_refl _) hsorted.ascending hlo []
      have hparse : parseRelocations isec subsecs (r :: rels) =
          assignRelocations isec 0 subsecs (r :: rels) := by
        rw [parseRelocations]
        · exact List.cons_ne_nil _ _
        · rintro s rfl
          exact hone rfl
      rw [hparse, or_iff_right hone]
      refine ⟨fun h => hmain.mp h.getRels, fun h => ⟨hmain.mpr h, ?_⟩⟩
      have hpart := consecutive_assignRelocations htiles (Nat.le_refl _) hsorted.ascending
        hlo hhi h 0
      rw [Nat.zero_add] at hpart
      exact hpart

end

def exampleSection (addr size : UInt64) : InputSection where
  hdr := { type := 0, attr := 0 }
  addr := addr
  size := size

def exampleSpans (addr size : UInt32) : List Span :=
  [{ isec := 0, inputAddr := addr, inputSize := size, p2align := 0 },
    { isec := 0, inputAddr := addr + size, inputSize := size, p2align := 0 }]

def exampleRelocation (offset : UInt32) : Relocation Unit Unit where
  target := .sym ()
  addend := 0
  offset := offset
  type := 0
  size := 8
  isSubtracted := false

theorem sorted_example {isec : InputSection} {offset : UInt32}
    (h : offset.toNat < isec.size.toNat) : Sorted isec [exampleRelocation offset] where
  ascending := List.pairwise_singleton _ _
  inside := List.forall_mem_singleton.mpr h

theorem distributed_example :
    Distributed (exampleSection 256 16) (exampleSpans 256 8) [exampleRelocation 12]
        (parseRelocations (exampleSection 256 16) (exampleSpans 256 8) [exampleRelocation 12]) ↔
      (exampleSpans 256 8).length = 1 ∨ ∀ s ∈ exampleSpans 256 8,
        EndFits (exampleSection 256 16) [exampleRelocation 12] s :=
  distributed_iff (by decide) (sorted_example (by decide))

/-- In a section of 4 GiB the end of the last subsection is 0, so its relocation is lost. -/
theorem not_distributed_example :
    Tiles 0 (exampleSpans 0 0x80000000) 0x100000000 ∧
      Sorted (exampleSection 0 0x100000000) [exampleRelocation 0x80000000] ∧
      ¬ Distributed (exampleSection 0 0x100000000) (exampleSpans 0 0x80000000)
        [exampleRelocation 0x80000000]
        (parseRelocations (exampleSection 0 0x100000000) (exampleSpans 0 0x80000000)
          [exampleRelocation 0x80000000]) := by
  refine ⟨by decide, sorted_example (by decide), fun h => ?_⟩
  have hspans : (parseRelocations (exampleSection 0 0x100000000) (exampleSpans 0 0x80000000)
      [exampleRelocation 0x80000000]).1 = [(0, 0), (0, 0)] := by decide
  have hpart := h.partition
  rw [hspans] at hpart
  exact absurd hpart.2.2 Nat.zero_ne_one

end Mold.MachO.Subsections
