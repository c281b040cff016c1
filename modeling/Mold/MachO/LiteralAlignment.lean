import Mold.Lib.Layout
import Mold.MachO.LiteralInsertion

/-!
# Merging and the alignment of literals

An entry of `uniquify_literals` collects the largest alignment of the members
with some contents, but nobody reads it: `compute_size` places an owner at its
own alignment.  The alignment of the section itself covers all members, also the
ones that are replaced, unless `-sectalign` overrides it.  So a reference keeps
its alignment, whatever the sizes of the literals are, exactly if no owner is
aligned less than what it replaces.
-/

namespace Mold.MachO.Literals

open Mold.Lib

variable {τ σ ι κ : Type*}

/-- What places a section besides its members: the lengths of the contents, the
counter of `compute_size` where the members begin, the counter for addresses in
front of the section, and `-sectalign`. -/
structure Placement (κ : Type*) where
  size : κ → ℕ
  offset : ℕ := 0
  vmaddr : ℕ := 0

namespace AlignedContext

variable [DecidableEq σ] [DecidableEq κ] (C : AlignedContext τ σ ι κ)

/-! ## The layout of a section -/

/-- `hdr.p2align`, which `add_subsec` raises and `-sectalign` overrides. -/
def hdrP2align (osec : OutputSection σ) (sectalign : Option ℕ) : ℕ :=
  sectalign.getD (osec.members.foldl (fun p s => max p (C.p2align s)) 0)

def hdrAddr (osec : OutputSection σ) (sectalign : Option ℕ) (P : Placement κ) : ℕ :=
  alignUp (2 ^ C.hdrP2align osec sectalign) P.vmaddr

/-- The loop of `OutputSection::compute_size`: the subsections with their
`output_offset`. -/
def computeSize (P : Placement κ) (members : List σ) : List (σ × ℕ) :=
  place (fun s => 2 ^ C.p2align s) (fun s => P.size (C.contents s)) P.offset members

/-- The subsection that references to a member lead to behind the merge. -/
def standsFor (table : Insertion σ κ) (s : σ) : σ :=
  (C.replacement table s).getD s

/-- Behind every run of the merge, references to a member lead to an address that
has the alignment of the member. -/
def AlignedAt (osec : OutputSection σ) (sectalign : Option ℕ) (P : Placement κ) : Prop :=
  ∀ table, C.Run osec table → ∀ s ∈ osec.members,
    ∃ off, (C.standsFor table s, off) ∈ C.computeSize P (C.kept osec table) ∧
      2 ^ C.p2align s ∣ C.hdrAddr osec sectalign P + off

/-- References keep their alignment, wherever the members are placed and whatever
the sizes of the literals are. -/
def KeepsAlignment (osec : OutputSection σ) (sectalign : Option ℕ) : Prop :=
  ∀ P, C.AlignedAt osec sectalign P

/-- No member is aligned more than the section or than a member of the highest
priority with the same contents. -/
structure AlignmentSafe (osec : OutputSection σ) (sectalign : Option ℕ) : Prop where
  le_section : ∀ s ∈ osec.members, C.p2align s ≤ C.hdrP2align osec sectalign
  le_owner : ∀ s ∈ osec.members, ∀ o, C.Top osec o → C.contents o = C.contents s →
    C.p2align s ≤ C.p2align o

variable {C} {osec : OutputSection σ} {sectalign : Option ℕ} {table : Insertion σ κ}

omit [DecidableEq σ] [DecidableEq κ] in
theorem le_hdrP2align {s : σ} (hs : s ∈ osec.members) : C.p2align s ≤ C.hdrP2align osec none :=
  (le_foldl_max C.p2align osec.members 0).2 s hs

/-! ## Owners are left in the section -/

omit [DecidableEq κ] in
theorem replacement_eq_none {o : σ} (h : owners table (C.contents o) = some o) :
    C.replacement table o = none := by
  obtain ⟨e, he, heo⟩ := Option.map_eq_some_iff.mp h
  rw [replacement, he]
  exact if_pos heo.symm

omit [DecidableEq κ] in
theorem standsFor_eq {s o : σ} (h : owners table (C.contents s) = some o) :
    C.standsFor table s = o := by
  obtain ⟨e, he, rfl⟩ := Option.map_eq_some_iff.mp h
  simp only [standsFor, replacement, he]
  split
  case isTrue heq => exact heq
  case isFalse => rfl

omit [DecidableEq κ] in
theorem mem_kept {o : σ} (ho : o ∈ osec.members)
    (h : owners table (C.contents o) = some o) : o ∈ C.kept osec table := by
  rw [kept, List.mem_filter, replacement_eq_none h]
  exact ⟨ho, rfl⟩

theorem Run.contents_inj (h : C.Run osec table) {s t : σ} (hs : s ∈ C.kept osec table)
    (ht : t ∈ C.kept osec table) (hc : C.contents s = C.contents t) : s = t := by
  have hown {r : σ} (hr : r ∈ C.kept osec table) : owners table (C.contents r) = some r := by
    obtain ⟨hmem, hnone⟩ := List.mem_filter.mp hr
    obtain ⟨e, he, -⟩ := h.owner hmem
    have hrep := Option.isNone_iff_eq_none.mp hnone
    simp only [replacement, he] at hrep
    split at hrep
    case isTrue heq => rw [owners, he, Option.map_some, ← heq]
    case isFalse => cases hrep
  have hst := hown hs
  rw [hc, hown ht] at hst
  exact (Option.some.inj hst).symm

theorem keepsAlignment_of_safe (h : C.AlignmentSafe osec sectalign) :
    C.KeepsAlignment osec sectalign := by
  intro P table hrun s hs
  obtain ⟨e, he, hc, htop⟩ := hrun.owner hs
  have howner : owners table (C.contents s) = some e.owner := by
    rw [owners, he, Option.map_some]
  have hmem : e.owner ∈ (C.computeSize P (C.kept osec table)).map Prod.fst := by
    rw [computeSize, place_map_fst]
    exact mem_kept htop.mem (hc ▸ howner)
  obtain ⟨⟨o, off⟩, hplace, rfl⟩ := List.mem_map.mp hmem
  refine ⟨off, by rwa [standsFor_eq howner], Nat.dvd_add ?_ ?_⟩
  · exact (Nat.pow_dvd_pow 2 (h.le_section s hs)).trans (dvd_alignUp _ _)
  · have hle := h.le_owner s hs _ htop hc
    exact (Nat.pow_dvd_pow 2 hle).trans (dvd_of_mem_place hplace)

section Sizes

variable {α : Type*} {align size : α → ℕ}

theorem placeEnd_zero (hpos : ∀ x, 0 < align x) {l : List α} (h : ∀ x ∈ l, size x = 0) :
    placeEnd align size 0 l = 0 := by
  induction l with
  | nil => rfl
  | cons x l ih =>
    obtain ⟨hx, hl⟩ := List.forall_mem_cons.mp h
    rw [placeEnd, alignUp_eq_self (hpos x) (Nat.dvd_zero _), hx, ih hl]

theorem eq_zero_of_mem_place (hpos : ∀ x, 0 < align x) (hsize : ∀ x, size x = 0) {l : List α}
    {x : α} {off : ℕ} (h : (x, off) ∈ place align size 0 l) : off = 0 := by
  induction l with
  | nil => exact absurd h List.not_mem_nil
  | cons y l ih =>
    rw [place, alignUp_eq_self (hpos y) (Nat.dvd_zero _), hsize y, List.mem_cons] at h
    rcases h with h | h
    · exact (Prod.mk.inj h).2
    · exact ih h

theorem snd_of_mem_place {start off : ℕ} {front back : List α} {x : α}
    (h : (x, off) ∈ place align size start (front ++ x :: back)) (hfront : x ∉ front)
    (hback : x ∉ back) : off = alignUp (align x) (placeEnd align size start front) := by
  have hfst {start : ℕ} {l : List α} (hmem : (x, off) ∈ place align size start l) : x ∈ l := by
    have hmap : (place align size start l).map Prod.fst = l := place_map_fst start l
    rw [← hmap]
    exact List.mem_map_of_mem hmem
  rw [place_append, List.mem_append, place, List.mem_cons] at h
  rcases h with h | h | h
  · exact absurd (hfst h) hfront
  · exact (Prod.mk.inj h).2
  · exact absurd (hfst h) hback

end Sizes

theorem Run.exists_placement (h : C.Run osec table) (hnodup : osec.members.Nodup) {o : σ}
    (ho : o ∈ C.kept osec table) :
    ∃ P : Placement κ, P.vmaddr = 0 ∧
      ∀ off, (o, off) ∈ C.computeSize P (C.kept osec table) → off = 2 ^ C.p2align o := by
  have hpos (s : σ) : 0 < 2 ^ C.p2align s := Nat.two_pow_pos _
  have hself : alignUp (2 ^ C.p2align o) (2 ^ C.p2align o) = 2 ^ C.p2align o :=
    alignUp_eq_self (hpos o) (dvd_refl _)
  have hkept : (C.kept osec table).Nodup := hnodup.filter _
  obtain ⟨front, back, heq⟩ := List.append_of_mem ho
  rw [heq] at hkept
  obtain ⟨hfront, hrest, hapart⟩ := List.nodup_append.mp hkept
  have hof : o ∉ front := fun hmem => hapart o hmem o List.mem_cons_self rfl
  have hob : o ∉ back := (List.nodup_cons.mp hrest).1
  rcases List.eq_nil_or_concat' front with rfl | ⟨before, u, rfl⟩
  · refine ⟨{ size := fun _ => 0, offset := 2 ^ C.p2align o }, rfl, fun off hoff => ?_⟩
    rw [heq] at hoff
    exact (snd_of_mem_place hoff hof hob).trans hself
  · have hsize : ∀ s ∈ before,
        (if C.contents s = C.contents u then 2 ^ C.p2align o else 0) = 0 := by
      intro s hs
      refine if_neg fun hc => ?_
      have hs' : s ∈ C.kept osec table := by simp [heq, hs]
      have hu' : u ∈ C.kept osec table := by simp [heq]
      obtain rfl := h.contents_inj hs' hu' hc
      exact (List.nodup_append.mp hfront).2.2 s hs s List.mem_cons_self rfl
    refine ⟨{ size := fun c => if c = C.contents u then 2 ^ C.p2align o else 0 }, rfl,
      fun off hoff => ?_⟩
    rw [heq] at hoff
    refine (snd_of_mem_place hoff hof hob).trans ?_
    rw [placeEnd_append, placeEnd_zero hpos hsize, placeEnd, placeEnd,
      alignUp_eq_self (hpos u) (Nat.dvd_zero _), Nat.zero_add]
    dsimp only
    rw [if_pos rfl, hself]

theorem safe_of_keepsAlignment (hnodup : osec.members.Nodup)
    (h : C.KeepsAlignment osec sectalign) : C.AlignmentSafe osec sectalign := by
  have hpos (s : σ) : 0 < 2 ^ C.p2align s := Nat.two_pow_pos _
  have hsection : ∀ s ∈ osec.members, C.p2align s ≤ C.hdrP2align osec sectalign := by
    intro s hs
    obtain ⟨table, hrun, -⟩ := exists_run (C := C) hnodup (List.Perm.refl _)
    obtain ⟨off, hoff, hdvd⟩ :=
      h ⟨fun _ => 0, 0, 2 ^ C.hdrP2align osec sectalign⟩ table hrun s hs
    have haddr : C.hdrAddr osec sectalign ⟨fun _ => 0, 0, 2 ^ C.hdrP2align osec sectalign⟩ =
        2 ^ C.hdrP2align osec sectalign :=
      alignUp_eq_self (Nat.two_pow_pos _) (dvd_refl _)
    rw [haddr, eq_zero_of_mem_place hpos (fun _ => rfl) hoff, Nat.add_zero] at hdvd
    exact (Nat.pow_dvd_pow_iff_le_right (by decide)).mp hdvd
  refine ⟨hsection, fun s hs o htop hc => ?_⟩
  by_contra hlt
  obtain ⟨table, hrun, howner⟩ := htop.exists_run hnodup
  obtain ⟨P, hvmaddr, hplace⟩ := hrun.exists_placement hnodup (mem_kept htop.mem howner)
  obtain ⟨off, hoff, hdvd⟩ := h P table hrun s hs
  rw [standsFor_eq (hc ▸ howner)] at hoff
  have haddr : C.hdrAddr osec sectalign P = 0 := by
    rw [hdrAddr, hvmaddr, alignUp_eq_self (Nat.two_pow_pos _) (Nat.dvd_zero _)]
  rw [haddr, Nat.zero_add, hplace off hoff] at hdvd
  exact hlt ((Nat.pow_dvd_pow_iff_le_right (by decide)).mp hdvd)

/-- References to literals keep their alignment if and only if no member is aligned
more than the section or than the members that can own its contents. -/
theorem keepsAlignment_iff (hnodup : osec.members.Nodup) :
    C.KeepsAlignment osec sectalign ↔ C.AlignmentSafe osec sectalign :=
  ⟨safe_of_keepsAlignment hnodup, keepsAlignment_of_safe⟩

end AlignedContext

/-- The strings "x" and "abc" of a file of high priority, and "abc" at the start of
the aligned section of another file. -/
def stringsOfTwoFiles : AlignedContext Unit ℕ Bool String where
  subsec s :=
    { contents := if s = 0 then "x" else "abc", filePriority := if s = 2 then 1 else 2,
      isec := decide (s = 2) }
  sym _ := {}
  rels _ := []
  chunks := [{ type := 0x2, members := [0, 1, 2] }]
  objs :=
    [{ file := .obj 0, sections := [false], syms := [], subsections := [0, 1] },
      { file := .obj 1, sections := [true], syms := [], subsections := [2] }]
  disjoint := by decide
  parsed := by decide
  owned := by simp
  p2align s := if s = 1 then 1 else 3

/-- The same strings without alignments. -/
def bytesOfTwoFiles : AlignedContext Unit ℕ Bool String :=
  { stringsOfTwoFiles with p2align := fun _ => 0 }

/-- The string of the second file is replaced by one that is aligned as it is. -/
theorem keepsAlignment_bytesOfTwoFiles :
    bytesOfTwoFiles.KeepsAlignment { type := 0x2, members := [0, 1, 2] } none :=
  (AlignedContext.keepsAlignment_iff (by decide)).mpr
    ⟨fun _ hs => AlignedContext.le_hdrP2align hs, fun _ _ _ _ _ => le_refl _⟩

/-- The string that was aligned to eight bytes is replaced by one at offset 2. -/
theorem not_alignedAt_stringsOfTwoFiles :
    ¬ stringsOfTwoFiles.AlignedAt { type := 0x2, members := [0, 1, 2] } none
      { size := fun name => name.length + 1 } := by
  intro h
  obtain ⟨table, hrun, -⟩ : ∃ table,
      stringsOfTwoFiles.Run { type := 0x2, members := [0, 1, 2] } table ∧
        AlignedContext.owners table = stringsOfTwoFiles.literalOwner [0, 1, 2] :=
    AlignedContext.exists_run (by decide) (List.Perm.refl _)
  -- the string of the second file has no chance against the first file
  have howner (s o : ℕ) (hs : s ∈ [0, 1, 2])
      (heq : ∀ r ∈ [0, 1, 2], stringsOfTwoFiles.contents r = stringsOfTwoFiles.contents s →
        2 ≤ stringsOfTwoFiles.priority r → r = o) (htwo : o ∈ [0, 1, 2])
      (hc : stringsOfTwoFiles.contents o = stringsOfTwoFiles.contents s)
      (hhigh : 2 ≤ stringsOfTwoFiles.priority o) :
      stringsOfTwoFiles.replacement table s = if s = o then none else some o := by
    obtain ⟨r, hrc, htop, hr⟩ := hrun.replacement_eq hs
    have hle := hhigh.trans (htop.highest o htwo (hc.trans hrc.symm))
    rw [hr, heq r htop.mem hrc hle]
  have h0 := howner 0 0 (by decide) (by decide) (by decide) rfl (by decide)
  have h1 := howner 1 1 (by decide) (by decide) (by decide) rfl (by decide)
  have h2 := howner 2 1 (by decide) (by decide) (by decide) rfl (by decide)
  obtain ⟨off, hoff, hdvd⟩ := h table hrun 2 (by decide)
  have hkept : stringsOfTwoFiles.kept { type := 0x2, members := [0, 1, 2] } table = [0, 1] := by
    simp only [AlignedContext.kept, List.filter_cons, h0, h1, h2]
    rfl
  have hstands : stringsOfTwoFiles.standsFor table 2 = 1 := by
    rw [AlignedContext.standsFor, h2]
    rfl
  have hplace : stringsOfTwoFiles.computeSize { size := fun name => name.length + 1 } [0, 1] =
      [(0, 0), (1, 2)] := by
    decide
  rw [hkept, hstands, hplace] at hoff
  obtain rfl : off = 2 := by simpa using hoff
  revert hdvd
  decide

end Mold.MachO.Literals
