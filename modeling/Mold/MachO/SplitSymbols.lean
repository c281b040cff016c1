import Mold.Lib.StableSort
import Mold.MachO.SplitSection

/-!
# Symbols of a file

The symbols of a file are sorted by their sections and addresses, and those at one address
keep the order of the symbol table.  A section is split by its part of them.
-/

namespace Mold.MachO.Subsections

open Mold.Lib

/-! ## Symbols of a section -/

variable {sections : List (Option InputSection)} {syms : List SectSym}

def sectionEntries (sections : List (Option InputSection)) (syms : List SectSym) (i : ℕ) :
    List (SectSym × ℕ) :=
  (sectSyms sections syms).filter fun ent => ent.1.sect == i + 1

structure IsIn (i : ℕ) (msym : SectSym) : Prop where
  stab : msym.stab = false
  isSect : msym.isSect = true
  sect : msym.sect = i + 1

variable {isec : InputSection}

theorem mem_sectionEntries_iff {i : ℕ}
    (hsec : sections[i]? = some (some isec)) {ent : SectSym × ℕ} :
    ent ∈ sectionEntries sections syms i ↔ syms[ent.2]? = some ent.1 ∧ IsIn i ent.1 := by
  rw [sectionEntries, sectSyms, List.mem_filter,
    (List.perm_insertionSort _ _).mem_iff, List.mem_filter, List.mem_zipIdx_iff_getElem?]
  simp only [Bool.and_eq_true, Bool.not_eq_true', beq_iff_eq]
  constructor
  · rintro ⟨⟨hget, ⟨hstab, hisSect⟩, -⟩, hsect⟩
    exact ⟨hget, hstab, hisSect, hsect⟩
  · rintro ⟨hget, hstab, hisSect, hsect⟩
    refine ⟨⟨hget, ⟨hstab, hisSect⟩, ?_⟩, hsect⟩
    rw [hsect, Nat.add_sub_cancel, hsec]
    rfl

theorem pairwise_sectionEntries (sections : List (Option InputSection)) (syms : List SectSym)
    (i : ℕ) :
    (sectionEntries sections syms i).Pairwise fun a b =>
      a.1.value ≤ b.1.value ∧ (a.1.value = b.1.value → a.2 < b.2) := by
  have hstable := pairwise_stable_insertionSort
    (r := fun a b : SectSym × ℕ => a.1.sect < b.1.sect ∨
      (a.1.sect = b.1.sect ∧ a.1.value ≤ b.1.value))
    (fun a b => by
      rcases Nat.lt_trichotomy a.1.sect b.1.sect with h | h | h
      · exact .inl (.inl h)
      · exact (UInt64.le_total a.1.value b.1.value).imp (fun hv => .inr ⟨h, hv⟩)
          fun hv => .inr ⟨h.symm, hv⟩
      · exact .inr (.inl h))
    (fun a b c hab hbc => by
      rcases hab with h | ⟨h, hv⟩ <;> rcases hbc with h' | ⟨h', hv'⟩
      · exact .inl (Nat.lt_trans h h')
      · exact .inl (h' ▸ h)
      · exact .inl (h ▸ h')
      · exact .inr ⟨h.trans h', UInt64.le_trans hv hv'⟩)
    ((pairwise_zipIdx syms 0).filter fun ent => !ent.1.stab && ent.1.isSect &&
      ((sections[ent.1.sect - 1]?).join).isSome)
  rw [sectionEntries, List.pairwise_filter]
  refine hstable.imp fun {a b} h ha hb => ?_
  have hsect : a.1.sect = b.1.sect := (beq_iff_eq.mp ha).trans (beq_iff_eq.mp hb).symm
  refine ⟨?_, fun hv => h.2 (.inr ⟨hsect.symm, UInt64.le_of_eq hv.symm⟩)⟩
  rcases h.1 with hlt | ⟨-, hle⟩
  · omega
  · exact hle

theorem ascending_sectionEntries (i : ℕ) : Ascending (sectionEntries sections syms i) :=
  (pairwise_sectionEntries sections syms i).imp And.left

structure CutsOf (syms : List SectSym) (i : ℕ) (isec : InputSection) : Prop where
  low : isec.addr.toNat < 2 ^ 32
  cuts : ∀ msym ∈ syms, IsIn i msym → IsCut isec msym → msym.value.toNat < 2 ^ 32
  last : isec.inputEnd < isec.addr.toNat + 2 ^ 32 ∨
    ∃ msym ∈ syms, IsIn i msym ∧ IsCut isec msym ∧ isec.inputEnd < msym.value.toNat + 2 ^ 32

theorem cutsFit_iff (syms : List SectSym) {i : ℕ} (hsec : sections[i]? = some (some isec)) :
    CutsFit isec isec.addr.toNat ((sectionEntries sections syms i).map Prod.fst) ↔
      CutsOf syms i isec := by
  have hmem (msym : SectSym) :
      msym ∈ (sectionEntries sections syms i).map Prod.fst ↔ msym ∈ syms ∧ IsIn i msym := by
    rw [List.mem_map]
    constructor
    · rintro ⟨ent, hent, rfl⟩
      obtain ⟨hget, hin⟩ := (mem_sectionEntries_iff hsec).mp hent
      exact ⟨List.mem_of_getElem? hget, hin⟩
    · rintro ⟨hget, hin⟩
      obtain ⟨j, hj⟩ := List.mem_iff_getElem?.mp hget
      exact ⟨(msym, j), (mem_sectionEntries_iff hsec).mpr ⟨hj, hin⟩, rfl⟩
  constructor
  · rintro ⟨hlow, hcuts, hlast⟩
    refine ⟨hlow, fun msym hm hin => hcuts msym ((hmem msym).mpr ⟨hm, hin⟩), hlast.imp_right ?_⟩
    rintro ⟨msym, hm, h⟩
    exact ⟨msym, ((hmem msym).mp hm).1, ((hmem msym).mp hm).2, h⟩
  · rintro ⟨hlow, hcuts, hlast⟩
    refine ⟨hlow, fun msym hm => hcuts msym ((hmem msym).mp hm).1 ((hmem msym).mp hm).2,
      hlast.imp_right ?_⟩
    rintro ⟨msym, hm, hin, h⟩
    exact ⟨msym, (hmem msym).mpr ⟨hm, hin⟩, h⟩

/-- A symbol is in the subsection for its address: it is no alternate entry, or it is at the
beginning of the section, or a cut at its address is before it in the symbol table, or there
is none at its address behind it. -/
def Kept (syms : List SectSym) (i : ℕ) (isec : InputSection) (j : ℕ) (msym : SectSym) : Prop :=
  msym.altEntry = false ∨ msym.value = isec.addr ∨
    (∃ k < j, ∃ cut, syms[k]? = some cut ∧ IsIn i cut ∧ IsCut isec cut ∧ cut.value = msym.value) ∨
    ∀ k > j, ∀ cut, syms[k]? = some cut → IsIn i cut → IsCut isec cut → cut.value ≠ msym.value

theorem stays_iff {i : ℕ} (hsec : sections[i]? = some (some isec))
    {pre post : List (SectSym × ℕ)} {ent : SectSym × ℕ}
    (hents : sectionEntries sections syms i = pre ++ ent :: post) :
    Stays isec isec.addr.toNat pre ent post ↔ Kept syms i isec ent.2 ent.1 := by
  have hpair := pairwise_sectionEntries sections syms i
  rw [hents, List.pairwise_append] at hpair
  obtain ⟨-, hpost, hpre⟩ := hpair
  obtain ⟨hpost, -⟩ := List.pairwise_cons.mp hpost
  have hmem (c : SectSym × ℕ) :
      c ∈ pre ∨ c = ent ∨ c ∈ post ↔ syms[c.2]? = some c.1 ∧ IsIn i c.1 := by
    rw [← mem_sectionEntries_iff hsec, hents, List.mem_append, List.mem_cons]
  rw [Stays, Kept, UInt64.toNat_inj]
  refine or_congr Iff.rfl (or_congr Iff.rfl (or_congr ⟨?_, ?_⟩ ⟨?_, ?_⟩))
  · rintro ⟨c, hc, hcut, hvalue⟩
    obtain ⟨hget, hin⟩ := (hmem c).mp (.inl hc)
    exact ⟨c.2, (hpre c hc ent List.mem_cons_self).2 hvalue, c.1, hget, hin, hcut, hvalue⟩
  · rintro ⟨k, hk, cut, hget, hin, hcut, hvalue⟩
    rcases (hmem (cut, k)).mpr ⟨hget, hin⟩ with hc | rfl | hc
    · exact ⟨(cut, k), hc, hcut, hvalue⟩
    · exact absurd hk (Nat.lt_irrefl k)
    · exact absurd hk (Nat.lt_asymm ((hpost (cut, k) hc).2 hvalue.symm))
  · intro h k hk cut hget hin hcut hvalue
    rcases (hmem (cut, k)).mpr ⟨hget, hin⟩ with hc | rfl | hc
    · exact absurd hk (Nat.lt_asymm ((hpre (cut, k) hc ent List.mem_cons_self).2 hvalue))
    · exact absurd hk (Nat.lt_irrefl k)
    · exact h (cut, k) hc hcut hvalue
  · intro h c hc hcut hvalue
    obtain ⟨hget, hin⟩ := (hmem c).mp (.inr (.inr hc))
    exact h c.2 ((hpost c hc).2 hvalue.symm) c.1 hget hin hcut hvalue

end Mold.MachO.Subsections
