import Mold.Elf.SymbolVersionsFilled
import Mold.Lib.OptionTraverse

/-!
# Reading the version tables

A reader that follows the distances finds the records that were written, as many as
the counts say.
-/

namespace Mold.Elf

open Lib

theorem VersionTables.definitions_eq {t : VersionTables} {r : Verdef} {idx : ℕ}
    {l : List (List UInt8)} (hr : r.vdNext = 0) (hbuf : t.verdef.buf = chainDefs r idx l) :
    t.definitions = some (placeDefs 0 (chainDefs r idx l)) := by
  have hlinked := placeDefs_linked hr 0 idx l
  have hread : ∀ x ∈ placeDefs 0 (chainDefs r idx l), t.readVerdef x.1 = some x.2 := by
    intro x hx
    obtain ⟨i, hplace, hget⟩ := mem_placeDefs hx
    rw [Nat.zero_add] at hplace
    rw [VersionTables.readVerdef, hplace, if_pos (Nat.dvd_mul_right _ _),
      Nat.mul_div_cancel_left _ (Nat.pos_of_ne_zero verdefStride_ne_zero), hbuf, hget]
  have hlength : (placeDefs 0 (chainDefs r idx l)).length = l.length + 1 := by
    rw [← length_chainDefs r idx l, ← List.length_map Prod.snd, placeDefs_map_snd]
  cases l with
  | nil =>
    exact hlinked.followChain_eq hread _ (by rw [hbuf]; exact Nat.zero_lt_succ _)
  | cons verstr l =>
    refine hlinked.followChain_eq hread _ ?_
    rw [hbuf, length_chainDefs]
    rw [chainDefs, placeDefs, List.length_cons] at hlength
    omega

/-! ## Places of groups -/

/-- The groups with the places of their records, counted in records, and the distances
to the next groups. -/
def placeGroups : ℕ → List VersionGroup → VersionGroup → List (ℕ × VersionGroup × ℕ)
  | k, [], g => [(k, g, 0)]
  | k, d :: ds, g =>
    (k, d, verneedSize * d.numRecords) :: placeGroups (k + d.numRecords) ds g

theorem placeGroups_map (k : ℕ) (ds : List VersionGroup) (g : VersionGroup) :
    (placeGroups k ds g).map (fun p => p.2.1) = ds ++ [g] := by
  induction ds generalizing k with
  | nil => rfl
  | cons d ds ih => rw [placeGroups, List.map_cons, ih, List.cons_append]

def needAt (p : ℕ × VersionGroup × ℕ) : ℕ × Verneed :=
  (verneedSize * p.1, p.2.1.need p.2.2)

theorem placeGroups_linked (k : ℕ) (ds : List VersionGroup) (g : VersionGroup) :
    IsLinked Verneed.vnNext ((placeGroups k ds g).map needAt) := by
  induction ds generalizing k with
  | nil => rfl
  | cons d ds ih =>
    have hne : verneedSize * d.numRecords ≠ 0 :=
      Nat.mul_ne_zero verneedSize_ne_zero (Nat.succ_ne_zero _)
    have hrest := ih (k + d.numRecords)
    cases ds with
    | nil => exact ⟨hne, Nat.mul_add _ _ _, hrest⟩
    | cons d' ds => exact ⟨hne, Nat.mul_add _ _ _, hrest⟩

theorem mem_placeGroups {pre : List VerneedRecord} {ds : List VersionGroup}
    {g : VersionGroup} {p : ℕ × VersionGroup × ℕ}
    (hp : p ∈ placeGroups pre.length ds g) :
    ∃ front back, pre ++ (encodeFront ds ++ encodeGroup g 0) =
      front ++ (encodeGroup p.2.1 p.2.2 ++ back) ∧ front.length = p.1 := by
  induction ds generalizing pre with
  | nil =>
    obtain rfl := List.mem_singleton.mp hp
    exact ⟨pre, [], by rw [List.append_nil]; rfl, rfl⟩
  | cons d ds ih =>
    rcases List.mem_cons.mp hp with rfl | hp
    · refine ⟨pre, encodeFront ds ++ encodeGroup g 0, ?_, rfl⟩
      rw [encodeFront, List.flatMap_cons, List.append_assoc]
      rfl
    · have hlength : pre.length + d.numRecords =
          (pre ++ encodeGroup d (verneedSize * d.numRecords)).length := by
        rw [List.length_append, length_encodeGroup]
      rw [hlength] at hp
      obtain ⟨front, back, hsplit, hfront⟩ := ih hp
      refine ⟨front, back, ?_, hfront⟩
      rw [← hsplit, encodeFront, List.flatMap_cons]
      simp only [List.append_assoc]
      rfl

def placeAuxs : ℕ → List Vernaux → List (ℕ × Vernaux)
  | _, [] => []
  | k, r :: l => (verneedSize * k, r) :: placeAuxs (k + 1) l

theorem placeAuxs_map_snd (k : ℕ) (l : List Vernaux) : (placeAuxs k l).map Prod.snd = l := by
  induction l generalizing k with
  | nil => rfl
  | cons r l ih => rw [placeAuxs, List.map_cons, ih]

theorem mem_placeAuxs {k : ℕ} {l : List Vernaux} {x : ℕ × Vernaux}
    (hx : x ∈ placeAuxs k l) : ∃ i, x.1 = verneedSize * (k + i) ∧ l[i]? = some x.2 := by
  induction l generalizing k with
  | nil => exact absurd hx List.not_mem_nil
  | cons r l ih =>
    rcases List.mem_cons.mp hx with rfl | hx
    · exact ⟨0, rfl, rfl⟩
    · obtain ⟨i, hplace, hget⟩ := ih hx
      exact ⟨i + 1, by rw [hplace, Nat.add_right_comm, Nat.add_assoc], hget⟩

theorem placeAuxs_linked (k : ℕ) {l : List VersionEntry} (hl : l ≠ []) :
    IsLinked Vernaux.vnaNext (placeAuxs k (encodeEntries l)) := by
  induction l generalizing k with
  | nil => exact absurd rfl hl
  | cons e l ih =>
    cases l with
    | nil => rfl
    | cons e' l =>
      have hrest := ih (k + 1) (List.cons_ne_nil _ _)
      cases l with
      | nil => exact ⟨verneedSize_ne_zero, by rw [Nat.mul_add, Nat.mul_one]; rfl, hrest⟩
      | cons e'' l =>
        exact ⟨verneedSize_ne_zero, by rw [Nat.mul_add, Nat.mul_one]; rfl, hrest⟩

section Requirements

variable {t : VersionTables} {front back : List VerneedRecord} {g : VersionGroup}
  {next : ℕ}

theorem VersionTables.readNeed_eq (hbuf : t.verneed.buf = front ++ (encodeGroup g next ++ back)) :
    t.readNeed (verneedSize * front.length) = some (g.need next) := by
  rw [VersionTables.readNeed, if_pos (Nat.dvd_mul_right _ _),
    Nat.mul_div_cancel_left _ (Nat.pos_of_ne_zero verneedSize_ne_zero), hbuf,
    List.getElem?_append_right (Nat.le_refl _), Nat.sub_self, encodeGroup]
  rfl

theorem VersionTables.readAux_eq
    (hbuf : t.verneed.buf = front ++ (encodeGroup g next ++ back)) {i : ℕ} {r : Vernaux}
    (hr : (encodeEntries g.entries)[i]? = some r) :
    t.readAux (verneedSize * (front.length + 1 + i)) = some r := by
  have hget : t.verneed.buf[front.length + 1 + i]? = some (.aux r) := by
    rw [hbuf, List.getElem?_append_right (by omega)]
    have hi : front.length + 1 + i - front.length = i + 1 := by omega
    have hlt : i < ((encodeEntries g.entries).map VerneedRecord.aux).length := by
      rw [List.length_map]
      exact (List.getElem?_eq_some_iff.mp hr).1
    rw [hi, encodeGroup, List.cons_append, List.getElem?_cons_succ,
      List.getElem?_append_left hlt, List.getElem?_map, hr]
    rfl
  rw [VersionTables.readAux, if_pos (Nat.dvd_mul_right _ _),
    Nat.mul_div_cancel_left _ (Nat.pos_of_ne_zero verneedSize_ne_zero), hget]

theorem VersionTables.auxOf_eq
    (hbuf : t.verneed.buf = front ++ (encodeGroup g next ++ back)) (hg : g.entries ≠ []) :
    t.auxOf (needAt (front.length, g, next)) =
      some (placeAuxs (front.length + 1) (encodeEntries g.entries)) := by
  have hlinked := placeAuxs_linked (front.length + 1) hg
  have hread : ∀ x ∈ placeAuxs (front.length + 1) (encodeEntries g.entries),
      t.readAux x.1 = some x.2 := by
    intro x hx
    obtain ⟨i, hplace, hget⟩ := mem_placeAuxs hx
    rw [hplace]
    exact t.readAux_eq hbuf hget
  have hoff : (needAt (front.length, g, next)).1 + (needAt (front.length, g, next)).2.vnAux =
      verneedSize * (front.length + 1) := by
    rw [Nat.mul_add, Nat.mul_one]
    rfl
  have hlength : (placeAuxs (front.length + 1) (encodeEntries g.entries)).length <
      t.verneed.buf.length + 1 := by
    rw [← List.length_map Prod.snd, placeAuxs_map_snd, hbuf, List.length_append,
      List.length_append, length_encodeGroup, length_encodeEntries, VersionGroup.numRecords]
    omega
  rw [VersionTables.auxOf, hoff]
  cases hentries : encodeEntries g.entries with
  | nil =>
    rw [hentries] at hlinked
    exact hlinked.elim
  | cons r l =>
    rw [hentries] at hlinked hread hlength
    exact hlinked.followChain_eq hread _ (Nat.lt_of_succ_lt hlength)

end Requirements

theorem length_placeGroups_le (ds : List VersionGroup) (g : VersionGroup) (k : ℕ) :
    (placeGroups k ds g).length ≤ (encodeFront ds ++ encodeGroup g 0).length := by
  induction ds generalizing k with
  | nil => exact Nat.succ_le_of_lt (Nat.zero_lt_succ _)
  | cons d ds ih =>
    have hrest := ih (k + d.numRecords)
    rw [placeGroups, List.length_cons, encodeFront, List.flatMap_cons, List.append_assoc,
      List.length_append, length_encodeGroup]
    rw [encodeFront] at hrest
    have hpos : 0 < d.numRecords := Nat.succ_pos _
    omega

theorem VersionTables.requirements_eq {t : VersionTables} {ds : List VersionGroup}
    {g : VersionGroup} (hbuf : t.verneed.buf = encodeFront ds ++ encodeGroup g 0)
    (hne : ∀ d ∈ ds ++ [g], d.entries ≠ []) :
    t.requirements = some ((placeGroups 0 ds g).map fun p =>
      (p.2.1.need p.2.2, encodeEntries p.2.1.entries)) := by
  have hsplit : ∀ p ∈ placeGroups 0 ds g, ∃ front back,
      t.verneed.buf = front ++ (encodeGroup p.2.1 p.2.2 ++ back) ∧ front.length = p.1 := by
    intro p hp
    obtain ⟨front, back, heq, hlength⟩ := @mem_placeGroups [] _ _ _ hp
    exact ⟨front, back, by rw [hbuf, ← heq, List.nil_append], hlength⟩
  have hneeds : followChain Verneed.vnNext t.readNeed (t.verneed.buf.length + 1) 0 =
      some ((placeGroups 0 ds g).map needAt) := by
    have hlinked := placeGroups_linked 0 ds g
    have hread : ∀ x ∈ (placeGroups 0 ds g).map needAt, t.readNeed x.1 = some x.2 := by
      intro x hx
      obtain ⟨p, hp, rfl⟩ := List.mem_map.mp hx
      obtain ⟨front, back, heq, hlength⟩ := hsplit p hp
      rw [needAt, ← hlength]
      exact t.readNeed_eq heq
    have hlength : ((placeGroups 0 ds g).map needAt).length < t.verneed.buf.length + 1 := by
      rw [List.length_map, hbuf]
      exact Nat.lt_succ_of_le (length_placeGroups_le ds g 0)
    cases ds with
    | nil => exact hlinked.followChain_eq hread _ (Nat.lt_of_succ_lt hlength)
    | cons d ds => exact hlinked.followChain_eq hread _ (Nat.lt_of_succ_lt hlength)
  have hauxs : ∀ p ∈ placeGroups 0 ds g, t.auxOf (needAt p) =
      some (placeAuxs (p.1 + 1) (encodeEntries p.2.1.entries)) := by
    intro p hp
    obtain ⟨front, back, heq, hlength⟩ := hsplit p hp
    have hmem : p.2.1 ∈ ds ++ [g] := by
      rw [← placeGroups_map 0 ds g]
      exact List.mem_map_of_mem hp
    have haux := t.auxOf_eq heq (hne _ hmem)
    rwa [hlength] at haux
  rw [VersionTables.requirements, hneeds]
  refine (mapM_eq_some_map (g := fun q => (q.2, ((t.auxOf q).getD []).map Prod.snd))
    fun q hq => ?_).trans ?_
  · obtain ⟨p, hp, rfl⟩ := List.mem_map.mp hq
    rw [hauxs p hp]
    rfl
  · rw [List.map_map]
    congr 1
    refine List.map_congr_left fun p hp => ?_
    rw [Function.comp_apply, hauxs p hp, Option.getD_some, placeAuxs_map_snd]
    rfl

end Mold.Elf
