import Mold.Elf.SymbolVersions

/-!
# The records of the version tables

The definitions are a chain of records of one size.  The requirements are filled
group by group: at each time the buffer is the encoding of the groups that were
begun, and the group and the entry that were begun last are not linked yet.
-/

namespace Mold.Elf

open Lib

/-! ## Definitions -/

/-- A definition as `write` adds it. -/
def Verdef.mk' (verstr : List UInt8) (idx flags : ℕ) : Verdef where
  vdFlags := flags
  vdNdx := idx % 2 ^ 16
  vdHash := elfHash verstr
  vdAux := verdefSize
  vdaName := verstr

def chainDefs (r : Verdef) : ℕ → List (List UInt8) → List Verdef
  | _, [] => [r]
  | idx, verstr :: l =>
    { r with vdNext := verdefStride } :: chainDefs (Verdef.mk' verstr idx 0) (idx + 1) l

theorem writeAll_eq {sec : VerdefSection} {front : List Verdef} {r : Verdef}
    (hbuf : sec.buf = front ++ [r]) (hverdef : sec.verdef = some front.length)
    (idx : ℕ) (l : List (List UInt8)) :
    (sec.writeAll idx l).buf = front ++ chainDefs r idx l ∧
      (sec.writeAll idx l).shInfo = sec.shInfo + l.length := by
  induction l generalizing sec front r idx with
  | nil => exact ⟨hbuf, rfl⟩
  | cons verstr l ih =>
    have hlink : sec.linkLast = front ++ [{ r with vdNext := verdefStride }] := by
      have hdist : verdefStride * (front ++ [r]).length - verdefStride * front.length =
          verdefStride := by
        rw [List.length_append, List.length_singleton, Nat.mul_add, Nat.mul_one,
          Nat.add_sub_cancel_left]
      rw [VerdefSection.linkLast, hverdef, hbuf]
      simp only [hdist]
      exact modify_append_length front r [] _
    have hbuf' : (sec.write verstr idx 0).buf =
        (front ++ [{ r with vdNext := verdefStride }]) ++ [Verdef.mk' verstr idx 0] := by
      rw [VerdefSection.write, hlink]
      rfl
    have hverdef' : (sec.write verstr idx 0).verdef =
        some (front ++ [{ r with vdNext := verdefStride }]).length := by
      rw [VerdefSection.write, hbuf]
      simp
    obtain ⟨hchain, hinfo⟩ := ih hbuf' hverdef' (idx + 1)
    constructor
    · rw [VerdefSection.writeAll, hchain, chainDefs, List.append_assoc]
      rfl
    · rw [VerdefSection.writeAll, hinfo, VerdefSection.write, List.length_cons]
      exact Nat.add_right_comm _ _ _

theorem length_chainDefs (r : Verdef) (idx : ℕ) (l : List (List UInt8)) :
    (chainDefs r idx l).length = l.length + 1 := by
  induction l generalizing r idx with
  | nil => rfl
  | cons verstr l ih => rw [chainDefs, List.length_cons, ih, List.length_cons]

theorem chainDefs_map_ndx (r : Verdef) (idx : ℕ) (l : List (List UInt8)) :
    (chainDefs r idx l).map Verdef.vdNdx =
      r.vdNdx :: (List.range' idx l.length).map (· % 2 ^ 16) := by
  induction l generalizing r idx with
  | nil => rfl
  | cons verstr l ih =>
    rw [chainDefs, List.map_cons, ih, List.length_cons, List.range'_succ, List.map_cons]
    rfl

def placeDefs : ℕ → List Verdef → List (ℕ × Verdef)
  | _, [] => []
  | k, r :: l => (verdefStride * k, r) :: placeDefs (k + 1) l

theorem placeDefs_map_snd (k : ℕ) (l : List Verdef) : (placeDefs k l).map Prod.snd = l := by
  induction l generalizing k with
  | nil => rfl
  | cons r l ih => rw [placeDefs, List.map_cons, ih]

theorem verdefStride_ne_zero : verdefStride ≠ 0 := by decide

theorem verneedSize_ne_zero : verneedSize ≠ 0 := by decide

theorem placeDefs_linked {r : Verdef} (hr : r.vdNext = 0) (k idx : ℕ) (l : List (List UInt8)) :
    IsLinked Verdef.vdNext (placeDefs k (chainDefs r idx l)) := by
  induction l generalizing r k idx with
  | nil => exact hr
  | cons verstr l ih =>
    have hrest := ih (r := Verdef.mk' verstr idx 0) rfl (k + 1) (idx + 1)
    cases l with
    | nil => exact ⟨verdefStride_ne_zero, by rw [Nat.mul_add, Nat.mul_one], hrest⟩
    | cons verstr' l =>
      exact ⟨verdefStride_ne_zero, by rw [Nat.mul_add, Nat.mul_one], hrest⟩

theorem mem_placeDefs {k : ℕ} {l : List Verdef} {x : ℕ × Verdef}
    (hx : x ∈ placeDefs k l) : ∃ i, x.1 = verdefStride * (k + i) ∧ l[i]? = some x.2 := by
  induction l generalizing k with
  | nil => exact absurd hx List.not_mem_nil
  | cons r l ih =>
    rcases List.mem_cons.mp hx with rfl | hx
    · exact ⟨0, rfl, rfl⟩
    · obtain ⟨i, hplace, hget⟩ := ih hx
      exact ⟨i + 1, by rw [hplace, Nat.add_right_comm, Nat.add_assoc], hget⟩

/-! ## Groups of requirements -/

structure VersionEntry where
  sym : VersionedSymbol
  idx : ℕ

structure VersionGroup where
  lib : SharedLib
  entries : List VersionEntry

def VersionEntry.aux (e : VersionEntry) (next : ℕ) : Vernaux where
  vnaHash := elfHash e.sym.getVersion
  vnaOther := e.idx
  vnaName := e.sym.getVersion
  vnaNext := next

namespace VersionGroup

def need (g : VersionGroup) (next : ℕ) : Verneed where
  vnCnt := g.entries.length
  vnFile := g.lib.soname
  vnAux := verneedSize
  vnNext := next

def numRecords (g : VersionGroup) : ℕ := g.entries.length + 1

end VersionGroup

def encodeEntries : List VersionEntry → List Vernaux
  | [] => []
  | [e] => [e.aux 0]
  | e :: e' :: l => e.aux verneedSize :: encodeEntries (e' :: l)

def encodeGroup (g : VersionGroup) (next : ℕ) : List VerneedRecord :=
  .need (g.need next) :: (encodeEntries g.entries).map .aux

def encodeFront (groups : List VersionGroup) : List VerneedRecord :=
  groups.flatMap fun g => encodeGroup g (verneedSize * g.numRecords)

theorem encodeEntries_append (l : List VersionEntry) (e : VersionEntry) :
    encodeEntries (l ++ [e]) = l.map (VersionEntry.aux · verneedSize) ++ [e.aux 0] := by
  induction l with
  | nil => rfl
  | cons e' l ih =>
    cases l with
    | nil => rfl
    | cons e'' l => rw [List.cons_append, List.cons_append, encodeEntries,
        ← List.cons_append, ih]; rfl

theorem length_encodeEntries (l : List VersionEntry) : (encodeEntries l).length = l.length := by
  induction l with
  | nil => rfl
  | cons e l ih =>
    cases l with
    | nil => rfl
    | cons e' l => rw [encodeEntries, List.length_cons, ih]; rfl

theorem length_encodeGroup (g : VersionGroup) (next : ℕ) :
    (encodeGroup g next).length = g.numRecords := by
  rw [encodeGroup, List.length_cons, List.length_map, length_encodeEntries]
  rfl

theorem encodeFront_append (groups : List VersionGroup) (g : VersionGroup) :
    encodeFront (groups ++ [g]) =
      encodeFront groups ++ encodeGroup g (verneedSize * g.numRecords) := by
  rw [encodeFront, List.flatMap_append, List.flatMap_singleton]
  rfl

/-- The state with the groups `done`, behind which the record of the library `lib`
was begun. -/
structure Begun (st : VerneedState) (done : List VersionGroup) (lib : SharedLib) : Prop where
  buf : st.buf = encodeFront done ++ encodeGroup ⟨lib, []⟩ 0
  verneed : st.verneed = some (encodeFront done).length
  aux : st.aux = none
  shInfo : st.shInfo = done.length + 1

/-- The state with the groups `done`, behind which the library `lib` has got the
entries `before` and `last`. -/
structure Filling (st : VerneedState) (done : List VersionGroup) (lib : SharedLib)
    (before : List VersionEntry) (last : VersionEntry) : Prop where
  buf : st.buf = encodeFront done ++ encodeGroup ⟨lib, before ++ [last]⟩ 0
  verneed : st.verneed = some (encodeFront done).length
  aux : st.aux = some ((encodeFront done).length + 1 + before.length)
  shInfo : st.shInfo = done.length + 1
  veridx : st.veridx = last.idx

def VerneedState.nextEntry (st : VerneedState) (sym : VersionedSymbol) : VersionEntry :=
  ⟨sym, (st.veridx + 1) % 2 ^ 16⟩

theorem Begun.first {st : VerneedState} (hbuf : st.buf = []) (hverneed : st.verneed = none)
    (hinfo : st.shInfo = 0) (lib : SharedLib) : Begun (st.startGroup lib) [] lib where
  buf := by
    rw [VerneedState.startGroup, hverneed, hbuf]
    rfl
  verneed := by
    rw [VerneedState.startGroup, hbuf]
    rfl
  aux := rfl
  shInfo := by
    rw [VerneedState.startGroup, hinfo]
    rfl

variable {st : VerneedState} {done : List VersionGroup} {lib : SharedLib}
  {before : List VersionEntry} {last : VersionEntry}

theorem link_encodeGroup (front : List VerneedRecord) (g : VersionGroup) :
    VerneedState.link (front ++ encodeGroup g 0) front.length =
      front ++ encodeGroup g (verneedSize * g.numRecords) := by
  have hdist : verneedSize * (front ++ encodeGroup g 0).length -
      verneedSize * front.length = verneedSize * g.numRecords := by
    rw [List.length_append, length_encodeGroup, Nat.mul_add, Nat.add_sub_cancel_left]
  rw [VerneedState.link, hdist]
  exact modify_append_length front (.need (g.need 0)) _ _

theorem Filling.startGroup (h : Filling st done lib before last) (lib' : SharedLib) :
    Begun (st.startGroup lib') (done ++ [⟨lib, before ++ [last]⟩]) lib' where
  buf := by
    rw [VerneedState.startGroup, h.verneed, VerneedState.linkLast, h.buf,
      link_encodeGroup, ← encodeFront_append]
    rfl
  verneed := by
    rw [VerneedState.startGroup, h.buf, encodeFront_append, List.length_append,
      List.length_append, length_encodeGroup, length_encodeGroup]
  aux := rfl
  shInfo := by
    rw [VerneedState.startGroup, h.shInfo, List.length_append]
    rfl

theorem countAux_encodeGroup (front : List VerneedRecord) (lib : SharedLib)
    (l : List VersionEntry) (e : VersionEntry) :
    VerneedState.countAux (front ++ encodeGroup ⟨lib, l⟩ 0) (some front.length) =
      front ++ .need (VersionGroup.need ⟨lib, l ++ [e]⟩ 0) :: (encodeEntries l).map .aux := by
  rw [VerneedState.countAux, encodeGroup, modify_append_length]
  simp [VerneedRecord.countAux, VersionGroup.need]

theorem Begun.addEntry (h : Begun st done lib) (sym : VersionedSymbol) :
    Filling (st.addEntry sym) done lib [] (st.nextEntry sym) where
  buf := by
    rw [VerneedState.addEntry, h.buf, h.verneed, h.aux,
      countAux_encodeGroup _ _ _ (st.nextEntry sym), VerneedState.linkLast,
      List.append_assoc]
    rfl
  verneed := h.verneed
  aux := by
    rw [VerneedState.addEntry, h.buf, List.length_append, length_encodeGroup]
    rfl
  shInfo := h.shInfo
  veridx := rfl

theorem link_encodeEntries (front : List VerneedRecord) (need : VerneedRecord)
    (before : List VersionEntry) (last : VersionEntry) :
    VerneedState.link (front ++ need :: (encodeEntries (before ++ [last])).map .aux)
        (front.length + 1 + before.length) =
      front ++ need :: ((before ++ [last]).map (VersionEntry.aux · verneedSize)).map .aux := by
  have hsplit : front ++ need :: (encodeEntries (before ++ [last])).map .aux =
      (front ++ need :: (before.map (VersionEntry.aux · verneedSize)).map .aux) ++
        [.aux (last.aux 0)] := by
    rw [encodeEntries_append]
    simp
  have hlength : front.length + 1 + before.length =
      (front ++ need :: (before.map (VersionEntry.aux · verneedSize)).map
        VerneedRecord.aux).length := by
    simp only [List.length_append, List.length_cons, List.length_map]
    omega
  rw [hsplit, hlength, VerneedState.link, modify_append_length, List.length_append,
    List.length_singleton, Nat.mul_add, Nat.mul_one, Nat.add_sub_cancel_left]
  simp [VerneedRecord.setNext, VersionEntry.aux]

theorem Filling.addEntry (h : Filling st done lib before last) (sym : VersionedSymbol) :
    Filling (st.addEntry sym) done lib (before ++ [last]) (st.nextEntry sym) where
  buf := by
    have hgroup : encodeGroup ⟨lib, before ++ [last] ++ [st.nextEntry sym]⟩ 0 =
        (.need (VersionGroup.need ⟨lib, before ++ [last] ++ [st.nextEntry sym]⟩ 0) ::
          ((before ++ [last]).map (VersionEntry.aux · verneedSize)).map .aux) ++
            [.aux ((st.nextEntry sym).aux 0)] := by
      rw [encodeGroup, encodeEntries_append, List.map_append]
      rfl
    rw [VerneedState.addEntry, h.buf, h.verneed, h.aux,
      countAux_encodeGroup _ _ _ (st.nextEntry sym), VerneedState.linkLast,
      link_encodeEntries, hgroup, ← List.append_assoc]
    rfl
  verneed := h.verneed
  aux := by
    rw [VerneedState.addEntry, h.buf]
    simp only [List.length_append, length_encodeGroup, VersionGroup.numRecords,
      List.length_singleton]
    congr 1
    omega
  shInfo := h.shInfo
  veridx := rfl

end Mold.Elf
