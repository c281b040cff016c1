import Mold.Common.ArchiveWalk

/-!
# The reader of thin archives

`read_thin_archive_members` skips tables, and it opens the file of another member.  It does
not move the cursor then, so the next turn comes to the same header, and the loop never ends.
It ends for the files in which it comes to no file to open.
-/

namespace Mold.ArchiveFile

open Lib

variable {φ : Type*} {files : Files φ} {bytes strtab : List Byte} {data : ℕ} {h : Header}
  {file : φ} {s : Cursor φ} {res : Except Error (List φ)}

def ArHdr.isLong (hdr : ArHdr) : Bool :=
  hdr.startsWith (str "#1/") || hdr.startsWith (str "/")

/-- A member that is skipped: a table, or a symbol table of Darwin. -/
def Skips (bytes : List Byte) (h : Header) (strtab : List Byte) : Prop :=
  (h.hdr.isStrtab || h.hdr.isSymtab) = true ∨
    h.hdr.isLong = true ∧ ∃ name n, h.hdr.readName strtab (h.data bytes) = some (name, n) ∧
      isDarwinSymtabName name = true

def Opens (files : Files φ) (bytes : List Byte) (h : Header) (strtab : List Byte) (file : φ) :
    Prop :=
  (h.hdr.isStrtab || h.hdr.isSymtab) = false ∧ h.hdr.isLong = true ∧
    ∃ name n, h.hdr.readName strtab (h.data bytes) = some (name, n) ∧
      isDarwinSymtabName name = false ∧ files.mustOpen (memberPath files.parentPath name) = some file

inductive ComesToFile (files : Files φ) (bytes : List Byte) : ℕ → List Byte → Prop
  | here {data : ℕ} {strtab : List Byte} {h : Header} {file : φ}
      (hnext : nextHeader bytes data = .ok (some h)) (hopens : Opens files bytes h strtab file) :
      ComesToFile files bytes data strtab
  | skip {data : ℕ} {strtab : List Byte} {h : Header}
      (hnext : nextHeader bytes data = .ok (some h)) (hskips : Skips bytes h strtab)
      (hrest : ComesToFile files bytes (h.body + h.size) (strtabAfter bytes h strtab)) :
      ComesToFile files bytes data strtab

theorem not_long_iff : (!h.hdr.startsWith (str "#1/") && !h.hdr.startsWith (str "/")) = true ↔
    h.hdr.isLong = false := by
  rw [ArHdr.isLong, ← Bool.not_or, Bool.not_eq_true']

theorem thinTurn_of_skips (hnext : nextHeader bytes s.data = .ok (some h))
    (hskips : Skips bytes h s.strtab) :
    thinTurn files bytes s = .next ⟨h.body + h.size, strtabAfter bytes h s.strtab, s.vec⟩ := by
  rw [thinTurn, hnext, strtabAfter]
  dsimp only
  cases hstrtab : h.hdr.isStrtab with
  | true => rfl
  | false =>
    cases hsymtab : h.hdr.isSymtab with
    | true => rfl
    | false =>
      rcases hskips with htable | ⟨hlong, name, n, hname, hdarwin⟩
      · rw [hstrtab, hsymtab] at htable
        cases htable
      · rw [if_neg (by decide), if_neg (by decide), if_neg, hname]
        · dsimp only
          rw [if_pos hdarwin, if_neg (by decide)]
        · rw [not_long_iff, hlong]
          decide

theorem thinTurn_of_opens (hnext : nextHeader bytes s.data = .ok (some h))
    (hopens : Opens files bytes h s.strtab file) :
    thinTurn files bytes s = .next ⟨h.headerOffset, s.strtab, s.vec ++ [file]⟩ := by
  obtain ⟨htable, hlong, name, n, hname, hdarwin, hopen⟩ := hopens
  obtain ⟨hstrtab, hsymtab⟩ := Bool.or_eq_false_iff.mp htable
  rw [thinTurn, hnext]
  dsimp only
  rw [hstrtab, hsymtab, if_neg (by decide), if_neg (by decide), if_neg, hname]
  · dsimp only
    rw [hdarwin, if_neg (by decide), hopen]
  · rw [not_long_iff, hlong]
    decide

theorem thinTurn_cases {s' : Cursor φ} (hturn : thinTurn files bytes s = .next s') :
    ∃ h, nextHeader bytes s.data = .ok (some h) ∧
      (Skips bytes h s.strtab ∧ s' = ⟨h.body + h.size, strtabAfter bytes h s.strtab, s.vec⟩ ∨
        ∃ file, Opens files bytes h s.strtab file ∧
          s' = ⟨h.headerOffset, s.strtab, s.vec ++ [file]⟩) := by
  cases hnext : nextHeader bytes s.data with
  | error e =>
    rw [thinTurn, hnext] at hturn
    cases hturn
  | ok o =>
    cases o with
    | none =>
      rw [thinTurn, hnext] at hturn
      cases hturn
    | some h =>
      refine ⟨h, rfl, ?_⟩
      by_cases hskips : Skips bytes h s.strtab
      · rw [thinTurn_of_skips hnext hskips] at hturn
        cases hturn
        exact .inl ⟨hskips, rfl⟩
      · have htable : ¬ (h.hdr.isStrtab || h.hdr.isSymtab) = true := fun ht => hskips (.inl ht)
        obtain ⟨hstrtab, hsymtab⟩ := Bool.or_eq_false_iff.mp (Bool.eq_false_iff.mpr htable)
        have horig := hturn
        rw [thinTurn, hnext] at hturn
        dsimp only at hturn
        rw [hstrtab, hsymtab, if_neg (by decide), if_neg (by decide)] at hturn
        split at hturn
        case isTrue => cases hturn
        case isFalse hlong =>
          rw [not_long_iff, Bool.not_eq_false] at hlong
          split at hturn
          · cases hturn
          case h_2 name n hname =>
            cases hdarwin : isDarwinSymtabName name with
            | true => exact absurd (.inr ⟨hlong, name, n, hname, hdarwin⟩) hskips
            | false =>
              rw [hdarwin, if_neg (by decide)] at hturn
              split at hturn
              · cases hturn
              case h_2 file hopen =>
                cases hturn
                exact .inr ⟨file, ⟨Bool.eq_false_iff.mpr htable, hlong, name, n, hname, hdarwin,
                  hopen⟩, rfl⟩

theorem vec_of_thinTurn {vec : List φ} (hturn : thinTurn files bytes s = .done (.ok vec)) :
    vec = s.vec := by
  rw [thinTurn] at hturn
  split at hturn
  · cases hturn
  · cases hturn
    rfl
  · split at hturn
    · cases hturn
    · split at hturn
      · cases hturn
      · split at hturn
        · cases hturn
        · split at hturn
          · cases hturn
          · split at hturn
            · cases hturn
            · split at hturn
              · cases hturn
              · cases hturn

/-! ## The loop -/

theorem align_align (data : ℕ) : align (align data) = align data := by
  rcases Nat.mod_two_eq_zero_or_one data with h | h
  · rw [align_of_even h, align_of_even h]
  · rw [align_of_odd h, align_of_even (by omega)]

theorem nextHeader_headerOffset (hnext : nextHeader bytes data = .ok (some h)) :
    nextHeader bytes h.headerOffset = .ok (some h) := by
  obtain ⟨hlt, hoff, hin⟩ := nextHeader_eq_some_iff.mp hnext
  refine nextHeader_eq_some_iff.mpr ⟨?_, ?_, hin⟩
  · have hle := hin.le_length
    rw [hin.body_eq] at hle
    omega
  · rw [hoff, align_align]

theorem not_ends_of_opens (hnext : nextHeader bytes s.data = .ok (some h))
    (hopens : Opens files bytes h s.strtab file) : ¬ Ends (thinTurn files bytes) s res := by
  refine @not_ends _ _ _ _ _ (fun s => nextHeader bytes s.data = .ok (some h) ∧
    Opens files bytes h s.strtab file) ?_ ⟨hnext, hopens⟩
  rintro s ⟨hnext, hopens⟩
  exact ⟨_, thinTurn_of_opens hnext hopens, nextHeader_headerOffset hnext, hopens⟩

theorem ComesToFile.not_ends (hcomes : ComesToFile files bytes data strtab) (vec : List φ) :
    ¬ Ends (thinTurn files bytes) ⟨data, strtab, vec⟩ res := by
  induction hcomes with
  | here hnext hopens => exact not_ends_of_opens hnext hopens
  | skip hnext hskips _ ih =>
    rw [ends_iff_of_next (thinTurn_of_skips hnext hskips)]
    exact ih

theorem exists_ends_of_not_comesToFile (hcomes : ¬ ComesToFile files bytes data strtab)
    (vec : List φ) : ∃ res, Ends (thinTurn files bytes) ⟨data, strtab, vec⟩ res := by
  induction hm : bytes.length - data using Nat.strong_induction_on generalizing data strtab with
  | _ m ih =>
    cases hturn : thinTurn files bytes ⟨data, strtab, vec⟩ with
    | done res => exact ⟨res, ends_of_done hturn⟩
    | next s' =>
      obtain ⟨h, hnext, ⟨hskips, rfl⟩ | ⟨file, hopens, -⟩⟩ := thinTurn_cases hturn
      · have hlt := lt_of_nextHeader hnext
        have hle := (nextHeader_eq_some_iff.mp hnext).2.2.le_length
        dsimp only at hlt
        obtain ⟨res, hres⟩ := ih _ (by omega) (fun hrest => hcomes (.skip hnext hskips hrest)) rfl
        exact ⟨res, ends_of_next hturn hres⟩
      · exact absurd (.here hnext hopens) hcomes

theorem vec_of_ends {vec : List φ} (hends : Ends (thinTurn files bytes) s (.ok vec)) :
    vec = s.vec := by
  refine Ends.induction (P := fun s => vec = s.vec) hends (fun s hdone => vec_of_thinTurn hdone) ?_
  intro s s' hturn hrest ih
  obtain ⟨h, hnext, ⟨hskips, rfl⟩ | ⟨file, hopens, rfl⟩⟩ := thinTurn_cases hturn
  · exact ih
  · exact absurd hrest (not_ends_of_opens (nextHeader_headerOffset hnext) hopens)

theorem Walk.ends_thin {l : List (Header × List Byte)} (hwalk : Walk bytes data strtab l)
    (hl : ∀ e ∈ l, Skips bytes e.1 e.2) (vec : List φ) :
    Ends (thinTurn files bytes) ⟨data, strtab, vec⟩ (.ok vec) := by
  induction hwalk with
  | done hnext => exact ends_of_done (by rw [thinTurn, hnext])
  | member hnext _ ih =>
    obtain ⟨hskips, hl⟩ := List.forall_mem_cons.mp hl
    exact ends_of_next (thinTurn_of_skips hnext hskips) (ih hl)

end Mold.ArchiveFile
