import Mold.Common.ArchiveFile

/-!
# The walk over the headers of an archive

`read_fat_archive_members` and `read_archive_file` come to the same headers, each with the
string table in front of it, and both read each header as a member of one kind.  So what
they return can be read off the list of the headers.
-/

namespace Mold.ArchiveFile

open Lib

variable {bytes strtab : List Byte} {data : ℕ} {h : Header}

/-! ## The next header -/

structure Header.InFile (h : Header) (bytes : List Byte) : Prop where
  hdr_eq : h.hdr = .ofBytes (slice bytes h.headerOffset 60)
  fmag : h.hdr.hasValidFmag = true
  getSize_eq : h.hdr.getSize = some h.size
  body_eq : h.body = h.headerOffset + 60
  le_length : h.body + h.size ≤ bytes.length

theorem headerAt_eq_some_iff :
    headerAt bytes data = some h ↔ h.headerOffset = data ∧ h.InFile bytes := by
  constructor
  · intro hat
    rw [headerAt] at hat
    split at hat
    · cases hat
    case isFalse hlen =>
      simp only at hat
      split at hat
      case isFalse => cases hat
      case isTrue hfmag =>
        obtain ⟨size, hsize, hat⟩ := Option.bind_eq_some_iff.mp hat
        split at hat
        · cases hat
        case isFalse hfits =>
          cases hat
          exact ⟨rfl, rfl, hfmag, hsize, rfl, by change data + 60 + size ≤ bytes.length; omega⟩
  · rintro ⟨hoff, hin⟩
    have hle := hin.le_length
    rw [hin.body_eq, hoff] at hle
    have hfmag := hin.fmag
    have hsize := hin.getSize_eq
    rw [hin.hdr_eq, hoff] at hfmag hsize
    have hh : h = ⟨data, .ofBytes (slice bytes data 60), data + 60, h.size⟩ := by
      rw [← hoff, ← hin.hdr_eq, ← hin.body_eq]
    rw [headerAt, if_neg (by omega)]
    simp only
    rw [if_pos hfmag, hsize, Option.bind_some, if_neg (by omega), ← hh]

theorem le_align (data : ℕ) : data ≤ align data := by
  rw [align]
  split
  · exact Nat.le_succ data
  · exact Nat.le_refl data

theorem align_of_even (hdata : data % 2 = 0) : align data = data := by
  rw [align, if_neg (by omega)]

theorem align_of_odd (hdata : data % 2 = 1) : align data = data + 1 := by
  rw [align, if_pos hdata]

theorem nextHeader_eq_some_iff :
    nextHeader bytes data = .ok (some h) ↔
      data < bytes.length ∧ h.headerOffset = align data ∧ h.InFile bytes := by
  rw [nextHeader]
  constructor
  · intro hnext
    split at hnext
    · cases hnext
    case isFalse hend =>
      split at hnext
      · cases hnext
      case h_2 h' hat =>
        cases hnext
        exact ⟨Nat.lt_of_not_le fun hle => hend (.inl hle), headerAt_eq_some_iff.mp hat⟩
  · rintro ⟨hlt, hin⟩
    have hle := hin.2.le_length
    rw [hin.2.body_eq, hin.1] at hle
    rw [if_neg (by omega), headerAt_eq_some_iff.mpr hin]

theorem lt_of_nextHeader (hnext : nextHeader bytes data = .ok (some h)) :
    data < h.body + h.size ∧ data < bytes.length := by
  obtain ⟨hlt, hoff, hin⟩ := nextHeader_eq_some_iff.mp hnext
  refine ⟨?_, hlt⟩
  rw [hin.body_eq, hoff]
  have := le_align data
  omega

theorem nextHeader_eq_none_iff :
    nextHeader bytes data = .ok none ↔ bytes.length ≤ data ∨ align data = bytes.length := by
  rw [nextHeader]
  constructor
  · intro hnext
    by_contra hend
    rw [if_neg hend] at hnext
    split at hnext
    · cases hnext
    · cases hnext
  · exact fun hend => if_pos hend

/-! ## Members -/

inductive Kind where
  | table
  | symtab (name : List Byte) (nameSize : ℕ)
  | file (name : List Byte) (nameSize : ℕ)

def kind (bytes : List Byte) (e : Header × List Byte) : Option Kind :=
  if e.1.hdr.isStrtab || e.1.hdr.isSymtab then
    some .table
  else
    match e.1.hdr.readName e.2 (e.1.data bytes) with
    | none => none
    | some (name, nameSize) =>
      if e.1.size < nameSize then none
      else if isDarwinSymtabName name then some (.symtab name nameSize)
      else some (.file name nameSize)

def strtabAfter (bytes : List Byte) (h : Header) (strtab : List Byte) : List Byte :=
  if h.hdr.isStrtab then h.data bytes else strtab

inductive Walk (bytes : List Byte) : ℕ → List Byte → List (Header × List Byte) → Prop
  | done {data : ℕ} {strtab : List Byte} (hnext : nextHeader bytes data = .ok none) :
      Walk bytes data strtab []
  | member {data : ℕ} {strtab : List Byte} {h : Header} {l : List (Header × List Byte)}
      (hnext : nextHeader bytes data = .ok (some h))
      (hrest : Walk bytes (h.body + h.size) (strtabAfter bytes h strtab) l) :
      Walk bytes data strtab ((h, strtab) :: l)

variable {l : List (Header × List Byte)}

theorem Walk.le_headerOffset (hwalk : Walk bytes data strtab l)
    {e : Header × List Byte} (he : e ∈ l) : data ≤ e.1.headerOffset := by
  induction hwalk with
  | done => cases he
  | @member data strtab h l hnext _ ih =>
    rcases List.mem_cons.mp he with rfl | he
    · exact (nextHeader_eq_some_iff.mp hnext).2.1 ▸ le_align data
    · exact Nat.le_trans (Nat.le_of_lt (lt_of_nextHeader hnext).1) (ih he)

theorem Walk.pairwise (hwalk : Walk bytes data strtab l) :
    l.Pairwise fun e e' => e.1.headerOffset < e'.1.headerOffset := by
  induction hwalk with
  | done => exact .nil
  | @member data strtab h l hnext hrest ih =>
    refine List.pairwise_cons.mpr ⟨fun e he => ?_, ih⟩
    have hle := hrest.le_headerOffset he
    rw [(nextHeader_eq_some_iff.mp hnext).2.2.body_eq] at hle
    change h.headerOffset < e.1.headerOffset
    omega

/-- A loop that goes from header to header, and takes each member in if its name can be
read. -/
structure IsReader {σ ρ : Type*} (bytes : List Byte) (turn : σ → Turn σ (Except Error ρ))
    (data : σ → ℕ) (strtab : σ → List Byte) (push : σ → Header × List Byte → σ)
    (out : σ → ρ) : Prop where
  error (s : σ) (e : Error) (hnext : nextHeader bytes (data s) = .error e) :
    turn s = .done (.error e)
  done (s : σ) (hnext : nextHeader bytes (data s) = .ok none) : turn s = .done (.ok (out s))
  member (s : σ) (h : Header) (hnext : nextHeader bytes (data s) = .ok (some h)) :
    turn s = if (kind bytes (h, strtab s)).isSome then .next (push s (h, strtab s))
      else .done (.error .corrupted)
  data_push (s : σ) (e : Header × List Byte) : data (push s e) = e.1.body + e.1.size
  strtab_push (s : σ) (e : Header × List Byte) : strtab (push s e) = strtabAfter bytes e.1 e.2

section

variable {σ ρ : Type*} {turn : σ → Turn σ (Except Error ρ)} {cursor : σ → ℕ}
  {table : σ → List Byte} {push : σ → Header × List Byte → σ} {out : σ → ρ} {s : σ} {r : ρ}

theorem IsReader.of_ends (hreader : IsReader bytes turn cursor table push out)
    (hends : Ends turn s (.ok r)) :
    ∃ l, Walk bytes (cursor s) (table s) l ∧ (∀ e ∈ l, (kind bytes e).isSome) ∧
      r = out (l.foldl push s) := by
  refine Ends.induction (P := fun s => ∃ l, Walk bytes (cursor s) (table s) l ∧
    (∀ e ∈ l, (kind bytes e).isSome) ∧ r = out (l.foldl push s)) hends ?_ ?_
  · intro s hdone
    rcases hnext : nextHeader bytes (cursor s) with e | - | h
    · rw [hreader.error s e hnext] at hdone
      cases hdone
    · rw [hreader.done s hnext] at hdone
      cases hdone
      exact ⟨[], .done hnext, List.forall_mem_nil _, rfl⟩
    · rw [hreader.member s h hnext] at hdone
      split at hdone
      · cases hdone
      · cases hdone
  · intro s s' hturn _ ih
    rcases hnext : nextHeader bytes (cursor s) with e | - | h
    · rw [hreader.error s e hnext] at hturn
      cases hturn
    · rw [hreader.done s hnext] at hturn
      cases hturn
    · rw [hreader.member s h hnext] at hturn
      split at hturn
      case isFalse => cases hturn
      case isTrue hkind =>
        cases hturn
        obtain ⟨l, hwalk, hl, hr⟩ := ih
        rw [hreader.data_push, hreader.strtab_push] at hwalk
        exact ⟨(h, table s) :: l, .member hnext hwalk, List.forall_mem_cons.mpr ⟨hkind, hl⟩, hr⟩

theorem IsReader.ends (hreader : IsReader bytes turn cursor table push out)
    (hwalk : Walk bytes (cursor s) (table s) l)
    (hl : ∀ e ∈ l, (kind bytes e).isSome) : Ends turn s (.ok (out (l.foldl push s))) := by
  induction l generalizing s with
  | nil =>
    cases hwalk with
    | done hnext => exact ends_of_done (hreader.done s hnext)
  | cons e l ih =>
    obtain ⟨hkind, hl'⟩ := List.forall_mem_cons.mp hl
    cases hwalk with
    | @member _ _ h _ hnext hrest =>
      refine ends_of_next ((hreader.member s h hnext).trans (if_pos hkind)) (ih ?_ hl')
      rw [hreader.data_push, hreader.strtab_push]
      exact hrest

theorem IsReader.exists_ends (hreader : IsReader bytes turn cursor table push out) (s : σ) :
    ∃ r, Ends turn s r := by
  refine Lib.exists_ends (fun s => bytes.length - cursor s) (fun s s' hturn => ?_) s
  rcases hnext : nextHeader bytes (cursor s) with e | - | h
  · rw [hreader.error s e hnext] at hturn
    cases hturn
  · rw [hreader.done s hnext] at hturn
    cases hturn
  · rw [hreader.member s h hnext] at hturn
    split at hturn
    case isFalse => cases hturn
    case isTrue =>
      cases hturn
      have hlt := lt_of_nextHeader hnext
      rw [hreader.data_push]
      change bytes.length - (h.body + h.size) < _
      omega

end

/-! ## What the readers return -/

/-- What `read_fat_archive_members` pushes for a member. -/
def fatSlice (bytes : List Byte) (e : Header × List Byte) : Option Slice :=
  match kind bytes e with
  | some (.file name nameSize) => some ⟨name, e.1.body + nameSize, e.1.size - nameSize⟩
  | _ => none

/-- What `read_archive_file` pushes for a member. -/
def indexMember (parentPath bytes : List Byte) (e : Header × List Byte) :
    Option ArchiveMemberInfo :=
  match kind bytes e with
  | some (.file name nameSize) =>
    some (memberInfo (isThinArchive bytes) parentPath e.1 name nameSize)
  | _ => none

def darwinSymtab (bytes : List Byte) (e : Header × List Byte) : Option (List Byte × List Byte) :=
  match kind bytes e with
  | some (.symtab name nameSize) =>
    some (name, slice bytes (e.1.body + nameSize) (e.1.size - nameSize))
  | _ => none

/-- `read_fat_archive_members` takes in a member. -/
def fatPush (bytes : List Byte) (s : Cursor Slice) (e : Header × List Byte) : Cursor Slice :=
  ⟨e.1.body + e.1.size, strtabAfter bytes e.1 e.2, s.vec ++ (fatSlice bytes e).toList⟩

/-- `read_archive_file` takes in a member. -/
def indexPush (parentPath bytes : List Byte) (s : IndexCursor) (e : Header × List Byte) :
    IndexCursor :=
  ⟨e.1.body + e.1.size, strtabAfter bytes e.1 e.2,
    ((darwinSymtab bytes e).getD (s.symtabName, s.symtabData)).1,
    ((darwinSymtab bytes e).getD (s.symtabName, s.symtabData)).2,
    s.members ++ (indexMember parentPath bytes e).toList⟩

theorem fatTurn_of_header {s : Cursor Slice} (hnext : nextHeader bytes s.data = .ok (some h)) :
    fatTurn bytes s =
      if (kind bytes (h, s.strtab)).isSome then
        .next (fatPush bytes s (h, s.strtab))
      else .done (.error .corrupted) := by
  rw [fatTurn, hnext, fatPush, fatSlice, kind, strtabAfter]
  cases hstrtab : h.hdr.isStrtab
  · cases hsymtab : h.hdr.isSymtab
    · cases hname : h.hdr.readName s.strtab (h.data bytes) with
      | none => simp [hstrtab, hsymtab, hname]
      | some p =>
        obtain ⟨name, nameSize⟩ := p
        by_cases hsize : h.size < nameSize
        · simp [hstrtab, hsymtab, hname, hsize]
        · cases hdarwin : isDarwinSymtabName name
          · simp [hstrtab, hsymtab, hname, hsize, hdarwin]
          · simp [hstrtab, hsymtab, hname, hsize, hdarwin]
    · simp [hstrtab, hsymtab]
  · simp [hstrtab]

theorem indexTurn_of_header {parentPath : List Byte} {s : IndexCursor}
    (hnext : nextHeader bytes s.data = .ok (some h)) :
    indexTurn parentPath bytes s =
      if (kind bytes (h, s.strtab)).isSome then
        .next (indexPush parentPath bytes s (h, s.strtab))
      else .done (.error .corrupted) := by
  rw [indexTurn, hnext, indexPush, indexMember, darwinSymtab, kind, strtabAfter]
  cases hstrtab : h.hdr.isStrtab
  · cases hsymtab : h.hdr.isSymtab
    · cases hname : h.hdr.readName s.strtab (h.data bytes) with
      | none => simp [hstrtab, hsymtab, hname]
      | some p =>
        obtain ⟨name, nameSize⟩ := p
        by_cases hsize : h.size < nameSize
        · simp [hstrtab, hsymtab, hname, hsize]
        · cases hdarwin : isDarwinSymtabName name
          · simp [hstrtab, hsymtab, hname, hsize, hdarwin]
          · simp [hstrtab, hsymtab, hname, hsize, hdarwin]
    · simp [hstrtab, hsymtab]
  · simp [hstrtab]

theorem isReader_fatTurn (bytes : List Byte) :
    IsReader bytes (fatTurn bytes) (·.data) (·.strtab) (fatPush bytes) (·.vec) where
  error s e hnext := by rw [fatTurn, hnext]
  done s hnext := by rw [fatTurn, hnext]
  member _ _ := fatTurn_of_header
  data_push _ _ := rfl
  strtab_push _ _ := rfl

theorem isReader_indexTurn (parentPath bytes : List Byte) :
    IsReader bytes (indexTurn parentPath bytes) (·.data) (·.strtab) (indexPush parentPath bytes)
      id where
  error s e hnext := by rw [indexTurn, hnext]
  done s hnext := by
    rw [indexTurn, hnext]
    rfl
  member _ _ := indexTurn_of_header
  data_push _ _ := rfl
  strtab_push _ _ := rfl

theorem vec_foldl_fatPush (s : Cursor Slice) (l : List (Header × List Byte)) :
    (l.foldl (fatPush bytes) s).vec = s.vec ++ l.filterMap (fatSlice bytes) := by
  induction l generalizing s with
  | nil => exact (List.append_nil s.vec).symm
  | cons e l ih =>
    rw [List.foldl_cons, ih, fatPush, List.filterMap_cons, List.append_assoc]
    cases fatSlice bytes e with
    | none => rfl
    | some x => rfl

theorem members_foldl_indexPush (parentPath : List Byte) (s : IndexCursor)
    (l : List (Header × List Byte)) :
    (l.foldl (indexPush parentPath bytes) s).members =
      s.members ++ l.filterMap (indexMember parentPath bytes) := by
  induction l generalizing s with
  | nil => exact (List.append_nil s.members).symm
  | cons e l ih =>
    rw [List.foldl_cons, ih, indexPush, List.filterMap_cons, List.append_assoc]
    cases indexMember parentPath bytes e with
    | none => rfl
    | some x => rfl

theorem symtab_foldl_indexPush (parentPath : List Byte) (s : IndexCursor)
    (l : List (Header × List Byte)) :
    ((l.foldl (indexPush parentPath bytes) s).symtabName,
        (l.foldl (indexPush parentPath bytes) s).symtabData) =
      ((l.filterMap (darwinSymtab bytes)).getLast?).getD (s.symtabName, s.symtabData) := by
  induction l generalizing s with
  | nil => rfl
  | cons e l ih =>
    rw [List.foldl_cons, ih, indexPush, List.filterMap_cons]
    cases darwinSymtab bytes e with
    | none => rfl
    | some x =>
      rw [List.getLast?_cons]
      rfl

theorem readsFat_iff {vec : List Slice} :
    ReadsFat bytes (.ok vec) ↔
      ∃ l, Walk bytes 8 [] l ∧ (∀ e ∈ l, (kind bytes e).isSome) ∧
        vec = l.filterMap (fatSlice bytes) := by
  constructor
  · intro hends
    obtain ⟨l, hwalk, hl, rfl⟩ := (isReader_fatTurn bytes).of_ends hends
    exact ⟨l, hwalk, hl, vec_foldl_fatPush (.start Slice) l⟩
  · rintro ⟨l, hwalk, hl, rfl⟩
    have hends := (isReader_fatTurn bytes).ends (s := .start Slice) hwalk hl
    rw [vec_foldl_fatPush] at hends
    exact hends

/-- What the loop of `read_archive_file` ends with. -/
def indexOf (parentPath bytes : List Byte) (l : List (Header × List Byte)) : IndexCursor :=
  l.foldl (indexPush parentPath bytes) .start

theorem readsIndex_of_walk (parentPath : List Byte)
    (hwalk : Walk bytes 8 [] l) (hl : ∀ e ∈ l, (kind bytes e).isSome) :
    ReadsIndex parentPath bytes (finishIndex (indexOf parentPath bytes l)) :=
  ⟨_, (isReader_indexTurn parentPath bytes).ends (s := .start) hwalk hl, rfl⟩

theorem exists_walk_of_readsIndex {parentPath : List Byte} {res : ArchiveReadResult}
    (hreads : ReadsIndex parentPath bytes (.ok res)) :
    ∃ l, Walk bytes 8 [] l ∧ (∀ e ∈ l, (kind bytes e).isSome) ∧
      finishIndex (indexOf parentPath bytes l) = .ok res := by
  obtain ⟨loop, hends, hres⟩ := hreads
  cases loop with
  | error e => cases hres
  | ok s =>
    obtain ⟨l, hwalk, hl, rfl⟩ := (isReader_indexTurn parentPath bytes).of_ends hends
    exact ⟨l, hwalk, hl, hres.symm⟩

end Mold.ArchiveFile
