import Mold.Common.ArchiveWalk
import Mold.Lib.OptionTraverse

/-!
# The index of an archive

If `read_archive_file` returns an index, the members in it are the slices that
`read_fat_archive_members` returns for the archive, and each symbol has the index of the
member whose header is at the offset that the symbol table has for it.
-/

namespace Mold.ArchiveFile

open Lib

variable {bytes parentPath : List Byte} {members : List ArchiveMemberInfo}
  {name data strtab : List Byte}

/-! ## Symbol tables of Darwin -/

def ranlibCount (name data : List Byte) : ℕ :=
  readLe (slice data 0 (wordSize name)) / (2 * wordSize name)

def ranlibOffset (name data : List Byte) (i : ℕ) : ℕ :=
  readLe (slice data (wordSize name + 2 * wordSize name * i + wordSize name) (wordSize name))

def ranlibStrx (name data : List Byte) (i : ℕ) : ℕ :=
  readLe (slice data (wordSize name + 2 * wordSize name * i) (wordSize name))

def ranlibStrtab (name data : List Byte) : List Byte :=
  let ranlibBytes := readLe (slice data 0 (wordSize name))
  slice data (2 * wordSize name + ranlibBytes)
    (readLe (slice data (wordSize name + ranlibBytes) (wordSize name)))

def StringAt (strtab : List Byte) (strx : ℕ) (symname : List Byte) : Prop :=
  0 ∉ symname ∧ ∃ back, strtab.drop strx = symname ++ 0 :: back

theorem eq_append_of_before {l symname : List Byte} (h : before [0] l = some symname) :
    0 ∉ symname ∧ ∃ back, l = symname ++ 0 :: back := by
  induction l generalizing symname with
  | nil => cases h
  | cons c l ih =>
    rw [before] at h
    split at h
    case isTrue hc =>
      cases h
      obtain ⟨back, hback⟩ := List.isPrefixOf_iff_prefix.mp hc
      exact ⟨List.not_mem_nil, back, hback.symm⟩
    case isFalse hc =>
      obtain ⟨front, hfront, rfl⟩ := Option.map_eq_some_iff.mp h
      obtain ⟨hnotMem, back, rfl⟩ := ih hfront
      refine ⟨List.not_mem_cons_of_ne_of_not_mem ?_ hnotMem, back, rfl⟩
      rintro rfl
      exact hc rfl

theorem readWord_eq_ok_iff {width val : ℕ} {buf : List Byte} :
    readWord width buf = .ok val ↔ width ≤ buf.length ∧ val = readLe (buf.take width) := by
  rw [readWord]
  split
  case isTrue hlt =>
    refine iff_of_false (fun h => ?_) fun h => Nat.not_le_of_lt hlt h.1
    cases h
  case isFalse hle =>
    rw [Except.ok.injEq, and_iff_right (Nat.le_of_not_lt hle)]
    exact eq_comm

theorem slice_take {l : List Byte} {pos n m : ℕ} (h : pos + n ≤ m) :
    slice (l.take m) pos n = slice l pos n := by
  rw [slice, slice, List.drop_take, List.take_take, Nat.min_eq_left (by omega)]

theorem slice_drop (l : List Byte) (pos n m : ℕ) : slice (l.drop m) pos n = slice l (m + pos) n := by
  rw [slice, slice, List.drop_drop]

theorem readRanlibs_spec {width n : ℕ} {ranlibData : List Byte} {symbols : List ArchiveSymbolInfo}
    (h : readRanlibs members width strtab n ranlibData = .ok symbols) :
    symbols.length = n ∧ ∀ i sym, symbols[i]? = some sym →
      StringAt strtab (readLe (slice ranlibData (2 * width * i) width)) sym.name ∧
      members.findIdx? (·.headerOffset = readLe (slice ranlibData (2 * width * i + width) width)) =
        some sym.memberIdx := by
  induction n generalizing ranlibData symbols with
  | zero =>
    cases h
    refine ⟨rfl, fun i sym hi => ?_⟩
    cases hi
  | succ n ih =>
    rw [readRanlibs] at h
    obtain ⟨strx, hstrx, h⟩ := bind_eq_ok_iff.mp h
    obtain ⟨off, hoff, h⟩ := bind_eq_ok_iff.mp h
    split at h
    · cases h
    · split at h
      case h_2 => cases h
      case h_1 symname idx hname hidx =>
        obtain ⟨rest, hrest, rfl⟩ := map_eq_ok_iff.mp h
        obtain ⟨hlen, hrest⟩ := ih hrest
        refine ⟨congrArg Nat.succ hlen, fun i sym hi => ?_⟩
        cases i with
        | zero =>
          cases hi
          rw [(readWord_eq_ok_iff.mp hstrx).2] at hname
          rw [(readWord_eq_ok_iff.mp hoff).2] at hidx
          rw [Nat.mul_zero, Nat.zero_add]
          exact ⟨eq_append_of_before hname, hidx⟩
        | succ i =>
          have hsym := hrest i sym hi
          rw [slice_drop, slice_drop, Nat.add_comm, ← Nat.mul_succ, ← Nat.add_assoc,
            Nat.add_comm (2 * width), ← Nat.mul_succ] at hsym
          exact hsym

theorem parseDarwinArchiveSymtab_spec {symbols : List ArchiveSymbolInfo}
    (h : parseDarwinArchiveSymtab members name data = .ok symbols) :
    symbols.length = ranlibCount name data ∧ ∀ i sym, symbols[i]? = some sym →
      StringAt (ranlibStrtab name data) (ranlibStrx name data i) sym.name ∧
      members.findIdx? (·.headerOffset = ranlibOffset name data i) = some sym.memberIdx := by
  rw [parseDarwinArchiveSymtab] at h
  obtain ⟨ranlibBytes, hbytes, h⟩ := bind_eq_ok_iff.mp h
  obtain rfl : ranlibBytes = readLe (slice data 0 (wordSize name)) :=
    (readWord_eq_ok_iff.mp hbytes).2
  dsimp only at h
  split at h
  · cases h
  case isFalse hsize =>
    obtain ⟨strtabBytes, hstrtab, h⟩ := bind_eq_ok_iff.mp h
    split at h
    · cases h
    · obtain ⟨hlen, hsyms⟩ := readRanlibs_spec h
      refine ⟨hlen, fun i sym hi => ?_⟩
      have hsym := hsyms i sym hi
      have hilt : i < readLe (slice data 0 (wordSize name)) / (2 * wordSize name) := by
        rw [← hlen]
        exact (List.getElem?_eq_some_iff.mp hi).1
      have hentry : 2 * wordSize name * (i + 1) ≤ readLe (slice data 0 (wordSize name)) :=
        Nat.le_trans (Nat.mul_le_mul_left _ hilt) (Nat.mul_div_le _ _)
      rw [Nat.mul_succ] at hentry
      have hbytes' : strtabBytes = readLe (slice data
          (wordSize name + readLe (slice data 0 (wordSize name))) (wordSize name)) := by
        rw [(readWord_eq_ok_iff.mp hstrtab).2, List.drop_drop]
        rfl
      rw [slice_take (by omega), slice_take (by omega), slice_drop, slice_drop,
        ← Nat.add_assoc, List.drop_drop, List.drop_drop, hbytes'] at hsym
      rw [ranlibStrtab, slice, Nat.two_mul, Nat.add_right_comm, Nat.add_assoc]
      exact hsym

/-! ## The index -/

/-- What `get_member` takes out of a regular archive for a member of the index. -/
def ArchiveMemberInfo.slice (m : ArchiveMemberInfo) : Slice :=
  ⟨m.name, m.dataOffset, m.dataSize⟩

def LastSymtab (bytes name data : List Byte) : Prop :=
  ∃ l, Walk bytes 8 [] l ∧ (l.filterMap (darwinSymtab bytes)).getLast? = some (name, data)

theorem name_ne_nil_of_darwinSymtab {e : Header × List Byte}
    (h : darwinSymtab bytes e = some (name, data)) : name ≠ [] := by
  rw [darwinSymtab, kind] at h
  rintro rfl
  split at h
  case h_2 => cases h
  case h_1 name' nameSize hkind =>
    cases h
    split at hkind
    · cases hkind
    · split at hkind
      · cases hkind
      · split at hkind
        · cases hkind
        · split at hkind
          case isTrue hdarwin =>
            cases hkind
            revert hdarwin
            decide
          case isFalse => cases hkind

theorem slice_indexMember (hthin : isThinArchive bytes = false) (e : Header × List Byte) :
    (indexMember parentPath bytes e).map ArchiveMemberInfo.slice = fatSlice bytes e := by
  rw [indexMember, fatSlice, hthin]
  cases kind bytes e with
  | none => rfl
  | some k =>
    cases k with
    | table => rfl
    | symtab name nameSize => rfl
    | file name nameSize => rfl

theorem map_slice_members (hthin : isThinArchive bytes = false) (l : List (Header × List Byte)) :
    (l.filterMap (indexMember parentPath bytes)).map ArchiveMemberInfo.slice =
      l.filterMap (fatSlice bytes) := by
  rw [List.map_filterMap]
  exact List.filterMap_congr fun e _ => slice_indexMember hthin e

theorem isThinArchive_eq_false (h : str "!<arch>\n" <+: bytes) : isThinArchive bytes = false := by
  obtain ⟨rest, rfl⟩ := h
  rfl

theorem finishIndex_indexOf {l : List (Header × List Byte)} {status : ArchiveIndexStatus}
    {info : ArchiveFileInfo}
    (h : finishIndex (indexOf parentPath bytes l) = .ok ⟨status, some info⟩) :
    info.members = l.filterMap (indexMember parentPath bytes) ∧
      ∃ name data, (l.filterMap (darwinSymtab bytes)).getLast? = some (name, data) ∧
        parseDarwinArchiveSymtab info.members name data = .ok info.symbols := by
  have hmembers := @members_foldl_indexPush bytes parentPath .start l
  have hsymtab := @symtab_foldl_indexPush bytes parentPath .start l
  rw [finishIndex] at h
  split at h
  · cases h
  case isFalse hname =>
    obtain ⟨symbols, hsymbols, hres⟩ := map_eq_ok_iff.mp h
    cases hres
    refine ⟨hmembers, ?_⟩
    cases hlast : (l.filterMap (darwinSymtab bytes)).getLast? with
    | none =>
      rw [hlast] at hsymtab
      refine absurd ?_ hname
      rw [indexOf, (Prod.mk.inj hsymtab).1]
      rfl
    | some p =>
      obtain ⟨name, data⟩ := p
      rw [hlast] at hsymtab
      obtain ⟨hname', hdata⟩ := Prod.mk.inj hsymtab
      refine ⟨name, data, rfl, ?_⟩
      rw [indexOf, hname', hdata] at hsymbols
      exact hsymbols

theorem headerOffset_of_indexMember {e : Header × List Byte} {m : ArchiveMemberInfo}
    (h : indexMember parentPath bytes e = some m) : m.headerOffset = e.1.headerOffset := by
  rw [indexMember] at h
  split at h
  · cases h
    rfl
  · cases h

theorem Walk.pairwise_members {l : List (Header × List Byte)} (hwalk : Walk bytes 8 [] l) :
    (l.filterMap (indexMember parentPath bytes)).Pairwise (·.headerOffset < ·.headerOffset) := by
  refine hwalk.pairwise.filterMap _ fun e e' hlt m hm m' hm' => ?_
  rw [headerOffset_of_indexMember hm, headerOffset_of_indexMember hm']
  exact hlt

theorem eq_of_headerOffset (hmembers : members.Pairwise (·.headerOffset < ·.headerOffset))
    {i j : ℕ} {m m' : ArchiveMemberInfo} (hi : members[i]? = some m) (hj : members[j]? = some m')
    (hoff : m.headerOffset = m'.headerOffset) : i = j := by
  obtain ⟨hilt, rfl⟩ := List.getElem?_eq_some_iff.mp hi
  obtain ⟨hjlt, rfl⟩ := List.getElem?_eq_some_iff.mp hj
  rcases Nat.lt_trichotomy i j with hlt | heq | hlt
  · exact absurd hoff (Nat.ne_of_lt (List.pairwise_iff_getElem.mp hmembers i j hilt hjlt hlt))
  · exact heq
  · exact absurd hoff (Nat.ne_of_gt (List.pairwise_iff_getElem.mp hmembers j i hjlt hilt hlt))

/-- The index lists what `read_fat_archive_members` returns, and a symbol has the name and
the index of the one member that its entry of the symbol table stands for. -/
theorem index_agrees {status : ArchiveIndexStatus} {info : ArchiveFileInfo}
    (hmagic : str "!<arch>\n" <+: bytes)
    (hreads : ReadsIndex parentPath bytes (.ok ⟨status, some info⟩)) :
    ReadsFat bytes (.ok (info.members.map ArchiveMemberInfo.slice)) ∧
      ∃ name data, LastSymtab bytes name data ∧ info.symbols.length = ranlibCount name data ∧
        ∀ i sym, info.symbols[i]? = some sym →
          StringAt (ranlibStrtab name data) (ranlibStrx name data i) sym.name ∧
          ∀ j, (∃ m, info.members[j]? = some m ∧ m.headerOffset = ranlibOffset name data i) ↔
            j = sym.memberIdx := by
  obtain ⟨l, hwalk, hl, hfinish⟩ := exists_walk_of_readsIndex hreads
  obtain ⟨hmembers, name, data, hlast, hparse⟩ := finishIndex_indexOf hfinish
  refine ⟨readsFat_iff.mpr ⟨l, hwalk, hl, ?_⟩, name, data, ⟨l, hwalk, hlast⟩, ?_⟩
  · rw [hmembers, map_slice_members (isThinArchive_eq_false hmagic)]
  · obtain ⟨hlen, hsyms⟩ := parseDarwinArchiveSymtab_spec hparse
    refine ⟨hlen, fun i sym hi => ⟨(hsyms i sym hi).1, fun j => ?_⟩⟩
    obtain ⟨hlt, hoff, -⟩ := List.findIdx?_eq_some_iff_getElem.mp (hsyms i sym hi).2
    have hoff := of_decide_eq_true hoff
    constructor
    · rintro ⟨m, hm, hmoff⟩
      have hpairwise : info.members.Pairwise (·.headerOffset < ·.headerOffset) := by
        rw [hmembers]
        exact hwalk.pairwise_members
      exact eq_of_headerOffset hpairwise hm (List.getElem?_eq_getElem hlt) (hmoff.trans hoff.symm)
    · rintro rfl
      exact ⟨_, List.getElem?_eq_getElem hlt, hoff⟩

/-- An archive with a symbol table and a member of an odd size. -/
def sampleArchive : List Byte :=
  str "!<arch>\n" ++
    (str "#1/20           " ++ str "0           0     0     100644  40        `\n" ++
      (str "__.SYMDEF SORTED" ++ [0, 0, 0, 0]) ++
      (le 4 8 ++ (le 4 0 ++ le 4 108) ++ le 4 4 ++ (str "_f" ++ [0, 0]))) ++
    (str "a.o/            " ++ str "0           0     0     100644  3         `\n" ++ str "abc")

def sampleIndex : ArchiveFileInfo :=
  ⟨[⟨str "a.o", [], 108, 168, 3, false⟩], [⟨str "_f", 0⟩]⟩

theorem readsIndex_sampleArchive : ReadsIndex [] sampleArchive (.ok ⟨.ok, some sampleIndex⟩) := by
  refine ⟨.ok ⟨171, [], str "__.SYMDEF SORTED", slice sampleArchive 88 20, sampleIndex.members⟩,
    ⟨reaches_of_runSteps (n := 3) ?_, rfl⟩, ?_⟩
  · decide +kernel
  · decide +kernel

theorem index_agrees_sampleArchive :
    ReadsFat sampleArchive (.ok [⟨str "a.o", 168, 3⟩]) ∧
      ∃ name data, LastSymtab sampleArchive name data ∧ 1 = ranlibCount name data ∧
        ∀ i sym, sampleIndex.symbols[i]? = some sym →
          StringAt (ranlibStrtab name data) (ranlibStrx name data i) sym.name ∧
          ∀ j, (∃ m, sampleIndex.members[j]? = some m ∧ m.headerOffset = ranlibOffset name data i) ↔
            j = sym.memberIdx :=
  index_agrees ⟨_, rfl⟩ readsIndex_sampleArchive

end Mold.ArchiveFile
