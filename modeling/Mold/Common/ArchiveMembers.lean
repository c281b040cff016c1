import Mold.Common.ArchiveFormat
import Mold.Common.ArchiveThin

/-!
# The members of a well-formed archive

What the three readers are for: each of them ends, and for a well-formed archive it returns
the members in the order of the file.  The readers of regular archives do.  The reader of
thin archives never ends where it comes to a file that it opens, so there must not be any.
-/

namespace Mold.ArchiveFile

open Lib

/-! ## Items -/

def Item.slice : Item → Option Slice
  | .object name _ dataOffset dataSize => some ⟨name, dataOffset, dataSize⟩
  | .symtab _ _ => none

def Item.filename : Item → Option (List Byte)
  | .object name _ _ _ => some name
  | .symtab _ _ => none

def Item.headerOffset : Item → Option ℕ
  | .object _ headerOffset _ _ => some headerOffset
  | .symtab _ _ => none

def Item.memberInfo (thin : Bool) (parentPath : List Byte) : Item → Option ArchiveMemberInfo
  | .object name headerOffset dataOffset dataSize =>
    some ⟨name, if thin then memberPath parentPath name else [], headerOffset, dataOffset,
      dataSize, thin⟩
  | .symtab _ _ => none

def Item.symtab? : Item → Option (List Byte × List Byte)
  | .object _ _ _ _ => none
  | .symtab name data => some (name, data)

def itemOf (bytes : List Byte) (e : Header × List Byte) : Option Item :=
  match kind bytes e with
  | some (.symtab name n) => some (.symtab name (slice bytes (e.1.body + n) (e.1.size - n)))
  | some (.file name n) => some (.object name e.1.headerOffset (e.1.body + n) (e.1.size - n))
  | _ => none

section

variable {bytes parentPath : List Byte} {l : List (Header × List Byte)}

theorem filterMap_fatSlice (l : List (Header × List Byte)) :
    l.filterMap (fatSlice bytes) = (l.filterMap (itemOf bytes)).filterMap Item.slice := by
  rw [List.filterMap_filterMap]
  refine List.filterMap_congr fun e _ => ?_
  rw [fatSlice, itemOf]
  rcases kind bytes e with - | - | ⟨name, n⟩ | ⟨name, n⟩
  · rfl
  · rfl
  · rfl
  · rfl

theorem filterMap_darwinSymtab (l : List (Header × List Byte)) :
    l.filterMap (darwinSymtab bytes) = (l.filterMap (itemOf bytes)).filterMap Item.symtab? := by
  rw [List.filterMap_filterMap]
  refine List.filterMap_congr fun e _ => ?_
  rw [darwinSymtab, itemOf]
  rcases kind bytes e with - | - | ⟨name, n⟩ | ⟨name, n⟩
  · rfl
  · rfl
  · rfl
  · rfl

theorem filterMap_indexMember (hthin : isThinArchive bytes = false)
    (l : List (Header × List Byte)) :
    l.filterMap (indexMember parentPath bytes) =
      (l.filterMap (itemOf bytes)).filterMap (Item.memberInfo false parentPath) := by
  rw [List.filterMap_filterMap]
  refine List.filterMap_congr fun e _ => ?_
  rw [indexMember, itemOf, hthin]
  rcases kind bytes e with - | - | ⟨name, n⟩ | ⟨name, n⟩
  · rfl
  · rfl
  · rfl
  · rfl

theorem filterMap_indexMember_eq_nil
    (hl : (l.filterMap (itemOf bytes)).filterMap Item.filename = []) :
    l.filterMap (indexMember parentPath bytes) = [] := by
  rw [List.filterMap_filterMap, List.filterMap_eq_nil_iff] at hl
  refine List.filterMap_eq_nil_iff.mpr fun e he => ?_
  have hitem := hl e he
  rw [itemOf] at hitem
  rw [indexMember]
  rcases hkind : kind bytes e with - | - | ⟨name, n⟩ | ⟨name, n⟩
  · rfl
  · rfl
  · rfl
  · rw [hkind] at hitem
    cases hitem

end

/-! ## Reading a well-formed archive -/

section

variable {thin : Bool} {bytes pre rest header arName strtab body name : List Byte}
  {off size n : ℕ} {items : List Item}

theorem ofBytes_isHeader (h : IsHeader header arName size) :
    header.length = 60 ∧ arName.length = 16 ∧ (ArHdr.ofBytes header).arName = arName ∧
      (ArHdr.ofBytes header).hasValidFmag = true ∧ (ArHdr.ofBytes header).getSize = some size := by
  obtain ⟨other, sizeField, rfl, hname, hother, hsizeField, hsize⟩ := h
  have hfmag : (str "`\n").length = 2 := rfl
  refine ⟨?_, hname, ?_, ?_, ?_⟩
  · simp only [List.length_append]
    omega
  · change slice _ 0 16 = arName
    rw [slice, List.drop_zero, List.append_assoc, List.append_assoc]
    exact take_append_of_length _ hname
  · refine decide_eq_true ?_
    change slice _ 58 2 = _
    rw [slice, drop_append_of_length _ (by simp only [List.length_append]; omega)]
    rfl
  · change parseArNum (slice _ 48 10) = some size
    rw [slice, List.append_assoc (arName ++ other),
      drop_append_of_length _ (by rw [List.length_append]; omega),
      take_append_of_length _ hsizeField]
    exact parseArNum_eq hsize (by omega)

theorem nextHeader_isHeader (hoff : off % 2 = 0) (hpre : pre.length = off)
    (h : IsHeader header arName body.length) :
    nextHeader (pre ++ (header ++ (body ++ rest))) off =
        .ok (some ⟨off, .ofBytes header, off + 60, body.length⟩) ∧
      slice (pre ++ (header ++ (body ++ rest))) (off + 60) body.length = body := by
  obtain ⟨hlen, -, -, hfmag, hsize⟩ := ofBytes_isHeader h
  constructor
  · refine nextHeader_eq_some_iff.mpr ⟨?_, (align_of_even hoff).symm, ?_, hfmag, hsize, rfl, ?_⟩
    · simp only [List.length_append]
      omega
    · change ArHdr.ofBytes header = .ofBytes (slice _ off 60)
      rw [slice, drop_append_of_length _ hpre, take_append_of_length _ hlen]
    · simp only [List.length_append]
      omega
  · rw [slice, ← List.append_assoc,
      drop_append_of_length _ (by rw [List.length_append, hpre, hlen]), List.take_left]

theorem slice_add (l : List Byte) (pos m n : ℕ) :
    slice l (pos + n) (m - n) = (slice l pos m).drop n := by
  rw [slice, slice, List.drop_take, List.drop_drop]

theorem Walk.of_odd (hoff : off % 2 = 1) (hlt : off < bytes.length)
    {l : List (Header × List Byte)} (hwalk : Walk bytes (off + 1) strtab l) :
    Walk bytes off strtab l := by
  have halign : align (off + 1) = align off := by
    rw [align_of_odd hoff, align_of_even (by omega)]
  cases hwalk with
  | done hnext =>
    refine .done (nextHeader_eq_none_iff.mpr ?_)
    rcases nextHeader_eq_none_iff.mp hnext with hend | hend
    · exact .inr (by rw [align_of_odd hoff]; omega)
    · exact .inr (halign ▸ hend)
  | member hnext hrest =>
    obtain ⟨-, heq, hin⟩ := nextHeader_eq_some_iff.mp hnext
    exact .member (nextHeader_eq_some_iff.mpr ⟨hlt, heq.trans halign, hin⟩) hrest

variable {h : Header}

theorem kind_of_strtab (hstrtab : str "// " <+: h.hdr.arName) (strtab : List Byte) :
    kind bytes (h, strtab) = some .table := by
  rw [kind, ArHdr.isStrtab, startsWith_iff.mpr hstrtab]
  rfl

theorem kind_of_symtab (hsymtab : str "/ " <+: h.hdr.arName ∨ str "/SYM64/ " <+: h.hdr.arName)
    (strtab : List Byte) : kind bytes (h, strtab) = some .table := by
  have hor : h.hdr.isSymtab = true := by
    rw [ArHdr.isSymtab, Bool.or_eq_true, startsWith_iff, startsWith_iff]
    exact hsymtab
  rw [kind, hor, Bool.or_true, if_pos rfl]

theorem isStrtab_of_symtab (hsymtab : str "/ " <+: h.hdr.arName ∨ str "/SYM64/ " <+: h.hdr.arName) :
    h.hdr.isStrtab = false := by
  rw [ArHdr.isStrtab, Bool.eq_false_iff, Ne, startsWith_iff]
  intro hstrtab
  obtain ⟨rest, hrest⟩ := hstrtab
  rcases hsymtab with ⟨rest', hrest'⟩ | ⟨rest', hrest'⟩
  · have heq := hrest.trans hrest'.symm
    exact absurd (List.cons.inj (List.cons.inj heq).2).1 (by decide)
  · have heq := hrest.trans hrest'.symm
    exact absurd (List.cons.inj (List.cons.inj heq).2).1 (by decide)

theorem kind_of_name (hname : HasName h.hdr.arName strtab (h.data bytes) name n)
    (hlen : h.hdr.arName.length = 16) (hn : n ≤ h.size) :
    kind bytes (h, strtab) =
      some (if isDarwinSymtabName name then .symtab name n else .file name n) := by
  rw [kind, hname.not_table, if_neg (by decide), hname.readName hlen]
  dsimp only
  rw [if_neg (Nat.not_lt_of_le hn)]
  split
  · rfl
  · rfl

theorem HasName.le_length (hname : HasName arName strtab body name n) : n ≤ body.length := by
  cases hname with
  | bsd _ _ _ hlen hbody =>
    rw [hbody, List.length_append, List.length_append, List.length_replicate]
    omega
  | sysv => exact Nat.zero_le _
  | short => exact Nat.zero_le _

/-- The walk from an offset on comes to the items.  In a thin archive each member is
skipped. -/
def WalkTo (thin : Bool) (bytes : List Byte) (off : ℕ) (strtab : List Byte)
    (items : List Item) : Prop :=
  ∃ l, Walk bytes off strtab l ∧ (∀ e ∈ l, (kind bytes e).isSome) ∧
    l.filterMap (itemOf bytes) = items ∧ (thin = true → ∀ e ∈ l, Skips bytes e.1 e.2)

theorem WalkTo.step (hnext : nextHeader bytes off = .ok (some h))
    (hkind : (kind bytes (h, strtab)).isSome) (hskips : thin = true → Skips bytes h strtab)
    (hrest : WalkTo thin bytes (h.body + h.size) (strtabAfter bytes h strtab) items) :
    WalkTo thin bytes off strtab ((itemOf bytes (h, strtab)).toList ++ items) := by
  obtain ⟨l, hwalk, hkinds, rfl, hrest⟩ := hrest
  refine ⟨(h, strtab) :: l, .member hnext hwalk, List.forall_mem_cons.mpr ⟨hkind, hkinds⟩, ?_,
    fun ht => List.forall_mem_cons.mpr ⟨hskips ht, hrest ht⟩⟩
  rw [List.filterMap_cons]
  cases itemOf bytes (h, strtab) with
  | none => rfl
  | some item => rfl

theorem WalkTo.behind (hpre : pre.length = off) (hlen : header.length = 60)
    (hrest : ∀ pre : List Byte, pre.length = off + 60 + body.length →
      WalkTo thin (pre ++ rest) (off + 60 + body.length) strtab items) :
    WalkTo thin (pre ++ (header ++ (body ++ rest))) (off + 60 + body.length) strtab items := by
  have hbytes : pre ++ (header ++ (body ++ rest)) = (pre ++ (header ++ body)) ++ rest := by
    simp only [List.append_assoc]
  rw [hbytes]
  refine hrest _ ?_
  rw [List.length_append, List.length_append, hpre, hlen, Nat.add_assoc]

theorem IsArchive.walkTo (harchive : IsArchive thin off strtab rest items)
    (hthin : thin = true → items.filterMap Item.filename = []) (hpre : pre.length = off) :
    WalkTo thin (pre ++ rest) off strtab items := by
  induction harchive generalizing pre with
  | @nil off strtab =>
    refine ⟨[], .done (nextHeader_eq_none_iff.mpr (.inl ?_)), List.forall_mem_nil _, rfl,
      fun _ => List.forall_mem_nil _⟩
    rw [List.append_nil, hpre]
  | @pad off strtab rest items c hoff _ ih =>
    have hlen : (pre ++ [c]).length = off + 1 := by rw [List.length_append, hpre]; rfl
    obtain ⟨l, hwalk, hl⟩ := ih hthin hlen
    rw [List.append_assoc, List.singleton_append] at hwalk hl
    refine ⟨l, hwalk.of_odd hoff ?_, hl⟩
    rw [List.length_append, List.length_cons]
    omega
  | @strtab off strtab header arName body rest items hoff hheader hname _ ih =>
    obtain ⟨hlen, -, harName, -⟩ := ofBytes_isHeader hheader
    obtain ⟨hnext, hdata⟩ := @nextHeader_isHeader pre rest _ _ _ _ hoff hpre hheader
    rw [← harName] at hname
    have hkind := @kind_of_strtab (pre ++ (header ++ (body ++ rest)))
      ⟨off, .ofBytes header, off + 60, body.length⟩ hname strtab
    have hstrtab : (ArHdr.ofBytes header).isStrtab = true := startsWith_iff.mpr hname
    have hrest := WalkTo.behind hpre hlen fun pre hpre => ih hthin hpre
    have hstep := WalkTo.step hnext (Option.isSome_of_eq_some hkind) (fun _ => .inl (by rw [hstrtab, Bool.true_or]))
      (by rw [strtabAfter, if_pos hstrtab, Header.data, hdata]; exact hrest)
    rw [itemOf, hkind] at hstep
    exact hstep
  | @symtab off strtab header arName body rest items hoff hheader hname _ ih =>
    obtain ⟨hlen, -, harName, -⟩ := ofBytes_isHeader hheader
    obtain ⟨hnext, -⟩ := @nextHeader_isHeader pre rest _ _ _ _ hoff hpre hheader
    rw [← harName] at hname
    have hkind := @kind_of_symtab (pre ++ (header ++ (body ++ rest)))
      ⟨off, .ofBytes header, off + 60, body.length⟩ hname strtab
    have hstrtab := @isStrtab_of_symtab ⟨off, .ofBytes header, off + 60, body.length⟩ hname
    have hsymtab : (ArHdr.ofBytes header).isSymtab = true := by
      rw [ArHdr.isSymtab, Bool.or_eq_true, startsWith_iff, startsWith_iff]
      exact hname
    have hrest := WalkTo.behind hpre hlen fun pre hpre => ih hthin hpre
    have hstep := WalkTo.step hnext (Option.isSome_of_eq_some hkind) (fun _ => .inl (by rw [hsymtab, Bool.or_true]))
      (by rw [strtabAfter, if_neg (by rw [hstrtab]; decide)]; exact hrest)
    rw [itemOf, hkind] at hstep
    exact hstep
  | @darwin off n strtab header arName body rest name items hoff hheader hname hsymtab hlong _ ih =>
    obtain ⟨hlen, hlen', harName, -⟩ := ofBytes_isHeader hheader
    obtain ⟨hnext, hdata⟩ := @nextHeader_isHeader pre rest _ _ _ _ hoff hpre hheader
    have hle := hname.le_length
    rw [← harName] at hname hlen' hlong
    rw [← hdata] at hname
    have hkind := @kind_of_name _ _ _ _ ⟨off, .ofBytes header, off + 60, body.length⟩ hname hlen' hle
    have hstrtab := (Bool.or_eq_false_iff.mp hname.not_table).1
    rw [hsymtab, if_pos rfl] at hkind
    have hskips : thin = true → Skips (pre ++ (header ++ (body ++ rest)))
        ⟨off, .ofBytes header, off + 60, body.length⟩ strtab := by
      refine fun ht => .inr ⟨?_, name, n, hname.readName hlen', hsymtab⟩
      rw [ArHdr.isLong, Bool.or_eq_true, startsWith_iff, startsWith_iff]
      exact hlong ht
    have hrest := WalkTo.behind hpre hlen fun pre hpre => ih hthin hpre
    have hstep := WalkTo.step hnext (Option.isSome_of_eq_some hkind) hskips
      (by rw [strtabAfter, if_neg (by rw [hstrtab]; decide)]; exact hrest)
    have hcontents := slice_add (pre ++ (header ++ (body ++ rest))) (off + 60) body.length n
    rw [hdata] at hcontents
    rw [itemOf, hkind] at hstep
    dsimp only at hstep
    rw [hcontents] at hstep
    exact hstep
  | @object off n strtab header arName body rest name items hfat hoff hheader hname hobject _ ih =>
    obtain ⟨hlen, hlen', harName, -⟩ := ofBytes_isHeader hheader
    obtain ⟨hnext, hdata⟩ := @nextHeader_isHeader pre rest _ _ _ _ hoff hpre hheader
    have hle := hname.le_length
    rw [← harName] at hname hlen'
    rw [← hdata] at hname
    have hkind := @kind_of_name _ _ _ _ ⟨off, .ofBytes header, off + 60, body.length⟩ hname hlen' hle
    have hstrtab := (Bool.or_eq_false_iff.mp hname.not_table).1
    rw [hobject, if_neg (by decide)] at hkind
    have hfat' : thin ≠ true := fun ht => Bool.noConfusion (hfat.symm.trans ht)
    have hrest := WalkTo.behind hpre hlen fun pre hpre => ih (fun ht => absurd ht hfat') hpre
    have hstep := WalkTo.step hnext (Option.isSome_of_eq_some hkind) (fun ht => absurd ht hfat')
      (by rw [strtabAfter, if_neg (by rw [hstrtab]; decide)]; exact hrest)
    rw [itemOf, hkind] at hstep
    exact hstep
  | thinObject ht => cases hthin ht

end

/-! ## The readers -/

section

variable {φ : Type*} {files : Files φ} {thin : Bool} {bytes : List Byte} {items : List Item}

def magic (thin : Bool) : List Byte :=
  if thin then str "!<thin>\n" else str "!<arch>\n"

/-- A well-formed archive: the symbol tables have offsets of objects only, and the files of a
thin archive can be opened. -/
structure WellFormed (files : Files φ) (thin : Bool) (bytes : List Byte) (items : List Item) :
    Prop where
  format : ∃ rest, bytes = magic thin ++ rest ∧ IsArchive thin 8 [] rest items
  symtabs : ∀ tab ∈ items.filterMap Item.symtab?,
    IsSymtab (items.filterMap Item.headerOffset) tab.1 tab.2
  opens : thin = true → ∀ name ∈ items.filterMap Item.filename,
    (files.mustOpen (memberPath files.parentPath name)).isSome

structure ReadsAll (files : Files φ) (bytes : List Byte) : Prop where
  fat_ends : ∃ res, ReadsFat bytes res
  thin_ends : ∃ res, ReadsThin files bytes res
  index_ends : ∃ res, ReadsIndex files.parentPath bytes res
  fat (items : List Item) : WellFormed files false bytes items →
    ReadsFat bytes (.ok (items.filterMap Item.slice))
  thin (items : List Item) : WellFormed files true bytes items →
    ∃ fs, ReadsThin files bytes (.ok fs) ∧ fs.map some =
      (items.filterMap Item.filename).map fun name =>
        files.mustOpen (memberPath files.parentPath name)
  index (thin : Bool) (items : List Item) : WellFormed files thin bytes items →
    ∃ res, ReadsIndex files.parentPath bytes (.ok res) ∧
      (res.info = none ↔ items.filterMap Item.symtab? = []) ∧
      ∀ info, res.info = some info →
        info.members = items.filterMap (Item.memberInfo thin files.parentPath)

theorem readsFat_ends (bytes : List Byte) : ∃ res, ReadsFat bytes res :=
  (isReader_fatTurn bytes).exists_ends _

theorem readsIndex_ends (parentPath bytes : List Byte) :
    ∃ res, ReadsIndex parentPath bytes res := by
  obtain ⟨loop, hends⟩ := (isReader_indexTurn parentPath bytes).exists_ends .start
  exact ⟨_, loop, hends, rfl⟩

theorem WellFormed.walkTo (h : WellFormed files thin bytes items)
    (hthin : thin = true → items.filterMap Item.filename = []) :
    WalkTo thin bytes 8 [] items := by
  obtain ⟨rest, rfl, harchive⟩ := h.format
  refine harchive.walkTo hthin ?_
  rw [magic]
  split
  · rfl
  · rfl

theorem WellFormed.isThinArchive_eq (h : WellFormed files false bytes items) :
    isThinArchive bytes = false := by
  obtain ⟨rest, rfl, -⟩ := h.format
  rfl

theorem filterMap_headerOffset (parentPath : List Byte) (items : List Item) :
    items.filterMap Item.headerOffset =
      (items.filterMap (Item.memberInfo thin parentPath)).map (·.headerOffset) := by
  rw [List.map_filterMap]
  refine List.filterMap_congr fun item _ => ?_
  cases item with
  | object name headerOffset dataOffset dataSize => rfl
  | symtab name data => rfl

theorem filterMap_memberInfo_eq_nil {parentPath : List Byte}
    (h : items.filterMap Item.filename = []) :
    items.filterMap (Item.memberInfo thin parentPath) = [] := by
  rw [List.filterMap_eq_nil_iff] at h ⊢
  intro item hitem
  have hname := h item hitem
  cases item with
  | object name headerOffset dataOffset dataSize => cases hname
  | symtab name data => rfl

theorem WellFormed.filterMap_indexMember (h : WellFormed files thin bytes items)
    (hthin : thin = true → items.filterMap Item.filename = [])
    {l : List (Header × List Byte)} (hitems : l.filterMap (itemOf bytes) = items) :
    l.filterMap (indexMember files.parentPath bytes) =
      items.filterMap (Item.memberInfo thin files.parentPath) := by
  cases thin with
  | false => rw [ArchiveFile.filterMap_indexMember h.isThinArchive_eq, hitems]
  | true =>
    rw [filterMap_memberInfo_eq_nil (hthin rfl)]
    refine filterMap_indexMember_eq_nil ?_
    rw [hitems]
    exact hthin rfl

theorem ne_nil_of_mem_symtab? {l : List (Header × List Byte)} {tab : List Byte × List Byte}
    (h : tab ∈ (l.filterMap (itemOf bytes)).filterMap Item.symtab?) : tab.1 ≠ [] := by
  rw [← filterMap_darwinSymtab] at h
  obtain ⟨e, -, he⟩ := List.mem_filterMap.mp h
  exact @name_ne_nil_of_darwinSymtab _ _ tab.2 _ he

theorem WellFormed.readsIndex (h : WellFormed files thin bytes items)
    (hthin : thin = true → items.filterMap Item.filename = []) :
    ∃ res, ReadsIndex files.parentPath bytes (.ok res) ∧
      (res.info = none ↔ items.filterMap Item.symtab? = []) ∧
      ∀ info, res.info = some info →
        info.members = items.filterMap (Item.memberInfo thin files.parentPath) := by
  obtain ⟨l, hwalk, hkinds, hitems, -⟩ := h.walkTo hthin
  have hreads := readsIndex_of_walk files.parentPath hwalk hkinds
  have hmembers : (indexOf files.parentPath bytes l).members =
      items.filterMap (Item.memberInfo thin files.parentPath) :=
    (members_foldl_indexPush files.parentPath .start l).trans
      (h.filterMap_indexMember hthin hitems)
  have hsymtab : ((indexOf files.parentPath bytes l).symtabName,
      (indexOf files.parentPath bytes l).symtabData) =
        (items.filterMap Item.symtab?).getLast?.getD ([], []) := by
    rw [← hitems, ← filterMap_darwinSymtab]
    exact symtab_foldl_indexPush files.parentPath .start l
  rw [finishIndex] at hreads
  cases hlast : (items.filterMap Item.symtab?).getLast? with
  | none =>
    rw [hlast] at hsymtab
    rw [(Prod.mk.inj hsymtab).1] at hreads
    refine ⟨_, hreads, iff_of_true rfl (List.getLast?_eq_none_iff.mp hlast), fun info hinfo => ?_⟩
    cases hinfo
  | some tab =>
    have hmem := List.mem_of_getLast? hlast
    have hvalid := h.symtabs tab hmem
    rw [@filterMap_headerOffset thin files.parentPath items] at hvalid
    obtain ⟨symbols, hsymbols⟩ := exists_parseDarwinArchiveSymtab hvalid
    rw [hlast] at hsymtab
    rw [(Prod.mk.inj hsymtab).1, (Prod.mk.inj hsymtab).2, hmembers] at hreads
    have hne : tab.1 ≠ [] := ne_nil_of_mem_symtab? (hitems.symm ▸ hmem)
    rw [if_neg (by simpa using hne), hsymbols] at hreads
    refine ⟨_, hreads, iff_of_false (fun hinfo => ?_) (fun hnil => ?_), fun info hinfo => ?_⟩
    · cases hinfo
    · rw [hnil] at hmem
      cases hmem
    · cases hinfo
      rfl

theorem WellFormed.readsThin (h : WellFormed files true bytes items)
    (hnone : items.filterMap Item.filename = []) : ReadsThin files bytes (.ok []) := by
  obtain ⟨l, hwalk, -, -, hskips⟩ := h.walkTo fun _ => hnone
  exact hwalk.ends_thin (hskips rfl) []

/-- The readers do what they are for if and only if the reader of thin archives does not come
to a file that it opens, and the archive is not a well-formed thin one with an object. -/
theorem readsAll_iff : ReadsAll files bytes ↔
    ¬ ComesToFile files bytes 8 [] ∧
      ¬ ∃ items, WellFormed files true bytes items ∧ items.filterMap Item.filename ≠ [] := by
  constructor
  · intro hall
    constructor
    · intro hcomes
      obtain ⟨res, hres⟩ := hall.thin_ends
      exact hcomes.not_ends [] hres
    · rintro ⟨items, hitems, hne⟩
      obtain ⟨fs, hreads, hfs⟩ := hall.thin items hitems
      obtain rfl : fs = [] := vec_of_ends hreads
      exact hne (List.map_eq_nil_iff.mp hfs.symm)
  · rintro ⟨hcomes, hthin⟩
    have hnone : ∀ {thin items}, WellFormed files thin bytes items → thin = true →
        items.filterMap Item.filename = [] := by
      rintro thin items hitems rfl
      by_contra hne
      exact hthin ⟨items, hitems, hne⟩
    exact {
      fat_ends := readsFat_ends bytes
      thin_ends := exists_ends_of_not_comesToFile hcomes []
      index_ends := readsIndex_ends files.parentPath bytes
      fat := fun items hitems => by
        obtain ⟨l, hwalk, hkinds, hl, -⟩ := hitems.walkTo fun ht => Bool.noConfusion ht
        refine readsFat_iff.mpr ⟨l, hwalk, hkinds, ?_⟩
        rw [filterMap_fatSlice, hl]
      thin := fun items hitems => by
        refine ⟨[], hitems.readsThin (hnone hitems rfl), ?_⟩
        rw [hnone hitems rfl]
        rfl
      index := fun thin items hitems => hitems.readsIndex (hnone hitems) }

end

def thinArchive : List Byte :=
  str "!<thin>\n" ++
    (str "//              " ++ str "                                4         `\n" ++ str "a/\n\n") ++
    (str "/0              " ++ str "0           0     0     100644  0         `\n")

theorem not_readsAll_thinArchive : ¬ ReadsAll ⟨[], fun _ => some ()⟩ thinArchive := by
  intro hall
  obtain ⟨res, hres⟩ := hall.thin_ends
  have hfirst : nextHeader thinArchive 8 =
      .ok (some ⟨8, .ofBytes (slice thinArchive 8 60), 68, 4⟩) := by decide +kernel
  have hsecond : nextHeader thinArchive 72 =
      .ok (some ⟨72, .ofBytes (slice thinArchive 72 60), 132, 0⟩) := by decide +kernel
  have hopens : Opens ⟨[], fun _ => some ()⟩ thinArchive
      ⟨72, .ofBytes (slice thinArchive 72 60), 132, 0⟩
      (strtabAfter thinArchive ⟨8, .ofBytes (slice thinArchive 8 60), 68, 4⟩ []) () :=
    ⟨by decide +kernel, by decide +kernel, str "a", 0, by decide +kernel, by decide, rfl⟩
  have hskips : Skips thinArchive ⟨8, .ofBytes (slice thinArchive 8 60), 68, 4⟩ [] :=
    .inl (by decide +kernel)
  exact ComesToFile.not_ends (.skip hfirst hskips (.here hsecond hopens)) [] hres

end Mold.ArchiveFile
