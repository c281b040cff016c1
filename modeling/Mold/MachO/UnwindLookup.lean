import Mold.MachO.UnwindRecords

/-!
# Looking up an address

The words of `__unwind_info` are read back from where `encode_unwind_info` has
written them.  Then the two searches are followed: the first-level table leads to
the page of the last record that does not begin behind the address, and the search
in the page to that record.

The first-level table has absolute addresses with 32 bits, and the terminator is the
end of a subsection that need not contain the last function.
-/

namespace Mold.MachO.UnwindInfo

open Mold.Lib Mold.MachO.EhFrame

variable {σ τ : Type*}

section Palette

theorem mem_insertEncoding {map : List ℕ} {e e' : ℕ} :
    e ∈ Image.insertEncoding map e' ↔ e ∈ map ∨ e = e' := by
  rw [Image.insertEncoding]
  split
  · next hmem =>
      constructor
      · exact Or.inl
      · rintro (h | rfl)
        · exact h
        · exact hmem
  · rw [List.mem_append, List.mem_singleton]

theorem length_insertEncoding_le (map : List ℕ) (e : ℕ) :
    (Image.insertEncoding map e).length ≤ map.length + 1 := by
  rw [Image.insertEncoding]
  split
  · exact Nat.le_succ _
  · rw [List.length_append]
    exact Nat.le_refl _

theorem foldl_insertEncoding (page : List (EhFrame.UnwindRecord σ τ)) (map : List ℕ) :
    (∀ e, e ∈ page.foldl (fun map rec => Image.insertEncoding map rec.encoding) map ↔
      e ∈ map ∨ ∃ rec ∈ page, rec.encoding = e) ∧
    (page.foldl (fun map rec => Image.insertEncoding map rec.encoding) map).length ≤
      map.length + page.length := by
  induction page generalizing map with
  | nil => simp
  | cons rec page ih =>
    obtain ⟨hmem, hlen⟩ := ih (Image.insertEncoding map rec.encoding)
    rw [List.foldl_cons]
    constructor
    · intro e
      rw [hmem, mem_insertEncoding, or_assoc, List.exists_mem_cons_iff, @eq_comm _ e]
    · have hone := length_insertEncoding_le map rec.encoding
      rw [List.length_cons]
      omega

theorem mem_palette {page : List (EhFrame.UnwindRecord σ τ)} {e : ℕ} :
    e ∈ Image.palette page ↔ ∃ rec ∈ page, rec.encoding = e := by
  rw [Image.palette, (foldl_insertEncoding page []).1 e]
  simp

theorem length_palette_le (page : List (EhFrame.UnwindRecord σ τ)) :
    (Image.palette page).length ≤ page.length := by
  have hlen := (foldl_insertEncoding page []).2
  rwa [List.length_nil, Nat.zero_add] at hlen

end Palette

/-! ## The layout of the section -/

namespace Image

variable (image : Image σ τ)

def lsdaStart (personalities : List τ) (pages : List (List (EhFrame.UnwindRecord σ τ))) :
    ℕ :=
  28 + 4 * personalities.length + 12 * (pages.length + 1)

def pageStart (personalities : List τ) (pages : List (List (EhFrame.UnwindRecord σ τ))) :
    ℕ :=
  lsdaStart personalities pages + 8 * (pages.flatMap image.lsdaEntries).length

def sectionBytes (personalities : List τ) (pages : List (List (EhFrame.UnwindRecord σ τ))) :
    List Byte :=
  image.encodeUnwindInfo personalities pages (pages.flatMap image.lsdaEntries).length

end Image

def Image.headAddr (image : Image σ τ) (page : List (EhFrame.UnwindRecord σ τ)) : ℕ :=
  (page.head?.map image.funcAddr).getD 0

def Image.terminatorAddr (image : Image σ τ) (last : EhFrame.UnwindRecord σ τ) : ℕ :=
  image.addr last.subsec + image.inputSize last.subsec + 1

structure Tables (personalities : List τ)
    (pages : List (List (EhFrame.UnwindRecord σ τ))) (last : EhFrame.UnwindRecord σ τ) :
    Prop where
  last : pages.flatten.getLast? = some last
  personalities : personalities.length ≤ 3
  ne_nil : ∀ page ∈ pages, page ≠ []
  page_length : ∀ page ∈ pages, page.length ≤ 200
  length : pages.flatten.length < 2 ^ 26
  encoding_lt : ∀ page ∈ pages, ∀ rec ∈ page, rec.encoding < 2 ^ 32

@[simp] theorem UnwindFirstLevelPage.length_bytes (page : UnwindFirstLevelPage) :
    page.bytes.length = 12 := by
  simp [UnwindFirstLevelPage.bytes]

@[simp] theorem Image.length_lsdaBytes (entry : ℕ × ℕ) : (Image.lsdaBytes entry).length = 8 := by
  simp [Image.lsdaBytes]

section Layout

variable {image : Image σ τ} {personalities : List τ}
variable {pages : List (List (EhFrame.UnwindRecord σ τ))}
variable {last : EhFrame.UnwindRecord σ τ}

theorem length_firstLevel (page2 lsda : ℕ) :
    (image.firstLevel last page2 lsda pages).length = pages.length + 1 := by
  induction pages generalizing page2 lsda with
  | nil => rfl
  | cons page pages ih => rw [Image.firstLevel, List.length_cons, ih, List.length_cons]

theorem drop_firstLevel (front back : List (List (EhFrame.UnwindRecord σ τ))) (page2 lsda : ℕ) :
    (image.firstLevel last page2 lsda (front ++ back)).drop front.length =
      image.firstLevel last (page2 + (front.flatMap image.pageBytes).length)
        (lsda + 8 * (front.flatMap image.lsdaEntries).length) back := by
  induction front generalizing page2 lsda with
  | nil => rfl
  | cons page front ih =>
    rw [List.cons_append, Image.firstLevel, List.length_cons, List.drop_succ_cons, ih,
      List.flatMap_cons, List.flatMap_cons, List.length_append, List.length_append,
      Nat.mul_add, Nat.add_assoc, Nat.add_assoc]

theorem map_funcAddr_firstLevel (page2 lsda : ℕ) :
    (image.firstLevel last page2 lsda pages).map (fun e => e.funcAddr % 2 ^ 32) =
      pages.map (fun page => image.headAddr page % 2 ^ 32) ++
        [image.terminatorAddr last % 2 ^ 32] := by
  induction pages generalizing page2 lsda with
  | nil => rfl
  | cons page pages ih =>
    rw [Image.firstLevel, List.map_cons, ih]
    rfl

theorem sectionBytes_eq (hlast : pages.flatten.getLast? = some last) :
    image.sectionBytes personalities pages =
      (Image.headerWords personalities.length pages.length).flatMap (le 4) ++
        (personalities.flatMap (fun sym => le 4 (image.gotAddr sym)) ++
          ((image.firstLevel last (image.pageStart personalities pages)
              (Image.lsdaStart personalities pages) pages).flatMap
              UnwindFirstLevelPage.bytes ++
            ((pages.flatMap image.lsdaEntries).flatMap Image.lsdaBytes ++
              pages.flatMap image.pageBytes))) := by
  rw [Image.sectionBytes, Image.encodeUnwindInfo, hlast, Image.pageStart, Image.lsdaStart]
  simp only [Nat.sub_self, Nat.mul_zero, List.replicate_zero, List.append_nil, List.append_assoc]

theorem readAt_header (hlast : pages.flatten.getLast? = some last) {i w : ℕ}
    (hw : (Image.headerWords personalities.length pages.length)[i]? = some w) :
    readAt 4 (image.sectionBytes personalities pages) (4 * i) = w % 2 ^ 32 := by
  rw [sectionBytes_eq hlast]
  have hread := readAt_flatMap_const (length_le 4) hw
  exact (hread _ (Nat.le_of_eq (Nat.zero_add 4))).trans (readAt_le_nil 4 w)

theorem length_front (n : ℕ) :
    ((Image.headerWords personalities.length n).flatMap (le 4)).length = 28 ∧
      (personalities.flatMap fun sym => le 4 (image.gotAddr sym)).length =
        4 * personalities.length :=
  ⟨length_flatMap_const (length_le 4) _, length_flatMap_const (fun _ => length_le 4 _) _⟩

theorem readAt_firstLevel (hlast : pages.flatten.getLast? = some last) {i : ℕ}
    {entry : UnwindFirstLevelPage}
    (hentry : (image.firstLevel last (image.pageStart personalities pages)
      (Image.lsdaStart personalities pages) pages)[i]? = some entry)
    {n offset : ℕ} (hn : offset + n ≤ 12) :
    readAt n (image.sectionBytes personalities pages)
        (28 + (4 * personalities.length + (12 * i + offset))) =
      readAt n entry.bytes offset := by
  obtain ⟨hheader, hpersonalities⟩ :=
    @length_front _ _ image personalities pages.length
  rw [sectionBytes_eq hlast, readAt_append_right _ hheader, readAt_append_right _ hpersonalities,
    readAt_flatMap_const UnwindFirstLevelPage.length_bytes hentry _ hn]

theorem length_firstLevel_bytes (page2 lsda : ℕ) :
    ((image.firstLevel last page2 lsda pages).flatMap
      UnwindFirstLevelPage.bytes).length = 12 * (pages.length + 1) := by
  rw [length_flatMap_const UnwindFirstLevelPage.length_bytes, length_firstLevel]

theorem readAt_lsda (hlast : pages.flatten.getLast? = some last) {i : ℕ}
    {entry : ℕ × ℕ} (hentry : (pages.flatMap image.lsdaEntries)[i]? = some entry)
    {n offset : ℕ} (hn : offset + n ≤ 8) :
    readAt n (image.sectionBytes personalities pages)
        (Image.lsdaStart personalities pages + (8 * i + offset)) =
      readAt n (Image.lsdaBytes entry) offset := by
  obtain ⟨hheader, hpersonalities⟩ :=
    @length_front _ _ image personalities pages.length
  rw [Image.lsdaStart, Nat.add_assoc, Nat.add_assoc, sectionBytes_eq hlast,
    readAt_append_right _ hheader, readAt_append_right _ hpersonalities,
    readAt_append_right _ (length_firstLevel_bytes _ _),
    readAt_flatMap_const Image.length_lsdaBytes hentry _ hn]

theorem readAt_page {front back : List (List (EhFrame.UnwindRecord σ τ))}
    {page : List (EhFrame.UnwindRecord σ τ)} (hpages : pages = front ++ page :: back)
    (hlast : pages.flatten.getLast? = some last) (n offset : ℕ) :
    readAt n (image.sectionBytes personalities pages)
        (image.pageStart personalities pages + (front.flatMap image.pageBytes).length + offset) =
      readAt n (image.pageBytes page ++ back.flatMap image.pageBytes) offset := by
  obtain ⟨hheader, hpersonalities⟩ :=
    @length_front _ _ image personalities pages.length
  have hlsda : ((pages.flatMap image.lsdaEntries).flatMap Image.lsdaBytes).length =
      8 * (pages.flatMap image.lsdaEntries).length :=
    length_flatMap_const Image.length_lsdaBytes _
  have hsplit : pages.flatMap image.pageBytes = front.flatMap image.pageBytes ++
      (image.pageBytes page ++ back.flatMap image.pageBytes) := by
    rw [hpages, List.flatMap_append, List.flatMap_cons]
  rw [Image.pageStart, Image.lsdaStart]
  simp only [Nat.add_assoc]
  rw [sectionBytes_eq hlast, readAt_append_right _ hheader, readAt_append_right _ hpersonalities,
    readAt_append_right _ (length_firstLevel_bytes _ _), readAt_append_right _ hlsda,
    hsplit, readAt_append_right _ rfl]

end Layout

section Page

variable {image : Image σ τ} {first : EhFrame.UnwindRecord σ τ}
variable {rest : List (EhFrame.UnwindRecord σ τ)}

theorem length_entryBytes (map : List ℕ) (rec : EhFrame.UnwindRecord σ τ) :
    (image.entryBytes map first rec).length = 4 := by
  simp [Image.entryBytes]

def pageHeader (count encodings : ℕ) : List Byte :=
  le 4 3 ++ (le 2 12 ++ (le 2 count ++ (le 2 (12 + 4 * count) ++ le 2 encodings)))

theorem length_pageHeader (count encodings : ℕ) : (pageHeader count encodings).length = 12 := by
  simp [pageHeader]

theorem pageBytes_append (buf : List Byte) :
    image.pageBytes (first :: rest) ++ buf =
      pageHeader (first :: rest).length (Image.palette (first :: rest)).length ++
        ((first :: rest).flatMap (image.entryBytes (Image.palette (first :: rest)) first) ++
          ((Image.palette (first :: rest)).flatMap (le 4) ++ buf)) := by
  simp only [Image.pageBytes, pageHeader, List.append_assoc]

theorem length_pageBytes :
    (image.pageBytes (first :: rest)).length =
      12 + (4 * (first :: rest).length + 4 * (Image.palette (first :: rest)).length) := by
  have hbytes := congrArg List.length (@pageBytes_append _ _ image first rest [])
  rw [List.append_nil, List.append_nil, List.length_append, List.length_append,
    length_pageHeader, length_flatMap_const (length_entryBytes _),
    length_flatMap_const (length_le 4)] at hbytes
  exact hbytes

theorem readAt_pageHeader (hlen : (first :: rest).length ≤ 200) (buf : List Byte) :
    readAt 4 (image.pageBytes (first :: rest) ++ buf) 0 = 3 ∧
      readAt 2 (image.pageBytes (first :: rest) ++ buf) 4 = 12 ∧
      readAt 2 (image.pageBytes (first :: rest) ++ buf) 6 = (first :: rest).length ∧
      readAt 2 (image.pageBytes (first :: rest) ++ buf) 8 = 12 + 4 * (first :: rest).length := by
  rw [pageBytes_append, pageHeader]
  simp only [List.append_assoc]
  refine ⟨readAt_le 4 3 _, ?_, ?_, ?_⟩
  · change readAt 2 _ (4 + 0) = _
    rw [readAt_skip, readAt_le]
    rfl
  · change readAt 2 _ (4 + (2 + 0)) = _
    rw [readAt_skip, readAt_skip, readAt_le]
    exact Nat.mod_eq_of_lt (by omega)
  · change readAt 2 _ (4 + (2 + (2 + 0))) = _
    rw [readAt_skip, readAt_skip, readAt_skip, readAt_le]
    exact Nat.mod_eq_of_lt (by omega)

theorem readAt_entry {i : ℕ} {rec : EhFrame.UnwindRecord σ τ}
    (hrec : (first :: rest)[i]? = some rec) (hlen : (first :: rest).length ≤ 200)
    (buf : List Byte) :
    readAt 3 (image.pageBytes (first :: rest) ++ buf) (12 + 4 * i) =
        Link.entryFuncAddr (image.funcAddr first) (image.funcAddr rec) ∧
      readAt 1 (image.pageBytes (first :: rest) ++ buf) (12 + 4 * i + 3) =
        (Image.palette (first :: rest)).idxOf rec.encoding := by
  have hmem : rec.encoding ∈ Image.palette (first :: rest) :=
    mem_palette.mpr ⟨rec, List.mem_of_getElem? hrec, rfl⟩
  have hidx : (Image.palette (first :: rest)).idxOf rec.encoding < 200 :=
    Nat.lt_of_lt_of_le (List.idxOf_lt_length_of_mem hmem) (Nat.le_trans (length_palette_le _) hlen)
  have hread (n offset : ℕ) (hn : offset + n ≤ 4) :
      readAt n (image.pageBytes (first :: rest) ++ buf) (12 + (4 * i + offset)) =
        readAt n (image.entryBytes (Image.palette (first :: rest)) first rec) offset := by
    rw [pageBytes_append, readAt_append_right _ (length_pageHeader _ _),
      readAt_flatMap_const (length_entryBytes _) hrec _ hn]
  constructor
  · refine (hread 3 0 (by decide)).trans ?_
    rw [Image.entryBytes, readAt_le]
    exact Nat.mod_eq_of_lt (Nat.mod_lt _ (by decide))
  · refine (hread 1 3 (by decide)).trans ?_
    rw [Image.entryBytes]
    have hbyte := readAt_skip 3 (Link.entryFuncAddr (image.funcAddr first) (image.funcAddr rec))
      (le 1 ((Image.palette (first :: rest)).idxOf rec.encoding)) 1 0
    refine hbyte.trans ?_
    rw [readAt_le_nil]
    exact Nat.mod_eq_of_lt (Nat.lt_trans hidx (by decide))

theorem readAt_palette {i e : ℕ} (he : (Image.palette (first :: rest))[i]? = some e)
    (hlt : e < 2 ^ 32) (buf : List Byte) :
    readAt 4 (image.pageBytes (first :: rest) ++ buf)
      (12 + 4 * (first :: rest).length + 4 * i) = e := by
  have hentries : ((first :: rest).flatMap
      (image.entryBytes (Image.palette (first :: rest)) first)).length =
        4 * (first :: rest).length :=
    length_flatMap_const (length_entryBytes _) _
  rw [Nat.add_assoc, pageBytes_append, readAt_append_right _ (length_pageHeader _ _),
    readAt_append_right _ hentries]
  refine (readAt_flatMap_const (length_le 4) he buf (Nat.le_of_eq (Nat.zero_add 4))).trans ?_
  exact (readAt_le_nil 4 e).trans (Nat.mod_eq_of_lt hlt)

end Page

namespace Tables

variable {image : Image σ τ} {personalities : List τ}
variable {pages : List (List (EhFrame.UnwindRecord σ τ))}
variable {last : EhFrame.UnwindRecord σ τ}

theorem length_pages_le (h : ∀ page ∈ pages, page ≠ []) : pages.length ≤ pages.flatten.length := by
  induction pages with
  | nil => exact Nat.le_refl _
  | cons page pages ih =>
    have hpage := List.length_pos_iff.mpr (h page List.mem_cons_self)
    have hrest := ih fun p hp => h p (List.mem_cons_of_mem _ hp)
    rw [List.length_cons, List.flatten_cons, List.length_append]
    omega

theorem length_lsdaEntries_le :
    (pages.flatMap image.lsdaEntries).length ≤ pages.flatten.length := by
  induction pages with
  | nil => exact Nat.le_refl _
  | cons page pages ih =>
    rw [List.flatMap_cons, List.flatten_cons, List.length_append, List.length_append]
    exact Nat.add_le_add (List.length_filterMap_le _ _) ih

theorem length_pageBytes_le (h : ∀ page ∈ pages, page ≠ []) :
    (pages.flatMap image.pageBytes).length ≤ 20 * pages.flatten.length := by
  induction pages with
  | nil => exact Nat.le_refl _
  | cons page pages ih =>
    have hrest := ih fun p hp => h p (List.mem_cons_of_mem _ hp)
    cases page with
    | nil => exact absurd rfl (h [] List.mem_cons_self)
    | cons first rest =>
      have hpalette := length_palette_le (first :: rest)
      rw [List.flatMap_cons, List.flatten_cons, List.length_append,
        List.length_append, length_pageBytes]
      rw [List.length_cons] at hpalette ⊢
      omega

theorem page_lt (h : Tables personalities pages last)
    {front back : List (List (EhFrame.UnwindRecord σ τ))}
    (hpages : pages = front ++ back) :
    image.pageStart personalities pages + (front.flatMap image.pageBytes).length < 2 ^ 32 := by
  have hlength := h.length
  have hpersonalities := h.personalities
  have hcount := length_pages_le h.ne_nil
  have hlsda := @length_lsdaEntries_le _ _ image pages
  have hfront : (front.flatMap image.pageBytes).length ≤ 20 * front.flatten.length :=
    length_pageBytes_le fun page hpage =>
      h.ne_nil page (hpages ▸ List.mem_append_left _ hpage)
  have hle : front.flatten.length ≤ pages.flatten.length := by
    rw [hpages, List.flatten_append, List.length_append]
    exact Nat.le_add_right _ _
  rw [Image.pageStart, Image.lsdaStart]
  omega

theorem header (h : Tables personalities pages last) :
    readAt 4 (image.sectionBytes personalities pages) 8 = 0 ∧
      readAt 4 (image.sectionBytes personalities pages) 20 = 28 + 4 * personalities.length ∧
      readAt 4 (image.sectionBytes personalities pages) 24 = pages.length + 1 := by
  have hlength := h.length
  have hpersonalities := h.personalities
  have hcount := length_pages_le h.ne_nil
  refine ⟨(@readAt_header _ _ image _ _ _ h.last 2 _ rfl).trans rfl, ?_, ?_⟩
  · exact (@readAt_header _ _ image _ _ _ h.last 5 _ rfl).trans (Nat.mod_eq_of_lt (by omega))
  · exact (@readAt_header _ _ image _ _ _ h.last 6 _ rfl).trans (Nat.mod_eq_of_lt (by omega))

theorem firstLevel_fields (h : Tables personalities pages last) {i : ℕ}
    {entry : UnwindFirstLevelPage}
    (hentry : (image.firstLevel last (image.pageStart personalities pages)
      (Image.lsdaStart personalities pages) pages)[i]? = some entry) :
    readAt 4 (image.sectionBytes personalities pages)
        (28 + 4 * personalities.length + 12 * i) = entry.funcAddr % 2 ^ 32 ∧
      readAt 4 (image.sectionBytes personalities pages)
        (28 + 4 * personalities.length + 12 * i + 4) = entry.pageOffset % 2 ^ 32 ∧
      readAt 4 (image.sectionBytes personalities pages)
        (28 + 4 * personalities.length + 12 * i + 8) = entry.lsdaOffset % 2 ^ 32 := by
  have hread (offset : ℕ) (hn : offset + 4 ≤ 12) :
      readAt 4 (image.sectionBytes personalities pages)
          (28 + 4 * personalities.length + 12 * i + offset) =
        readAt 4 entry.bytes offset := by
    rw [Nat.add_assoc, Nat.add_assoc, readAt_firstLevel h.last hentry hn]
  refine ⟨(hread 0 (by decide)).trans ?_, (hread 4 (by decide)).trans ?_,
    (hread 8 (by decide)).trans ?_⟩
  · rw [UnwindFirstLevelPage.bytes, List.append_assoc, readAt_le]
    rfl
  · rw [UnwindFirstLevelPage.bytes, List.append_assoc]
    change readAt 4 _ (4 + 0) = _
    rw [readAt_skip, readAt_le]
    rfl
  · rw [UnwindFirstLevelPage.bytes, List.append_assoc]
    change readAt 4 _ (4 + (4 + 0)) = _
    rw [readAt_skip, readAt_skip, readAt_le_nil]
    rfl

theorem findPage_eq (h : Tables personalities pages last)
    {front back : List (List (EhFrame.UnwindRecord σ τ))}
    {page : List (EhFrame.UnwindRecord σ τ)} (hpages : pages = front ++ page :: back)
    {offset : ℕ} (hfront : ∀ p ∈ front, image.headAddr p % 2 ^ 32 ≤ offset)
    (hpage : image.headAddr page % 2 ^ 32 ≤ offset)
    (hback : ∀ p ∈ back, offset < image.headAddr p % 2 ^ 32)
    (hterminator : offset < image.terminatorAddr last % 2 ^ 32) :
    findPage (image.sectionBytes personalities pages) offset =
      some (28 + 4 * personalities.length + 12 * front.length) := by
  obtain ⟨-, htable, hcount⟩ := @header _ _ image _ _ _ h
  have hkeys : (image.firstLevel last (image.pageStart personalities pages)
      (Image.lsdaStart personalities pages) pages).map (fun e => e.funcAddr % 2 ^ 32) =
      front.map (fun p => image.headAddr p % 2 ^ 32) ++ image.headAddr page % 2 ^ 32 ::
        (back.map (fun p => image.headAddr p % 2 ^ 32) ++
          [image.terminatorAddr last % 2 ^ 32]) := by
    rw [map_funcAddr_firstLevel, hpages, List.map_append, List.map_cons,
      List.append_assoc, List.cons_append]
  have hlen := congrArg List.length hkeys
  rw [List.length_map, length_firstLevel] at hlen
  rw [findPage, htable, hcount, hlen, lastAtMost_append]
  · rw [List.length_map]
    rfl
  · intro i y hy
    rw [← hkeys, List.getElem?_map] at hy
    obtain ⟨entry, hentry, rfl⟩ := Option.map_eq_some_iff.mp hy
    exact (h.firstLevel_fields hentry).1
  · intro y hy
    obtain ⟨p, hp, rfl⟩ := List.mem_map.mp hy
    exact hfront p hp
  · exact hpage
  · intro y hy
    rcases List.mem_append.mp hy with hy | hy
    · obtain ⟨p, hp, rfl⟩ := List.mem_map.mp hy
      exact hback p hp
    · rw [List.mem_singleton.mp hy]
      exact hterminator

theorem pageOffset_eq (h : Tables personalities pages last)
    {front back : List (List (EhFrame.UnwindRecord σ τ))}
    {page : List (EhFrame.UnwindRecord σ τ)} (hpages : pages = front ++ page :: back) :
    readAt 4 (image.sectionBytes personalities pages)
        (28 + 4 * personalities.length + 12 * front.length) = image.headAddr page % 2 ^ 32 ∧
      readAt 4 (image.sectionBytes personalities pages)
        (28 + 4 * personalities.length + 12 * front.length + 4) =
          image.pageStart personalities pages + (front.flatMap image.pageBytes).length := by
  have hdrop := @drop_firstLevel _ _ image last front (page :: back)
    (image.pageStart personalities pages) (Image.lsdaStart personalities pages)
  rw [← hpages] at hdrop
  have hget := congrArg (fun l => l[0]?) hdrop
  rw [List.getElem?_drop, Nat.add_zero] at hget
  obtain ⟨haddr, hoffset, -⟩ := h.firstLevel_fields hget
  exact ⟨haddr, hoffset.trans (Nat.mod_eq_of_lt (h.page_lt hpages))⟩

theorem findEntry_eq (h : Tables personalities pages last)
    {front back : List (List (EhFrame.UnwindRecord σ τ))}
    {page before behind : List (EhFrame.UnwindRecord σ τ)}
    {rec : EhFrame.UnwindRecord σ τ} (hpages : pages = front ++ page :: back)
    (hpage : page = before ++ rec :: behind) {offset : ℕ}
    (hbefore : ∀ r ∈ before, Link.entryFuncAddr (image.headAddr page) (image.funcAddr r) ≤ offset)
    (hrec : Link.entryFuncAddr (image.headAddr page) (image.funcAddr rec) ≤ offset)
    (hbehind : ∀ r ∈ behind, offset < Link.entryFuncAddr (image.headAddr page)
      (image.funcAddr r)) :
    (findEntry (image.sectionBytes personalities pages)
        (image.pageStart personalities pages + (front.flatMap image.pageBytes).length) offset).map
      (fun entry => readEncoding (image.sectionBytes personalities pages)
        (image.pageStart personalities pages + (front.flatMap image.pageBytes).length)
        (readAt 1 (image.sectionBytes personalities pages) (entry + 3))) =
      some rec.encoding := by
  obtain ⟨hcommon, -, -⟩ := @header _ _ image _ _ _ h
  have hlen := h.page_length page (hpages ▸ List.mem_append_right _ List.mem_cons_self)
  have hlt : rec.encoding < 2 ^ 32 := by
    apply h.encoding_lt page (hpages ▸ List.mem_append_right _ List.mem_cons_self)
    rw [hpage]
    exact List.mem_append_right _ List.mem_cons_self
  have hget : page[before.length]? = some rec := by
    rw [hpage, List.getElem?_append_right (Nat.le_refl _), Nat.sub_self]
    rfl
  have hkeys : page.map (fun r => Link.entryFuncAddr (image.headAddr page) (image.funcAddr r)) =
      before.map (fun r => Link.entryFuncAddr (image.headAddr page) (image.funcAddr r)) ++
        Link.entryFuncAddr (image.headAddr page) (image.funcAddr rec) ::
          behind.map fun r => Link.entryFuncAddr (image.headAddr page) (image.funcAddr r) :=
    (congrArg (List.map fun r => Link.entryFuncAddr (image.headAddr page)
      (image.funcAddr r)) hpage).trans List.map_append
  have hcount := congrArg List.length hkeys
  rw [List.length_map] at hcount
  have hread := @readAt_page _ _ image personalities pages last front back page hpages h.last
  generalize image.pageStart personalities pages +
    (front.flatMap image.pageBytes).length = start at hread ⊢
  generalize image.sectionBytes personalities pages = buf at hread hcommon ⊢
  cases page with
  | nil => exact absurd hget (by simp)
  | cons first rest =>
    obtain ⟨-, hoffset, hsize, hpalette⟩ :=
      @readAt_pageHeader _ _ image first rest hlen (back.flatMap image.pageBytes)
    rw [findEntry, hread, hread, hoffset, hsize, hcount, lastAtMost_append]
    · rw [Option.map_some, Option.map_some, List.length_map, readEncoding, hread,
        hpalette, hcommon, if_neg (Nat.not_lt_zero _), Nat.sub_zero]
      obtain ⟨-, hindex⟩ := @readAt_entry _ _ image first rest _ _ hget hlen
        (back.flatMap image.pageBytes)
      have hbyte : readAt 1 buf (start + 12 + 4 * before.length + 3) =
          (Image.palette (first :: rest)).idxOf rec.encoding := by
        rw [Nat.add_assoc, Nat.add_assoc, hread, ← Nat.add_assoc]
        exact hindex
      have hmem : rec.encoding ∈ Image.palette (first :: rest) :=
        mem_palette.mpr ⟨rec, List.mem_of_getElem? hget, rfl⟩
      rw [hbyte, Nat.add_assoc, hread, readAt_palette (List.getElem?_idxOf hmem) hlt]
    · intro i y hy
      rw [← hkeys, List.getElem?_map] at hy
      obtain ⟨r, hr, rfl⟩ := Option.map_eq_some_iff.mp hy
      rw [Nat.add_assoc, hread]
      exact (readAt_entry hr hlen _).1
    · intro y hy
      obtain ⟨r, hr, rfl⟩ := List.mem_map.mp hy
      exact hbefore r hr
    · exact hrec
    · intro y hy
      obtain ⟨r, hr, rfl⟩ := List.mem_map.mp hy
      exact hbehind r hr

end Tables

end Mold.MachO.UnwindInfo
