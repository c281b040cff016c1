import Mold.MachO.UnwindLookup

/-!
# When lookups in `__unwind_info` are right

A lookup finds the record of an address if the address of the Mach-O header is a
multiple of `2 ^ 32`, so that the first-level table has the low bits of relative
addresses, and if the terminator is not in front of the end of a function.  The
terminator is the end of the subsection of the last record, which after merging is
the first record of its run.  Both conditions are necessary: without the first one
the first function is not found, without the second one the last byte of the last
function.
-/

namespace Mold.MachO.UnwindInfo

open Mold.Lib Mold.MachO.EhFrame

variable {σ τ : Type*}

namespace Tables

variable {image : Image σ τ} {personalities : List τ}
variable {pages : List (List (EhFrame.UnwindRecord σ τ))}
variable {last : EhFrame.UnwindRecord σ τ}

theorem lookup_eq (h : Tables personalities pages last)
    {front back : List (List (EhFrame.UnwindRecord σ τ))}
    {page before behind : List (EhFrame.UnwindRecord σ τ)}
    {rec : EhFrame.UnwindRecord σ τ} (hpages : pages = front ++ page :: back)
    (hpage : page = before ++ rec :: behind) {offset : ℕ}
    (hfind : findPage (image.sectionBytes personalities pages) offset =
      some (28 + 4 * personalities.length + 12 * front.length))
    (hbefore : ∀ r ∈ before, Link.entryFuncAddr (image.headAddr page)
      (image.funcAddr r) ≤ offset - image.headAddr page % 2 ^ 32)
    (hrec : Link.entryFuncAddr (image.headAddr page) (image.funcAddr rec) ≤
      offset - image.headAddr page % 2 ^ 32)
    (hbehind : ∀ r ∈ behind, offset - image.headAddr page % 2 ^ 32 <
      Link.entryFuncAddr (image.headAddr page) (image.funcAddr r)) :
    lookup (image.sectionBytes personalities pages) offset = some rec.encoding := by
  obtain ⟨haddr, hoffset⟩ := @pageOffset_eq _ _ image _ _ _ h _ _ _ hpages
  have hkind : readAt 4 (image.sectionBytes personalities pages)
      (image.pageStart personalities pages + (front.flatMap image.pageBytes).length) = 3 := by
    have hread := @readAt_page _ _ image personalities pages last front back page hpages h.last 4 0
    have hlen := h.page_length page (hpages ▸ List.mem_append_right _ List.mem_cons_self)
    rw [Nat.add_zero] at hread
    rw [hread]
    cases page with
    | nil => exact absurd hpage (by simp)
    | cons first rest => exact (readAt_pageHeader hlen _).1
  rw [lookup, hfind, Option.bind_some, hoffset, hkind, if_pos rfl, haddr]
  exact h.findEntry_eq hpages hpage hbefore hrec hbehind

theorem getElem?_terminator (h : Tables personalities pages last) :
    readAt 4 (image.sectionBytes personalities pages)
        (28 + 4 * personalities.length + 12 * pages.length) = image.terminatorAddr last % 2 ^ 32 ∧
      readAt 4 (image.sectionBytes personalities pages)
        (28 + 4 * personalities.length + 12 * pages.length + 4) = 0 ∧
      readAt 4 (image.sectionBytes personalities pages)
        (28 + 4 * personalities.length + 12 * pages.length + 8) =
          image.pageStart personalities pages := by
  have hdrop := @drop_firstLevel _ _ image last pages []
    (image.pageStart personalities pages) (Image.lsdaStart personalities pages)
  rw [List.append_nil] at hdrop
  have hget := congrArg (fun l => l[0]?) hdrop
  rw [List.getElem?_drop, Nat.add_zero] at hget
  obtain ⟨haddr, hoffset, hlsda⟩ := h.firstLevel_fields hget
  have hlt := @page_lt _ _ image _ _ _ h [] pages rfl
  refine ⟨haddr, hoffset, hlsda.trans (Nat.mod_eq_of_lt ?_)⟩
  exact Nat.lt_of_le_of_lt (Nat.le_add_right _ _) hlt

theorem lookup_terminator (h : Tables personalities pages last) {offset : ℕ}
    (hfind : findPage (image.sectionBytes personalities pages) offset =
      some (28 + 4 * personalities.length + 12 * pages.length)) :
    lookup (image.sectionBytes personalities pages) offset = none := by
  obtain ⟨-, hoffset, -⟩ := @getElem?_terminator _ _ image _ _ _ h
  have hversion : readAt 4 (image.sectionBytes personalities pages) 0 = 1 :=
    (@readAt_header _ _ image _ _ _ h.last 0 _ rfl).trans rfl
  rw [lookup, hfind, Option.bind_some, hoffset, hversion, if_neg (by decide)]

theorem lookup_eq_none_of_lt (h : Tables personalities pages last) {offset : ℕ}
    (hpages : ∀ page ∈ pages, offset < image.headAddr page % 2 ^ 32) :
    lookup (image.sectionBytes personalities pages) offset = none := by
  obtain ⟨-, htable, hcount⟩ := @header _ _ image _ _ _ h
  cases hfind : findPage (image.sectionBytes personalities pages) offset with
  | none => rw [lookup, hfind, Option.bind_none]
  | some place =>
    have hsearch := hfind
    rw [findPage, htable, hcount] at hsearch
    obtain ⟨i, hi, rfl⟩ := Option.map_eq_some_iff.mp hsearch
    obtain ⟨hkey, hlt⟩ := key_of_lastAtMost hi
    have heq : i = pages.length := by
      by_contra hne
      have hi' : i < pages.length := by omega
      have hentry : i < (image.firstLevel last (image.pageStart personalities pages)
          (Image.lsdaStart personalities pages) pages).length := by
        rw [length_firstLevel]
        exact hlt
      have hmap := congrArg (fun l => l[i]?) (@map_funcAddr_firstLevel _ _ image pages
        last (image.pageStart personalities pages)
        (Image.lsdaStart personalities pages))
      rw [List.getElem?_map, List.getElem?_eq_getElem hentry, Option.map_some,
        List.getElem?_append_left (by rwa [List.length_map]), List.getElem?_map,
        List.getElem?_eq_getElem hi', Option.map_some, Option.some_inj] at hmap
      rw [(h.firstLevel_fields (List.getElem?_eq_getElem hentry)).1, hmap] at hkey
      exact absurd hkey (Nat.not_le_of_gt (hpages _ (List.getElem_mem hi')))
    exact h.lookup_terminator (heq ▸ hfind)

theorem lookup_eq_none_of_le (h : Tables personalities pages last) {offset : ℕ}
    (hpages : ∀ page ∈ pages, image.headAddr page % 2 ^ 32 ≤ offset)
    (hterminator : image.terminatorAddr last % 2 ^ 32 ≤ offset) :
    lookup (image.sectionBytes personalities pages) offset = none := by
  obtain ⟨-, htable, hcount⟩ := @header _ _ image _ _ _ h
  apply h.lookup_terminator
  have hkeys := @map_funcAddr_firstLevel _ _ image pages last
    (image.pageStart personalities pages) (Image.lsdaStart personalities pages)
  have hlen := congrArg List.length hkeys
  rw [List.length_map, length_firstLevel] at hlen
  rw [findPage, htable, hcount, hlen, lastAtMost_append]
  · rw [List.length_map]
    rfl
  · intro i y hy
    rw [← hkeys, List.getElem?_map] at hy
    obtain ⟨entry, hentry, rfl⟩ := Option.map_eq_some_iff.mp hy
    exact (h.firstLevel_fields hentry).1
  · intro y hy
    obtain ⟨p, hp, rfl⟩ := List.mem_map.mp hy
    exact hpages p hp
  · exact hterminator
  · intro y hy
    exact absurd hy List.not_mem_nil

theorem lookupLsda_eq (h : Tables personalities pages last) {front back : List (ℕ × ℕ)}
    {entry : ℕ × ℕ} (hentries : pages.flatMap image.lsdaEntries = front ++ entry :: back)
    (hlt : entry.1 < 2 ^ 32 ∧ entry.2 < 2 ^ 32)
    (hfront : ∀ e ∈ front, e.1 % 2 ^ 32 ≤ entry.1)
    (hback : ∀ e ∈ back, entry.1 < e.1 % 2 ^ 32) :
    lookupLsda (image.sectionBytes personalities pages) entry.1 = some entry.2 := by
  obtain ⟨-, htable, hcount⟩ := @header _ _ image _ _ _ h
  obtain ⟨-, -, hstop⟩ := @getElem?_terminator _ _ image _ _ _ h
  have hfirst : readAt 4 (image.sectionBytes personalities pages)
      (28 + 4 * personalities.length + 8) = Image.lsdaStart personalities pages := by
    have hlt := @page_lt _ _ image _ _ _ h [] pages rfl
    have hstart : Image.lsdaStart personalities pages < 2 ^ 32 := by
      refine Nat.lt_of_le_of_lt ?_ hlt
      rw [Image.pageStart, Nat.add_assoc]
      exact Nat.le_add_right _ _
    cases pages with
    | nil => exact absurd h.last (by simp)
    | cons page pages =>
      have hfields := (@firstLevel_fields _ _ image _ _ _ h 0 _ rfl).2.2
      exact hfields.trans (Nat.mod_eq_of_lt hstart)
  have hfields : ∀ (i : ℕ) e, (pages.flatMap image.lsdaEntries)[i]? = some e →
      readAt 4 (image.sectionBytes personalities pages)
          (Image.lsdaStart personalities pages + 8 * i) = e.1 % 2 ^ 32 ∧
        readAt 4 (image.sectionBytes personalities pages)
          (Image.lsdaStart personalities pages + 8 * i + 4) = e.2 % 2 ^ 32 := by
    intro i e he
    have hread (offset : ℕ) (hn : offset + 4 ≤ 8) :
        readAt 4 (image.sectionBytes personalities pages)
            (Image.lsdaStart personalities pages + 8 * i + offset) =
          readAt 4 (Image.lsdaBytes e) offset := by
      rw [Nat.add_assoc, readAt_lsda h.last he hn]
    refine ⟨(hread 0 (by decide)).trans (readAt_le 4 e.1 _), ?_⟩
    refine (hread 4 (by decide)).trans ?_
    exact (readAt_skip 4 e.1 _ 4 0).trans (readAt_le_nil 4 e.2)
  have hget : (pages.flatMap image.lsdaEntries)[front.length]? = some entry := by
    rw [hentries, List.getElem?_append_right (Nat.le_refl _), Nat.sub_self]
    rfl
  have hsize : (image.pageStart personalities pages -
      Image.lsdaStart personalities pages) / 8 =
        (front.map (fun e : ℕ × ℕ => e.1 % 2 ^ 32) ++ entry.1 % 2 ^ 32 ::
          back.map fun e : ℕ × ℕ => e.1 % 2 ^ 32).length := by
    rw [Image.pageStart, Nat.add_sub_cancel_left, Nat.mul_div_cancel_left _ (by decide), hentries]
    simp only [List.length_append, List.length_cons, List.length_map]
  rw [lookupLsda, htable, hcount, Nat.add_sub_cancel, hfirst, hstop]
  rw [hsize, lastAtMost_append, Option.bind_some, List.length_map,
    (hfields _ _ hget).1, Nat.mod_eq_of_lt hlt.1, if_pos rfl, (hfields _ _ hget).2,
    Nat.mod_eq_of_lt hlt.2]
  · intro i y hy
    have hmap : (pages.flatMap image.lsdaEntries).map (fun e => e.1 % 2 ^ 32) =
        front.map (fun e => e.1 % 2 ^ 32) ++ entry.1 % 2 ^ 32 ::
          back.map fun e => e.1 % 2 ^ 32 := by
      rw [hentries, List.map_append, List.map_cons]
    rw [← hmap, List.getElem?_map] at hy
    obtain ⟨e, he, rfl⟩ := Option.map_eq_some_iff.mp hy
    exact (hfields i e he).1
  · intro y hy
    obtain ⟨e, he, rfl⟩ := List.mem_map.mp hy
    exact hfront e he
  · exact Nat.mod_le _ _
  · intro y hy
    obtain ⟨e, he, rfl⟩ := List.mem_map.mp hy
    exact hback e he

end Tables

section Pages

variable [DecidableEq τ] {image : Image σ τ} {ps : List τ}
variable {records : List (EhFrame.UnwindRecord σ τ)}

theorem exists_of_mem_flatten {rec : EhFrame.UnwindRecord σ τ}
    (hrec : rec ∈ (pages image.target image.addr records).flatten) :
    ∃ rec' ∈ sortRecords image.addr records, withoutLen rec' = withoutLen rec := by
  obtain ⟨page, hpage, hrec⟩ := List.mem_flatten.mp hrec
  obtain ⟨rec', hrec', heq⟩ := exists_of_mem_pages hpage hrec
  exact ⟨rec', List.mem_mergeSort.mpr hrec', heq⟩

theorem flatMap_lsdaEntries :
    (pages image.target image.addr records).flatMap image.lsdaEntries =
      image.lsdaEntries (sortRecords image.addr records) := by
  have hfilter (l : List (EhFrame.UnwindRecord σ τ)) :
      image.lsdaEntries (l.filter fun rec => rec.lsda.isSome) = image.lsdaEntries l := by
    rw [Image.lsdaEntries, List.filterMap_filter]
    apply List.filterMap_congr
    intro rec _
    cases rec.lsda <;> rfl
  calc
    (pages image.target image.addr records).flatMap image.lsdaEntries =
        image.lsdaEntries (pages image.target image.addr records).flatten := by
      rw [List.flatMap_def, Image.lsdaEntries, List.filterMap_flatten]
      rfl
    _ = image.lsdaEntries (sortRecords image.addr records) := by
      rw [pages_flatten, ← hfilter, mergeUnwindRecords_filter_lsda, hfilter]

theorem contents_eq :
    image.contents ps records = image.sectionBytes ps (pages image.target image.addr records) := by
  have hcount : records.countP (fun rec => rec.lsda.isSome) =
      (image.lsdaEntries (sortRecords image.addr records)).length := by
    rw [Image.lsdaEntries, List.length_filterMap_eq_countP]
    have hperm : (sortRecords image.addr records).Perm records :=
      List.mergeSort_perm records _
    rw [hperm.countP_eq]
    congr 1
    funext rec
    rw [Option.isSome_map]
  rw [Image.contents, Image.sectionBytes, flatMap_lsdaEntries, hcount]

theorem Image.Fits.tables (h : image.Fits) (hps : ps.length ≤ 3)
    (hcompletes : List.Forall₂ (image.Completes ps) image.records records)
    {last : EhFrame.UnwindRecord σ τ}
    (hlast : (pages image.target image.addr records).flatten.getLast? = some last) :
    Tables ps (pages image.target image.addr records) last where
  last := hlast
  personalities := hps
  ne_nil page hpage := ne_nil_of_mem_splitRecords hpage
  page_length page hpage := by
    cases page with
    | nil => exact absurd rfl (ne_nil_of_mem_splitRecords hpage)
    | cons first rest => exact (lt_of_mem_splitRecords hpage).1
  length := by
    have hsub := (mergeUnwindRecords_sublist image.target image.addr
      (sortRecords image.addr records)).length_le
    rw [List.length_map, List.length_map, sortRecords, List.length_mergeSort,
      ← hcompletes.length_eq] at hsub
    have hlength := h.length
    rw [pages_flatten]
    exact Nat.lt_of_le_of_lt hsub (by omega)
  encoding_lt page hpage rec hrec := by
    obtain ⟨rec', hrec', heq⟩ := exists_of_mem_pages hpage hrec
    have hencoding : rec'.encoding = rec.encoding :=
      congrArg (fun r => r.encoding) heq
    obtain ⟨_, -, hcomplete⟩ := exists_of_mem_completed hcompletes hrec'
    rw [← hencoding]
    exact hcomplete.encoding_lt

theorem headAddr_spec {page : List (EhFrame.UnwindRecord σ τ)}
    (hpage : page ∈ pages image.target image.addr records) :
    (∃ first ∈ page, image.headAddr page = image.funcAddr first) ∧
      ∀ rec ∈ page, image.headAddr page ≤ image.funcAddr rec ∧
        image.funcAddr rec < image.headAddr page + 2 ^ 24 := by
  cases page with
  | nil => exact absurd rfl (ne_nil_of_mem_splitRecords hpage)
  | cons first rest =>
    refine ⟨⟨first, List.mem_cons_self, rfl⟩, ?_⟩
    have hsorted := (@pairwise_pages _ _ _ image.target image.addr records).sublist
      (List.sublist_flatten_of_mem hpage)
    intro rec hrec
    rcases List.mem_cons.mp hrec with rfl | hrec
    · exact ⟨Nat.le_refl _, Nat.lt_add_of_pos_right (by decide)⟩
    · exact ⟨(List.pairwise_cons.mp hsorted).1 rec hrec, (lt_of_mem_splitRecords hpage).2 rec hrec⟩

/-! ## Addresses with the header at a multiple of `2 ^ 32` -/

omit [DecidableEq τ] in
theorem mod_eq_sub (haligned : 2 ^ 32 ∣ image.machHdrAddr) {x : ℕ}
    (hx : x / 2 ^ 32 = image.machHdrAddr / 2 ^ 32) :
    x % 2 ^ 32 = x - image.machHdrAddr := by
  omega

omit [DecidableEq τ] in
theorem Image.Ordered.div_eq {l : List (EhFrame.UnwindRecord σ τ)}
    (h : image.Ordered l) {rec : EhFrame.UnwindRecord σ τ} (hrec : rec ∈ l) :
    image.funcAddr rec / 2 ^ 32 = image.machHdrAddr / 2 ^ 32 := by
  have hend := h.block rec hrec
  have hle := image.machHdrAddr_le_funcAddr rec
  omega

theorem div_eq_of_mem_flatten (hord : image.Ordered (sortRecords image.addr records))
    {rec : EhFrame.UnwindRecord σ τ}
    (hrec : rec ∈ (pages image.target image.addr records).flatten) :
    image.funcAddr rec / 2 ^ 32 = image.machHdrAddr / 2 ^ 32 := by
  obtain ⟨rec', hrec', heq⟩ := exists_of_mem_flatten hrec
  have haddr : image.funcAddr (withoutLen rec') = image.funcAddr (withoutLen rec) := by
    rw [heq]
  have haddr' : image.funcAddr rec' = image.funcAddr rec := haddr
  rw [← haddr']
  exact hord.div_eq hrec'

theorem entryFuncAddr_headAddr {page : List (EhFrame.UnwindRecord σ τ)}
    (hpage : page ∈ pages image.target image.addr records)
    {rec : EhFrame.UnwindRecord σ τ} (hrec : rec ∈ page) :
    Link.entryFuncAddr (image.headAddr page) (image.funcAddr rec) =
      image.funcAddr rec - image.headAddr page := by
  obtain ⟨hle, hlt⟩ := (headAddr_spec hpage).2 rec hrec
  have hentry := Link.entryFuncAddr_eq hle hlt
  omega

theorem lookup_of_found {last : EhFrame.UnwindRecord σ τ}
    (h : Tables ps (pages image.target image.addr records) last)
    (hord : image.Ordered (sortRecords image.addr records))
    (haligned : 2 ^ 32 ∣ image.machHdrAddr)
    (hend : image.terminatorAddr last / 2 ^ 32 = image.machHdrAddr / 2 ^ 32)
    {x e : ℕ} (hfound : image.Found (pages image.target image.addr records).flatten x e)
    (hx : x < image.terminatorAddr last) :
    lookup (image.contents ps records) (x - image.machHdrAddr) = some e := by
  obtain ⟨front, rec, back, hflatten, hle, hback, rfl⟩ := hfound
  have hsorted := @pairwise_pages _ _ _ image.target image.addr records
  rw [hflatten, List.pairwise_append, List.pairwise_cons] at hsorted
  have hfront : ∀ r ∈ front, image.funcAddr r ≤ image.funcAddr rec :=
    fun r hr => hsorted.2.2 r hr rec List.mem_cons_self
  obtain ⟨ls, group, rs, before, behind, hpages, hgroup, rfl, rfl⟩ :=
    exists_of_flatten_eq hflatten
  have hmem : ∀ page, page ∈ ls ∨ page = group ∨ page ∈ rs →
      page ∈ pages image.target image.addr records := by
    intro page hpage
    rw [hpages, List.mem_append, List.mem_cons]
    exact hpage
  have hhead : ∀ page, page ∈ ls ∨ page = group ∨ page ∈ rs →
      image.headAddr page % 2 ^ 32 = image.headAddr page - image.machHdrAddr ∧
        image.machHdrAddr ≤ image.headAddr page := by
    intro page hpage
    obtain ⟨⟨first, hfirst, heq⟩, -⟩ := headAddr_spec (hmem page hpage)
    rw [heq]
    refine ⟨mod_eq_sub haligned (div_eq_of_mem_flatten hord ?_),
      image.machHdrAddr_le_funcAddr first⟩
    exact List.mem_flatten.mpr ⟨page, hmem page hpage, hfirst⟩
  have hgroupHead : image.headAddr group ≤ image.funcAddr rec := by
    refine ((headAddr_spec (hmem group (Or.inr (Or.inl rfl)))).2 rec ?_).1
    rw [hgroup]
    exact List.mem_append_right _ List.mem_cons_self
  have hentry : ∀ r ∈ group, Link.entryFuncAddr (image.headAddr group)
      (image.funcAddr r) = image.funcAddr r - image.headAddr group :=
    fun r hr => entryFuncAddr_headAddr (hmem group (Or.inr (Or.inl rfl))) hr
  have hoffset : x - image.machHdrAddr - image.headAddr group % 2 ^ 32 =
      x - image.headAddr group := by
    obtain ⟨hmod, hbase⟩ := hhead group (Or.inr (Or.inl rfl))
    rw [hmod]
    omega
  rw [contents_eq]
  apply h.lookup_eq hpages hgroup
  · apply h.findPage_eq hpages
    · intro page hpage
      obtain ⟨hmod, -⟩ := hhead page (Or.inl hpage)
      obtain ⟨⟨first, hfirst, heq⟩, -⟩ := headAddr_spec (hmem page (Or.inl hpage))
      have hle' := hfront first
        (List.mem_append_left _ (List.mem_flatten.mpr ⟨page, hpage, hfirst⟩))
      rw [hmod, heq]
      omega
    · rw [(hhead group (Or.inr (Or.inl rfl))).1]
      omega
    · intro page hpage
      obtain ⟨hmod, hbase⟩ := hhead page (Or.inr (Or.inr hpage))
      obtain ⟨⟨first, hfirst, heq⟩, -⟩ :=
        headAddr_spec (hmem page (Or.inr (Or.inr hpage)))
      have hlt := hback first
        (List.mem_append_right _ (List.mem_flatten.mpr ⟨page, hpage, hfirst⟩))
      rw [hmod, heq]
      have hbase' := image.machHdrAddr_le_funcAddr rec
      omega
    · rw [mod_eq_sub haligned hend]
      have hbase := image.machHdrAddr_le_funcAddr rec
      omega
  · intro r hr
    have hle' := hfront r (List.mem_append_right _ hr)
    rw [hoffset, hentry r (hgroup ▸ List.mem_append_left _ hr)]
    omega
  · rw [hoffset, hentry rec (hgroup ▸ List.mem_append_right _ List.mem_cons_self)]
    omega
  · intro r hr
    have hlt := hback r (List.mem_append_left _ hr)
    rw [hoffset, hentry r (hgroup ▸ List.mem_append_right _ (List.mem_cons_of_mem _ hr))]
    omega

theorem lookupLsda_of_mem {last : EhFrame.UnwindRecord σ τ}
    (h : Tables ps (pages image.target image.addr records) last)
    (hord : image.Ordered (sortRecords image.addr records))
    {rec : EhFrame.UnwindRecord σ τ} (hrec : rec ∈ sortRecords image.addr records)
    {s : σ} (hs : rec.lsda = some s)
    (hlsda : (image.addr s + rec.lsdaOffset) / 2 ^ 32 = image.machHdrAddr / 2 ^ 32) :
    lookupLsda (image.contents ps records) (image.funcAddr rec - image.machHdrAddr) =
      some (image.addr s + rec.lsdaOffset - image.machHdrAddr) := by
  have hlow : ∀ r ∈ sortRecords image.addr records,
      image.funcAddr r - image.machHdrAddr < 2 ^ 32 := by
    intro r hr
    have hdiv := hord.div_eq hr
    omega
  obtain ⟨front, back, hsplit⟩ := List.append_of_mem hrec
  have hsorted := hord.precedes
  rw [hsplit, List.pairwise_append, List.pairwise_cons] at hsorted
  have hpos := hord.codeLen_pos
  have hentries : (pages image.target image.addr records).flatMap image.lsdaEntries =
      image.lsdaEntries front ++ (image.funcAddr rec - image.machHdrAddr,
        image.addr s + rec.lsdaOffset - image.machHdrAddr) :: image.lsdaEntries back := by
    rw [flatMap_lsdaEntries, hsplit, Image.lsdaEntries, List.filterMap_append,
      List.filterMap_cons, hs]
    rfl
  rw [contents_eq]
  refine h.lookupLsda_eq hentries ⟨hlow rec hrec, ?_⟩ ?_ ?_
  · have hbase := image.machHdrAddr_le s
    dsimp only
    omega
  · intro e he
    obtain ⟨r, hr, heq⟩ := List.mem_filterMap.mp he
    obtain ⟨s', -, rfl⟩ := Option.map_eq_some_iff.mp heq
    have hle := hsorted.2.2 r hr rec List.mem_cons_self
    refine Nat.le_trans (Nat.mod_le _ _) ?_
    dsimp only
    omega
  · intro e he
    obtain ⟨r, hr, heq⟩ := List.mem_filterMap.mp he
    obtain ⟨s', -, rfl⟩ := Option.map_eq_some_iff.mp heq
    have hmem : r ∈ sortRecords image.addr records := by
      rw [hsplit]
      exact List.mem_append_right _ (List.mem_cons_of_mem _ hr)
    have hle := hsorted.2.1.1 r hr
    have hlen := hpos rec hrec
    have hbase := image.machHdrAddr_le_funcAddr rec
    dsimp only
    rw [Nat.mod_eq_of_lt (hlow r hmem)]
    omega

theorem exists_last (hord : image.Ordered (sortRecords image.addr records))
    {rec : EhFrame.UnwindRecord σ τ} (hrec : rec ∈ sortRecords image.addr records) :
    ∃ last, (pages image.target image.addr records).flatten.getLast? = some last ∧
      ∃ first ∈ lastRun image.target image.addr (sortRecords image.addr records),
        first.subsec = last.subsec := by
  have hself : image.InRange rec (image.funcAddr rec) :=
    ⟨Nat.le_refl _, Nat.lt_add_of_pos_right (hord.codeLen_pos rec hrec)⟩
  obtain ⟨front, r, back, hmerged, -⟩ :=
    @mergeUnwindRecords_found _ _ _ image image.target _ hord rec hrec _ hself
  have hne : mergeUnwindRecords image.target image.addr (sortRecords image.addr records) ≠ [] := by
    rw [hmerged]
    simp
  have hrun := @getLast_mergeUnwindRecords _ _ _ image image.target _ hord
  rw [List.getLast?_eq_some_getLast hne, Option.map_some, eq_comm, Option.map_eq_some_iff] at hrun
  obtain ⟨first, hfirst, hsubsec⟩ := hrun
  refine ⟨_, ?_, first, hfirst, hsubsec⟩
  rw [pages_flatten, List.getLast?_eq_some_getLast hne]

theorem terminatorAddr_div_eq (h : image.Fits)
    (hcompletes : List.Forall₂ (image.Completes ps) image.records records)
    {last : EhFrame.UnwindRecord σ τ}
    (hlast : (pages image.target image.addr records).flatten.getLast? = some last) :
    image.terminatorAddr last / 2 ^ 32 = image.machHdrAddr / 2 ^ 32 := by
  obtain ⟨rec', hrec', heq⟩ := exists_of_mem_flatten (List.mem_of_getLast? hlast)
  obtain ⟨rec, hrec, hcomplete⟩ :=
    exists_of_mem_completed hcompletes (List.mem_mergeSort.mp hrec')
  have hsubsec' : rec'.subsec = last.subsec := congrArg (fun r => r.subsec) heq
  have hsubsec : rec.subsec = last.subsec := by
    rw [← hsubsec', hcomplete.fields]
  have hend := h.subsecEnd rec hrec
  rw [hsubsec] at hend
  exact hend

theorem lookupCorrect_of_covered (h : image.Fits) (hps : ps.length ≤ 3)
    (hcompletes : List.Forall₂ (image.Completes ps) image.records records)
    (haligned : 2 ^ 32 ∣ image.machHdrAddr) (hcovered : image.LastRunCovered records) :
    image.LookupCorrect ps records := by
  have hord := h.ordered_sortRecords hcompletes
  intro rec hrec
  obtain ⟨rec', hrec', hcomplete⟩ := exists_completed hcompletes hrec
  have hsorted : rec' ∈ sortRecords image.addr records := List.mem_mergeSort.mpr hrec'
  have haddr : image.funcAddr rec' = image.funcAddr rec := by
    rw [hcomplete.fields]
    rfl
  have hlen : rec'.codeLen = rec.codeLen := by rw [hcomplete.fields]
  obtain ⟨last, hlast, first, hfirst, hsubsec⟩ := exists_last hord hsorted
  have htables := h.tables hps hcompletes hlast
  constructor
  · intro x hx
    have hx' : image.InRange rec' x := by
      rw [Image.InRange, haddr, hlen]
      exact hx
    have hfound := @mergeUnwindRecords_found _ _ _ image image.target _ hord rec' hsorted
      _ hx'
    rw [← pages_flatten] at hfound
    have hend := hcovered first hfirst rec hrec
    rw [hsubsec] at hend
    refine ⟨rec'.encoding, lookup_of_found htables hord haligned
      (terminatorAddr_div_eq h hcompletes hlast) hfound (Nat.lt_of_lt_of_le hx.2 hend), ?_⟩
    exact hcomplete.right (image.encoding_lt rec hrec) (h.bits rec hrec)
  · intro s hs
    have hs' : rec'.lsda = some s := by
      rw [hcomplete.fields]
      exact hs
    have hoffset : rec'.lsdaOffset = rec.lsdaOffset := by rw [hcomplete.fields]
    have hlsda := h.lsda rec hrec s hs
    rw [← hoffset] at hlsda
    have hlookup := lookupLsda_of_mem htables hord hsorted hs' hlsda
    rwa [haddr, hoffset] at hlookup

theorem Image.LookupCorrect.exists_lookup (hcorrect : image.LookupCorrect ps records)
    (hcompletes : List.Forall₂ (image.Completes ps) image.records records)
    {rec' : EhFrame.UnwindRecord σ τ} (hrec' : rec' ∈ sortRecords image.addr records)
    {x : ℕ} (hx : image.InRange rec' x) :
    ∃ e, lookup (image.contents ps records) (x - image.machHdrAddr) = some e := by
  obtain ⟨rec, hrec, hcomplete⟩ :=
    exists_of_mem_completed hcompletes (List.mem_mergeSort.mp hrec')
  have hrange : image.InRange rec x := by
    rw [hcomplete.fields] at hx
    exact hx
  obtain ⟨e, he, -⟩ := (hcorrect rec hrec).1 x hrange
  exact ⟨e, he⟩

theorem aligned_of_lookupCorrect (h : image.Fits) (hps : ps.length ≤ 3)
    (hcompletes : List.Forall₂ (image.Completes ps) image.records records)
    (hcorrect : image.LookupCorrect ps records) (hne : image.records ≠ []) :
    2 ^ 32 ∣ image.machHdrAddr := by
  by_contra haligned
  have hord := h.ordered_sortRecords hcompletes
  obtain ⟨rec, hrec⟩ := List.exists_mem_of_ne_nil _ hne
  obtain ⟨rec', hrec', -⟩ := exists_completed hcompletes hrec
  obtain ⟨last, hlast, -⟩ := exists_last hord (List.mem_mergeSort.mpr hrec')
  have htables := h.tables hps hcompletes hlast
  cases hsort : sortRecords image.addr records with
  | nil =>
    have hmem : rec' ∈ sortRecords image.addr records := List.mem_mergeSort.mpr hrec'
    rw [hsort] at hmem
    exact absurd hmem List.not_mem_nil
  | cons first rest =>
    have hfirst : first ∈ sortRecords image.addr records := by
      rw [hsort]
      exact List.mem_cons_self
    have hself : image.InRange first (image.funcAddr first) :=
      ⟨Nat.le_refl _, Nat.lt_add_of_pos_right (hord.codeLen_pos first hfirst)⟩
    obtain ⟨e, he⟩ := hcorrect.exists_lookup hcompletes hfirst hself
    have hnone : lookup (image.contents ps records)
        (image.funcAddr first - image.machHdrAddr) = none := by
      rw [contents_eq]
      apply htables.lookup_eq_none_of_lt
      intro page hpage
      obtain ⟨⟨r, hr, heq⟩, -⟩ := headAddr_spec hpage
      have hmem := List.mem_flatten.mpr ⟨page, hpage, hr⟩
      have hdiv := div_eq_of_mem_flatten hord hmem
      obtain ⟨r', hr', hsame⟩ := exists_of_mem_flatten hmem
      have haddr : image.funcAddr (withoutLen r') = image.funcAddr (withoutLen r) := by
        rw [hsame]
      have haddr' : image.funcAddr r' = image.funcAddr r := haddr
      have hle : image.funcAddr first ≤ image.funcAddr r' := by
        have hprecedes := hord.precedes
        rw [hsort] at hprecedes hr'
        rcases List.mem_cons.mp hr' with rfl | hr'
        · exact Nat.le_refl _
        · exact Nat.le_trans (Nat.le_add_right _ _) ((List.pairwise_cons.mp hprecedes).1 r' hr')
      have hbase := image.machHdrAddr_le_funcAddr first
      rw [heq]
      omega
    rw [hnone] at he
    exact absurd he (by simp)

theorem covered_of_lookupCorrect (h : image.Fits) (hps : ps.length ≤ 3)
    (hcompletes : List.Forall₂ (image.Completes ps) image.records records)
    (hcorrect : image.LookupCorrect ps records)
    (haligned : 2 ^ 32 ∣ image.machHdrAddr) : image.LastRunCovered records := by
  have hord := h.ordered_sortRecords hcompletes
  intro first hfirst rec hrec
  by_contra hgt
  obtain ⟨rec', hrec', hcomplete⟩ := exists_completed hcompletes hrec
  have hsorted : rec' ∈ sortRecords image.addr records := List.mem_mergeSort.mpr hrec'
  obtain ⟨last, hlast, first', hfirst', hsubsec⟩ := exists_last hord hsorted
  have htables := h.tables hps hcompletes hlast
  have hterminator : image.addr first.subsec + image.inputSize first.subsec + 1 =
      image.terminatorAddr last := by
    rw [Option.mem_unique hfirst hfirst', Image.terminatorAddr, hsubsec]
  obtain ⟨init, end', hsplit⟩ :=
    List.eq_nil_or_concat (sortRecords image.addr records) |>.resolve_left
      (List.ne_nil_of_mem hsorted)
  rw [List.concat_eq_append] at hsplit
  have hend' : end' ∈ sortRecords image.addr records := by
    rw [hsplit]
    exact List.mem_append_right _ (List.mem_singleton_self _)
  have hlastEnd : ∀ r ∈ sortRecords image.addr records,
      image.funcAddr r + r.codeLen ≤ image.funcAddr end' + end'.codeLen := by
    intro r hr
    have hprecedes := hord.precedes
    rw [hsplit] at hprecedes hr
    rw [List.pairwise_append] at hprecedes
    rcases List.mem_append.mp hr with hr | hr
    · exact Nat.le_trans (hprecedes.2.2 r hr end' (List.mem_singleton_self _))
        (Nat.le_add_right _ _)
    · rw [List.mem_singleton.mp hr]
  have hpos := hord.codeLen_pos end' hend'
  have hbyte : image.InRange end' (image.funcAddr end' + end'.codeLen - 1) := by
    constructor <;> omega
  obtain ⟨e, he⟩ := hcorrect.exists_lookup hcompletes hend' hbyte
  have hnone : lookup (image.contents ps records)
      (image.funcAddr end' + end'.codeLen - 1 - image.machHdrAddr) = none := by
    rw [contents_eq]
    apply htables.lookup_eq_none_of_le
    · intro page hpage
      obtain ⟨⟨r, hr, heq⟩, -⟩ := headAddr_spec hpage
      have hmem := List.mem_flatten.mpr ⟨page, hpage, hr⟩
      obtain ⟨r', hr', hsame⟩ := exists_of_mem_flatten hmem
      have haddr : image.funcAddr (withoutLen r') = image.funcAddr (withoutLen r) := by
        rw [hsame]
      have haddr' : image.funcAddr r' = image.funcAddr r := haddr
      have hle := hlastEnd r' hr'
      have hlen := hord.codeLen_pos r' hr'
      rw [heq, mod_eq_sub haligned (div_eq_of_mem_flatten hord hmem)]
      omega
    · have hbound := hlastEnd rec' hsorted
      have hrange : image.funcAddr rec' + rec'.codeLen = image.funcAddr rec + rec.codeLen := by
        rw [hcomplete.fields]
        rfl
      rw [mod_eq_sub haligned (terminatorAddr_div_eq h hcompletes hlast)]
      omega
  rw [hnone] at he
  exact absurd he (by simp)

end Pages

/-- For an image that fits, the tables are right exactly if the Mach-O header is at a
multiple of `2 ^ 32` and no function ends more than one byte behind the subsection
of the first record of the last run of records that can be merged. -/
theorem lookupCorrect_iff [DecidableEq τ] (image : Image σ τ) (h : image.Fits)
    {personalities : List τ} {records : List (EhFrame.UnwindRecord σ τ)}
    (hencoded : image.encoded = some (personalities, records)) :
    image.LookupCorrect personalities records ↔
      (image.records ≠ [] → 2 ^ 32 ∣ image.machHdrAddr) ∧ image.LastRunCovered records := by
  obtain ⟨-, hps, hcompletes⟩ :=
    encodeRecords_completes hencoded (Nat.zero_le _) image.encoding_lt
  constructor
  · intro hcorrect
    have haligned := aligned_of_lookupCorrect h hps hcompletes hcorrect
    refine ⟨haligned, ?_⟩
    intro first hfirst rec hrec
    exact covered_of_lookupCorrect h hps hcompletes hcorrect
      (haligned (List.ne_nil_of_mem hrec)) first hfirst rec hrec
  · rintro ⟨haligned, hcovered⟩ rec hrec
    exact lookupCorrect_of_covered h hps hcompletes
      (haligned (List.ne_nil_of_mem hrec)) hcovered rec hrec

/-! ## Two functions -/

theorem encoding_lt_of_mem_pair (encoding : Fin 16) :
    ∀ rec ∈ ([{ subsec := false, codeLen := 16, encoding := 7 },
        { subsec := true, codeLen := 16, encoding := encoding }] :
          List (EhFrame.UnwindRecord Bool ℕ)), rec.encoding < 2 ^ 32 := by
  have := encoding.isLt
  simp only [List.mem_cons, List.not_mem_nil, or_false, forall_eq_or_imp, forall_eq]
  omega

def twoFunctions (machHdrAddr : ℕ) (encoding : Fin 16) : Image Bool ℕ where
  target := .arm64
  records :=
    [{ subsec := false, codeLen := 16, encoding := 7 },
      { subsec := true, codeLen := 16, encoding := encoding }]
  addr s := machHdrAddr + 0x1000 + 16 * s.toNat
  inputSize _ := 16
  machHdrAddr := machHdrAddr
  machHdrAddr_le s := by omega
  codeLen_lt := by simp
  encoding_lt := encoding_lt_of_mem_pair encoding
  fdeOutputOffset_lt _ := by decide

theorem twoFunctions_encoded (machHdrAddr : ℕ) (encoding : Fin 16) :
    (twoFunctions machHdrAddr encoding).encoded =
      some ([], (twoFunctions machHdrAddr encoding).records) := rfl

theorem twoFunctions_sorted (machHdrAddr : ℕ) (encoding : Fin 16) :
    sortRecords (twoFunctions machHdrAddr encoding).addr
        (twoFunctions machHdrAddr encoding).records =
      (twoFunctions machHdrAddr encoding).records := by
  apply List.mergeSort_of_pairwise
  simp [twoFunctions, getFuncAddr]

theorem twoFunctions_fits (machHdrAddr : ℕ) (encoding : Fin 16)
    (h : machHdrAddr % 2 ^ 32 ≤ 2 ^ 31) : (twoFunctions machHdrAddr encoding).Fits where
  codeLen_pos := by simp [twoFunctions]
  disjoint := by
    simp only [twoFunctions, List.pairwise_cons, List.mem_cons, List.not_mem_nil, or_false,
      forall_eq, List.Pairwise.nil, and_true, Image.InRange, Image.funcAddr, getFuncAddr]
    simp
    omega
  funcEnd := by
    simp [twoFunctions, Image.funcAddr, getFuncAddr]
    omega
  subsecEnd := by
    simp [twoFunctions]
    omega
  lsda := by simp [twoFunctions]
  length := by simp [twoFunctions]
  bits := by simp [twoFunctions]

/-- The image at 4 GiB with functions that are not merged. -/
theorem lookupCorrect_twoFunctions :
    (twoFunctions (2 ^ 32) 8).LookupCorrect [] (twoFunctions (2 ^ 32) 8).records := by
  have hfits := twoFunctions_fits (2 ^ 32) 8 (by decide)
  apply (lookupCorrect_iff _ hfits (twoFunctions_encoded _ _)).mpr
  refine ⟨fun _ => Nat.dvd_refl _, ?_⟩
  intro first hfirst rec hrec
  rw [twoFunctions_sorted] at hfirst
  have hlast : lastRun (twoFunctions (2 ^ 32) 8).target (twoFunctions (2 ^ 32) 8).addr
      (twoFunctions (2 ^ 32) 8).records =
        some { subsec := true, codeLen := 16, encoding := 8 } := rfl
  rw [hlast, Option.mem_some_iff] at hfirst
  subst hfirst
  rcases List.mem_pair.mp hrec with rfl | rfl <;> decide

/-- If the two functions are merged, the terminator is in the second one, and if the
Mach-O header is at 4 KiB, no function is found. -/
theorem twoFunctions_not_lookupCorrect :
    ¬ (twoFunctions (2 ^ 32) 7).LookupCorrect [] (twoFunctions (2 ^ 32) 7).records ∧
      ¬ (twoFunctions (2 ^ 12) 8).LookupCorrect [] (twoFunctions (2 ^ 12) 8).records := by
  constructor
  · intro hcorrect
    have hfits := twoFunctions_fits (2 ^ 32) 7 (by decide)
    obtain ⟨-, hps, hcompletes⟩ := encodeRecords_completes
      (twoFunctions_encoded (2 ^ 32) 7) (Nat.zero_le _) (Image.encoding_lt _)
    have hcovered := covered_of_lookupCorrect hfits hps hcompletes hcorrect (Nat.dvd_refl _)
    have hlast : { subsec := false, codeLen := 16, encoding := 7 } ∈
        lastRun (twoFunctions (2 ^ 32) 7).target (twoFunctions (2 ^ 32) 7).addr
          (sortRecords (twoFunctions (2 ^ 32) 7).addr (twoFunctions (2 ^ 32) 7).records) := by
      rw [twoFunctions_sorted]
      rfl
    have hmem : { subsec := true, codeLen := 16, encoding := 7 } ∈
        (twoFunctions (2 ^ 32) 7).records := List.mem_pair.mpr (Or.inr rfl)
    exact absurd (hcovered _ hlast _ hmem) (by decide)
  · intro hcorrect
    have hfits := twoFunctions_fits (2 ^ 12) 8 (by decide)
    obtain ⟨-, hps, hcompletes⟩ := encodeRecords_completes
      (twoFunctions_encoded (2 ^ 12) 8) (Nat.zero_le _) (Image.encoding_lt _)
    have haligned := aligned_of_lookupCorrect hfits hps hcompletes hcorrect (List.cons_ne_nil _ _)
    exact absurd haligned (by decide)

end Mold.MachO.UnwindInfo
