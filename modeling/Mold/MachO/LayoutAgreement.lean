import Mold.MachO.Layout
import Mathlib.Algebra.Order.Ring.Int

/-!
# When file offsets and addresses agree

The loops of the layout are the counters of `Mold.Lib.Layout`: one over the
chunks in the file and one over all chunks.  A layout is as it should be exactly
if the two counters make the same steps in every segment.
-/

namespace Mold.MachO.Layout

open Mold.Lib

/-! ## Alignments -/

theorem oneShl_of_lt {p : ℕ} (h : p < 31) : oneShl p = 2 ^ p := by
  have hmod : p % 32 = p := Nat.mod_eq_of_lt (by omega)
  rw [oneShl, hmod, if_neg (Nat.ne_of_lt h)]

theorem toNat_two_pow_mod {k w : ℕ} (h : k < w) : ((2 : ℤ) ^ k % 2 ^ w).toNat = 2 ^ k := by
  have hlt : (2 : ℤ) ^ k < 2 ^ w := pow_lt_pow_right₀ (by decide) h
  rw [Int.emod_eq_of_lt (pow_nonneg (by decide) k) hlt]
  exact Int.toNat_natCast (2 ^ k)

theorem foldr_max_lt {n : ℕ} (hn : 0 < n) {l : List ℕ} (h : ∀ x ∈ l, x < n) :
    l.foldr max 0 < n := by
  induction l with
  | nil => exact hn
  | cons x l ih =>
    exact max_lt (h x List.mem_cons_self) (ih fun y hy => h y (List.mem_cons_of_mem _ hy))

theorem tlsAlignment_foldl (k : ℕ) {chunks : List Chunk}
    (h : ∀ chunk ∈ chunks, chunk.p2align < 31) :
    chunks.foldl (fun val chunk =>
        if chunk.isTls then max val (oneShl chunk.p2align) else val) (2 ^ k) =
      2 ^ max k (((chunks.filter Chunk.isTls).map Chunk.p2align).foldr max 0) := by
  induction chunks generalizing k with
  | nil => simp
  | cons chunk chunks ih =>
    have htail : ∀ c ∈ chunks, c.p2align < 31 :=
      fun c hc => h c (List.mem_cons_of_mem _ hc)
    rw [List.foldl_cons]
    by_cases htls : chunk.isTls = true
    · have hmax : max ((2 : ℤ) ^ k) (2 ^ chunk.p2align) = 2 ^ max k chunk.p2align :=
        ((pow_right_mono₀ (by decide : (1 : ℤ) ≤ 2)).map_max).symm
      rw [if_pos htls, oneShl_of_lt (h chunk List.mem_cons_self), hmax, ih _ htail,
        List.filter_cons_of_pos htls, List.map_cons, List.foldr_cons, max_assoc]
    · rw [if_neg htls, ih _ htail, List.filter_cons_of_neg htls]

theorem tlsAlignment_eq {chunks : List Chunk} (h : ∀ chunk ∈ chunks, chunk.p2align < 31) :
    tlsAlignment chunks = 2 ^ ((chunks.filter Chunk.isTls).map Chunk.p2align).foldr max 0 := by
  have hfold := tlsAlignment_foldl 0 h
  rwa [pow_zero, Nat.zero_max] at hfold

namespace Segment

variable {seg : Segment}

theorem tls_p2align_lt (h : ∀ chunk ∈ seg.chunks, chunk.p2align < 31) :
    ((seg.chunks.filter Chunk.isTls).map Chunk.p2align).foldr max 0 < 31 := by
  refine foldr_max_lt (by decide) fun x hx => ?_
  obtain ⟨c, hc, rfl⟩ := List.mem_map.mp hx
  exact h c (List.mem_filter.mp hc).1

variable {chunk : Chunk}

theorem exists_requiredAlignment_eq (h : ∀ chunk ∈ seg.chunks, chunk.p2align < 31)
    (hchunk : chunk ∈ seg.chunks) :
    ∃ k < 31, seg.requiredAlignment chunk = 2 ^ k := by
  have htls := tls_p2align_lt h
  rw [requiredAlignment]
  split
  · exact ⟨_, h chunk hchunk, rfl⟩
  · split
    · exact ⟨_, htls, rfl⟩
    · exact ⟨_, htls, rfl⟩
    · exact ⟨3, by decide, rfl⟩
    · exact ⟨_, h chunk hchunk, rfl⟩

theorem requiredAlignment_pos (h : ∀ chunk ∈ seg.chunks, chunk.p2align < 31)
    (hchunk : chunk ∈ seg.chunks) :
    0 < seg.requiredAlignment chunk := by
  obtain ⟨k, -, hk⟩ := exists_requiredAlignment_eq h hchunk
  rw [hk]
  exact Nat.two_pow_pos k

theorem requiredAlignment_dvd (h : ∀ chunk ∈ seg.chunks, chunk.p2align < 31)
    (hchunk : chunk ∈ seg.chunks) :
    seg.requiredAlignment chunk ∣ 2 ^ 32 := by
  obtain ⟨k, hlt, hk⟩ := exists_requiredAlignment_eq h hchunk
  rw [hk]
  exact Nat.pow_dvd_pow 2 (by omega)

theorem getAlignment_eq (hseg : seg.isLinkedit = false)
    (h : ∀ chunk ∈ seg.chunks, chunk.p2align < 31)
    (hchunk : chunk ∈ seg.chunks) :
    getAlignment seg.chunks chunk = seg.requiredAlignment chunk := by
  have htls := tls_p2align_lt h
  have hp := h chunk hchunk
  rw [getAlignment, requiredAlignment, hseg, if_neg Bool.false_ne_true,
    tlsAlignment_eq h, oneShl_of_lt hp, toNat_two_pow_mod (by omega),
    toNat_two_pow_mod (by omega)]
  rfl

theorem linkeditAlignment_eq (hseg : seg.isLinkedit = true)
    (h : ∀ chunk ∈ seg.chunks, chunk.p2align < 31)
    (hchunk : chunk ∈ seg.chunks) :
    linkeditAlignment chunk = seg.requiredAlignment chunk := by
  have hp := h chunk hchunk
  rw [linkeditAlignment, requiredAlignment, hseg, if_pos rfl, oneShl_of_lt hp,
    toNat_two_pow_mod (by omega)]

end Segment

theorem alignTo_eq {align : ℕ} (h : 0 < align) (val : ℕ) : alignTo val align = alignUp align val :=
  if_neg (Nat.ne_of_gt h)

section Loops

variable {align : Chunk → ℕ} {l : List Chunk}

theorem setOffsets_congr {align' : Chunk → ℕ}
    (h : ∀ chunk ∈ l, align chunk = align' chunk) (fileoff vmaddr : ℕ) :
    setOffsets align fileoff vmaddr l = setOffsets align' fileoff vmaddr l := by
  induction l generalizing fileoff vmaddr with
  | nil => rfl
  | cons sec rest ih =>
    rw [setOffsets, setOffsets, h sec List.mem_cons_self]
    rw [ih fun chunk hchunk => h chunk (List.mem_cons_of_mem _ hchunk)]

theorem setBssOffsets_congr {align' : Chunk → ℕ}
    (h : ∀ chunk ∈ l, align chunk = align' chunk) (vmaddr : ℕ) :
    setBssOffsets align vmaddr l = setBssOffsets align' vmaddr l := by
  induction l generalizing vmaddr with
  | nil => rfl
  | cons sec rest ih =>
    rw [setBssOffsets, setBssOffsets, h sec List.mem_cons_self]
    rw [ih fun chunk hchunk => h chunk (List.mem_cons_of_mem _ hchunk)]

theorem setOffsets_spec (hpos : ∀ chunk ∈ l, 0 < align chunk) (fileoff vmaddr : ℕ) :
    (setOffsets align fileoff vmaddr l).2 =
        (placeEnd align Chunk.size fileoff l, placeEnd align Chunk.size vmaddr l) ∧
      (setOffsets align fileoff vmaddr l).1.map (fun sec => (sec.chunk, sec.addr)) =
        place align Chunk.size vmaddr l ∧
      (setOffsets align fileoff vmaddr l).1.map (fun sec => (sec.chunk, sec.offset)) =
        (place align Chunk.size fileoff l).map fun x => (x.1, x.2 % 2 ^ 32) := by
  induction l generalizing fileoff vmaddr with
  | nil => exact ⟨rfl, rfl, rfl⟩
  | cons sec rest ih =>
    have hsec := hpos sec List.mem_cons_self
    obtain ⟨hend, haddr, hoffset⟩ :=
      ih (fun chunk hchunk => hpos chunk (List.mem_cons_of_mem _ hchunk))
        (alignUp (align sec) fileoff + sec.size)
        (alignUp (align sec) vmaddr + sec.size)
    simp only [setOffsets, alignTo_eq hsec, place, placeEnd, List.map_cons, hend,
      haddr, hoffset, and_self]

theorem setBssOffsets_spec (hpos : ∀ chunk ∈ l, 0 < align chunk) (vmaddr : ℕ) :
    (setBssOffsets align vmaddr l).2 = placeEnd align Chunk.size vmaddr l ∧
      (setBssOffsets align vmaddr l).1.map (fun sec => (sec.chunk, sec.addr)) =
        place align Chunk.size vmaddr l := by
  induction l generalizing vmaddr with
  | nil => exact ⟨rfl, rfl⟩
  | cons sec rest ih =>
    have hsec := hpos sec List.mem_cons_self
    obtain ⟨hend, haddr⟩ :=
      ih (fun chunk hchunk => hpos chunk (List.mem_cons_of_mem _ hchunk))
        (alignUp (align sec) vmaddr + sec.size)
    simp only [setBssOffsets, alignTo_eq hsec, place, placeEnd, List.map_cons, hend,
      haddr, and_self]

theorem setOffsets_agree_iff {fileoff vmaddr F V : ℕ} (hpos : ∀ chunk ∈ l, 0 < align chunk)
    (hdvd : ∀ chunk ∈ l, align chunk ∣ 2 ^ 32) (h : fileoff + V = vmaddr + F) :
    (∀ sec ∈ (setOffsets align fileoff vmaddr l).1, sec.offset + V = sec.addr + F) ↔
      (∀ chunk ∈ l, F ≡ V [MOD align chunk]) ∧
        ∀ x ∈ place align Chunk.size fileoff l, x.2 < 2 ^ 32 := by
  induction l generalizing fileoff vmaddr with
  | nil => simp [setOffsets, place]
  | cons sec rest ih =>
    have hsec := hpos sec List.mem_cons_self
    have hpos' : ∀ chunk ∈ rest, 0 < align chunk :=
      fun chunk hchunk => hpos chunk (List.mem_cons_of_mem _ hchunk)
    have hdvd' : ∀ chunk ∈ rest, align chunk ∣ 2 ^ 32 :=
      fun chunk hchunk => hdvd chunk (List.mem_cons_of_mem _ hchunk)
    have hhead := alignUp_mod_add_eq_iff hsec (hdvd sec List.mem_cons_self) (by decide) h
    simp only [setOffsets, alignTo_eq hsec, place, List.forall_mem_cons]
    constructor
    · rintro ⟨heq, hrest⟩
      obtain ⟨hmod, hlt⟩ := hhead.mp heq
      have hnext := (alignUp_add_eq_iff hsec h).mpr hmod
      obtain ⟨hmods, hlts⟩ := (ih hpos' hdvd' (by omega)).mp hrest
      exact ⟨⟨hmod, hmods⟩, hlt, hlts⟩
    · rintro ⟨⟨hmod, hmods⟩, hlt, hlts⟩
      have hnext := (alignUp_add_eq_iff hsec h).mpr hmod
      exact ⟨hhead.mpr ⟨hmod, hlt⟩, (ih hpos' hdvd' (by omega)).mpr ⟨hmods, hlts⟩⟩

end Loops

/-! ## One segment -/

variable {l : List Chunk}

theorem takeWhile_eq_filter (h : l.Pairwise fun a b => a.isBss = true → b.isBss = true) :
    (l.takeWhile fun chunk => !chunk.isBss) = l.filter fun chunk => !chunk.isBss := by
  induction h with
  | nil => rfl
  | @cons chunk rest hhead _ ih =>
    cases hbss : chunk.isBss with
    | false =>
      rw [List.takeWhile_cons_of_pos (by simp [hbss]),
        List.filter_cons_of_pos (by simp [hbss]), ih]
    | true =>
      have hrest : (rest.filter fun chunk => !chunk.isBss) = [] := by
        rw [List.filter_eq_nil_iff]
        intro c hc
        simp [hhead c hc hbss]
      rw [List.takeWhile_cons_of_neg (by simp [hbss]),
        List.filter_cons_of_neg (by simp [hbss]), hrest]

theorem isBss_of_mem_dropWhile (h : l.Pairwise fun a b => a.isBss = true → b.isBss = true) :
    ∀ chunk ∈ l.dropWhile fun chunk => !chunk.isBss, chunk.isBss = true := by
  induction h with
  | nil => exact fun chunk hchunk => absurd hchunk List.not_mem_nil
  | @cons chunk rest hhead _ ih =>
    cases hbss : chunk.isBss with
    | false =>
      rw [List.dropWhile_cons_of_pos (by simp [hbss])]
      exact ih
    | true =>
      rw [List.dropWhile_cons_of_neg (by simp [hbss])]
      intro c hc
      rcases List.mem_cons.mp hc with rfl | hc
      · exact hbss
      · exact hhead c hc hbss

/-- What `set_offset` does to a segment that begins at `fileoff` and `vmaddr`. -/
structure Laid (pageSize fileoff vmaddr : ℕ) (seg : Segment) (cmd : SegmentLayout) : Prop where
  segment_eq : cmd.segment = seg
  fileoff_eq : cmd.fileoff = fileoff
  vmaddr_eq : cmd.vmaddr = vmaddr
  filesize_eq : cmd.filesize = seg.fileSpan pageSize fileoff
  vmsize_eq : cmd.vmsize = seg.memorySpan pageSize vmaddr
  memory : cmd.chunks.map (fun sec => (sec.chunk, sec.addr)) =
    place seg.requiredAlignment Chunk.size vmaddr seg.chunks
  files : cmd.chunks.filter (fun sec => seg.fileBacked sec.chunk) =
    (setOffsets seg.requiredAlignment fileoff vmaddr seg.fileChunks).1

variable {sec : Placed}

theorem mem_of_mem_setOffsets {align : Chunk → ℕ}
    (hpos : ∀ chunk ∈ l, 0 < align chunk) {fileoff vmaddr : ℕ}
    (hsec : sec ∈ (setOffsets align fileoff vmaddr l).1) : sec.chunk ∈ l := by
  have hmem := List.mem_map_of_mem (f := fun sec => (sec.chunk, sec.addr)) hsec
  rw [(setOffsets_spec hpos fileoff vmaddr).2.1] at hmem
  have hfst := List.mem_map_of_mem (f := Prod.fst) hmem
  rwa [place_map_fst] at hfst

variable {pageSize : ℕ} {seg : Segment}

theorem setOffsetLinkedit_laid (hpage : 0 < pageSize) (hseg : seg.isLinkedit = true)
    (h : ∀ chunk ∈ seg.chunks, chunk.p2align < 31) (fileoff vmaddr : ℕ) :
    Laid pageSize fileoff vmaddr seg (setOffsetLinkedit pageSize fileoff vmaddr seg) := by
  have hbacked : ∀ chunk, seg.fileBacked chunk = true := by
    intro chunk
    rw [Segment.fileBacked, hseg, Bool.true_or]
  have hfiles : seg.fileChunks = seg.chunks :=
    List.filter_eq_self.mpr fun chunk _ => hbacked chunk
  have hpos : ∀ chunk ∈ seg.chunks, 0 < seg.requiredAlignment chunk :=
    fun chunk hchunk => Segment.requiredAlignment_pos h hchunk
  have halign : setOffsets linkeditAlignment fileoff vmaddr seg.chunks =
      setOffsets seg.requiredAlignment fileoff vmaddr seg.chunks :=
    setOffsets_congr (fun chunk hchunk =>
      Segment.linkeditAlignment_eq hseg h hchunk) fileoff vmaddr
  obtain ⟨hend, haddr, -⟩ := setOffsets_spec hpos fileoff vmaddr
  constructor
  · rfl
  · rfl
  · rfl
  · simp only [setOffsetLinkedit, halign, hend, Segment.fileSpan, hfiles, hseg, if_true]
  · simp only [setOffsetLinkedit, halign, hend, Segment.memorySpan, alignTo_eq hpage]
  · simp only [setOffsetLinkedit, halign, haddr]
  · rw [hfiles, setOffsetLinkedit, halign]
    exact List.filter_eq_self.mpr fun sec _ => hbacked sec.chunk

theorem setOffsetRegular_laid (hpage : 0 < pageSize) (hseg : seg.isLinkedit = false)
    (h : ∀ chunk ∈ seg.chunks, chunk.p2align < 31) (fileoff vmaddr : ℕ) :
    Laid pageSize fileoff vmaddr seg (setOffsetRegular pageSize fileoff vmaddr seg) := by
  have hbacked : ∀ chunk, seg.fileBacked chunk = !chunk.isBss := by
    intro chunk
    rw [Segment.fileBacked, hseg, Bool.false_or]
  have hfiles : (seg.chunks.takeWhile fun chunk => !chunk.isBss) = seg.fileChunks := by
    rw [takeWhile_eq_filter seg.bss_last, Segment.fileChunks]
    exact List.filter_congr fun chunk _ => (hbacked chunk).symm
  have hsplit : seg.fileChunks ++ (seg.chunks.dropWhile fun chunk => !chunk.isBss) =
      seg.chunks := by
    rw [← hfiles, List.takeWhile_append_dropWhile]
  have hmem : ∀ chunk ∈ seg.fileChunks, chunk ∈ seg.chunks :=
    fun chunk hchunk => (List.mem_filter.mp hchunk).1
  have hmem' : ∀ chunk ∈ seg.chunks.dropWhile fun chunk => !chunk.isBss, chunk ∈ seg.chunks :=
    fun chunk hchunk => (List.dropWhile_sublist _).subset hchunk
  have halign : setOffsets (getAlignment seg.chunks) fileoff vmaddr seg.fileChunks =
      setOffsets seg.requiredAlignment fileoff vmaddr seg.fileChunks :=
    setOffsets_congr (fun chunk hchunk =>
      Segment.getAlignment_eq hseg h (hmem chunk hchunk)) fileoff vmaddr
  have hpos : ∀ chunk ∈ seg.fileChunks, 0 < seg.requiredAlignment chunk :=
    fun chunk hchunk => Segment.requiredAlignment_pos h (hmem chunk hchunk)
  obtain ⟨hend, haddr, -⟩ := setOffsets_spec hpos fileoff vmaddr
  have halign' := setBssOffsets_congr (fun chunk hchunk =>
    Segment.getAlignment_eq hseg h (hmem' chunk hchunk))
    (placeEnd seg.requiredAlignment Chunk.size vmaddr seg.fileChunks)
  obtain ⟨hend', haddr'⟩ := setBssOffsets_spec
    (fun chunk hchunk => Segment.requiredAlignment_pos h (hmem' chunk hchunk))
    (placeEnd seg.requiredAlignment Chunk.size vmaddr seg.fileChunks)
  constructor
  · rfl
  · rfl
  · rfl
  · simp only [setOffsetRegular, hfiles, halign, hend, Segment.fileSpan, hseg,
      Bool.false_eq_true, if_false, alignTo_eq hpage]
  · simp only [setOffsetRegular, hfiles, halign, hend, halign', hend',
      Segment.memorySpan, alignTo_eq hpage]
    rw [← placeEnd_append, hsplit]
  · simp only [setOffsetRegular, hfiles, halign, hend, halign', List.map_append, haddr, haddr']
    rw [← place_append, hsplit]
  · simp only [setOffsetRegular, hfiles, halign, hend, halign', List.filter_append]
    have hleft : ∀ sec ∈ (setOffsets seg.requiredAlignment fileoff vmaddr
        seg.fileChunks).1, seg.fileBacked sec.chunk = true :=
      fun sec hsec => (List.mem_filter.mp (mem_of_mem_setOffsets hpos hsec)).2
    have hright : ∀ sec ∈ (setBssOffsets seg.requiredAlignment
        (placeEnd seg.requiredAlignment Chunk.size vmaddr seg.fileChunks)
        (seg.chunks.dropWhile fun chunk => !chunk.isBss)).1,
        ¬ seg.fileBacked sec.chunk = true := by
      intro sec hsec
      have hpair := List.mem_map_of_mem (f := fun sec => (sec.chunk, sec.addr)) hsec
      rw [haddr'] at hpair
      have hfst := List.mem_map_of_mem (f := Prod.fst) hpair
      rw [place_map_fst] at hfst
      simp [hbacked, isBss_of_mem_dropWhile seg.bss_last _ hfst]
    rw [List.filter_eq_self.mpr hleft, List.filter_eq_nil_iff.mpr hright, List.append_nil]

theorem setOffset_laid (hpage : 0 < pageSize)
    (h : ∀ chunk ∈ seg.chunks, chunk.p2align < 31) (fileoff vmaddr : ℕ) :
    Laid pageSize fileoff vmaddr seg (setOffset pageSize fileoff vmaddr seg) := by
  rw [setOffset]
  cases hseg : seg.isLinkedit with
  | true => exact setOffsetLinkedit_laid hpage hseg h fileoff vmaddr
  | false => exact setOffsetRegular_laid hpage hseg h fileoff vmaddr

namespace Segment

theorem le_fileSpan (hpage : 0 < pageSize) (seg : Segment) (fileoff : ℕ) :
    placeEnd seg.requiredAlignment Chunk.size fileoff seg.fileChunks - fileoff ≤
      seg.fileSpan pageSize fileoff := by
  rw [fileSpan]
  split
  · exact Nat.le_refl _
  · exact le_alignUp hpage _

end Segment

namespace Laid

variable {pageSize fileoff vmaddr : ℕ} {seg : Segment} {cmd : SegmentLayout}

theorem mem_place (hlaid : Laid pageSize fileoff vmaddr seg cmd) (hsec : sec ∈ cmd.chunks) :
    (sec.chunk, sec.addr) ∈ place seg.requiredAlignment Chunk.size vmaddr seg.chunks := by
  rw [← hlaid.memory]
  exact List.mem_map_of_mem hsec

theorem files_map_offset (hlaid : Laid pageSize fileoff vmaddr seg cmd)
    (h : ∀ chunk ∈ seg.chunks, chunk.p2align < 31) :
    (cmd.chunks.filter fun sec => seg.fileBacked sec.chunk).map
        (fun sec => (sec.chunk, sec.offset)) =
      (place seg.requiredAlignment Chunk.size fileoff seg.fileChunks).map
        fun x => (x.1, x.2 % 2 ^ 32) := by
  rw [hlaid.files]
  exact (setOffsets_spec (fun chunk hchunk => Segment.requiredAlignment_pos h
    (List.mem_filter.mp hchunk).1) fileoff vmaddr).2.2

theorem exists_mem_place (hlaid : Laid pageSize fileoff vmaddr seg cmd)
    (h : ∀ chunk ∈ seg.chunks, chunk.p2align < 31)
    (hsec : sec ∈ cmd.chunks) (hfile : seg.fileBacked sec.chunk = true) :
    ∃ offset, (sec.chunk, offset) ∈ place seg.requiredAlignment Chunk.size fileoff seg.fileChunks ∧
      offset % 2 ^ 32 = sec.offset := by
  have hfiltered : sec ∈ cmd.chunks.filter fun sec => seg.fileBacked sec.chunk :=
    List.mem_filter.mpr ⟨hsec, hfile⟩
  have hmem := List.mem_map_of_mem (f := fun sec => (sec.chunk, sec.offset)) hfiltered
  rw [hlaid.files_map_offset h] at hmem
  obtain ⟨⟨chunk, offset⟩, hx, heq⟩ := List.mem_map.mp hmem
  obtain ⟨rfl, hoffset⟩ := Prod.mk.injEq .. ▸ heq
  exact ⟨offset, hx, hoffset⟩

theorem agree_iff (hlaid : Laid pageSize fileoff vmaddr seg cmd)
    (h : ∀ chunk ∈ seg.chunks, chunk.p2align < 31) :
    (∀ sec ∈ cmd.chunks, seg.fileBacked sec.chunk = true →
        (sec.offset : ℤ) - fileoff = sec.addr - vmaddr) ↔
      seg.FilesAgree fileoff vmaddr := by
  have hiff := setOffsets_agree_iff (l := seg.fileChunks)
    (fun chunk hchunk => Segment.requiredAlignment_pos h (List.mem_filter.mp hchunk).1)
    (fun chunk hchunk => Segment.requiredAlignment_dvd h (List.mem_filter.mp hchunk).1)
    (Nat.add_comm fileoff vmaddr)
  rw [← hlaid.files] at hiff
  rw [Segment.FilesAgree, ← hiff]
  constructor
  · intro hagree sec hsec
    obtain ⟨hsec, hfile⟩ := List.mem_filter.mp hsec
    have heq := hagree sec hsec hfile
    omega
  · intro hagree sec hsec hfile
    have heq := hagree sec (List.mem_filter.mpr ⟨hsec, hfile⟩)
    omega

theorem wellPlaced (hlaid : Laid pageSize fileoff vmaddr seg cmd)
    (hpage : 0 < pageSize) (h : ∀ chunk ∈ seg.chunks, chunk.p2align < 31)
    (hagree : seg.FilesAgree fileoff vmaddr) : cmd.WellPlaced := by
  have hpos : ∀ chunk ∈ seg.chunks, 0 < seg.requiredAlignment chunk :=
    fun chunk hchunk => Segment.requiredAlignment_pos h hchunk
  have hpos' : ∀ chunk ∈ seg.fileChunks, 0 < seg.requiredAlignment chunk :=
    fun chunk hchunk => hpos chunk (List.mem_filter.mp hchunk).1
  have hcomplete : cmd.chunks.map Placed.chunk = seg.chunks := by
    have hfst := congrArg (List.map Prod.fst) hlaid.memory
    rwa [place_map_fst, List.map_map] at hfst
  have hplace : ∀ sec ∈ cmd.chunks, seg.fileBacked sec.chunk = true →
      (sec.chunk, sec.offset) ∈ place seg.requiredAlignment Chunk.size fileoff seg.fileChunks := by
    intro sec hsec hfile
    obtain ⟨offset, hmem, hoffset⟩ := hlaid.exists_mem_place h hsec hfile
    rw [Nat.mod_eq_of_lt (hagree.2 _ hmem)] at hoffset
    rwa [← hoffset]
  constructor
  · rw [hlaid.segment_eq, hcomplete]
  · intro sec hsec
    rw [hlaid.segment_eq]
    exact dvd_of_mem_place (hlaid.mem_place hsec)
  · intro sec hsec hfile
    rw [hlaid.segment_eq] at hfile ⊢
    exact dvd_of_mem_place (hplace sec hsec hfile)
  · have hpair : (place seg.requiredAlignment Chunk.size vmaddr seg.chunks).Pairwise _ :=
      pairwise_place hpos
    rw [← hlaid.memory, List.pairwise_map] at hpair
    exact hpair.imp Or.inl
  · have hpair : (place seg.requiredAlignment Chunk.size fileoff
        seg.fileChunks).Pairwise _ := pairwise_place hpos'
    have hmap := hlaid.files_map_offset h
    have hsame : ((place seg.requiredAlignment Chunk.size fileoff seg.fileChunks).map
        fun x => (x.1, x.2 % 2 ^ 32)) =
        place seg.requiredAlignment Chunk.size fileoff seg.fileChunks := by
      refine (List.map_congr_left fun x hx => ?_).trans (List.map_id _)
      rw [Nat.mod_eq_of_lt (hagree.2 x hx), id]
    rw [hsame] at hmap
    rw [← hmap, List.pairwise_map, List.pairwise_filter] at hpair
    rw [hlaid.segment_eq]
    exact hpair.imp fun himp ha hb => Or.inl (himp ha hb)
  · rw [hlaid.segment_eq, hlaid.fileoff_eq, hlaid.vmaddr_eq]
    exact (hlaid.agree_iff h).mpr hagree
  · intro sec hsec
    obtain ⟨hle, hend⟩ := bounds_of_mem_place hpos (hlaid.mem_place hsec)
    have hspan := le_alignUp hpage
      (placeEnd seg.requiredAlignment Chunk.size vmaddr seg.chunks - vmaddr)
    rw [hlaid.vmaddr_eq, hlaid.vmsize_eq, Segment.memorySpan]
    constructor
    · exact hle
    · have hend' : sec.addr + sec.chunk.size ≤ _ := hend
      omega
  · intro sec hsec hfile
    rw [hlaid.segment_eq] at hfile
    obtain ⟨hle, hend⟩ := bounds_of_mem_place hpos' (hplace sec hsec hfile)
    have hspan := Segment.le_fileSpan hpage seg fileoff
    rw [hlaid.fileoff_eq, hlaid.filesize_eq]
    constructor
    · exact hle
    · have hend' : sec.offset + sec.chunk.size ≤ _ := hend
      omega

theorem wellPlaced_iff (hlaid : Laid pageSize fileoff vmaddr seg cmd)
    (hpage : 0 < pageSize) (h : ∀ chunk ∈ seg.chunks, chunk.p2align < 31) :
    cmd.WellPlaced ↔ seg.FilesAgree fileoff vmaddr := by
  constructor
  · intro hplaced
    have hagree := hplaced.agree
    rw [hlaid.segment_eq, hlaid.fileoff_eq, hlaid.vmaddr_eq] at hagree
    exact (hlaid.agree_iff h).mp hagree
  · exact hlaid.wellPlaced hpage h

end Laid

section Segments

variable {pageSize fileoff vmaddr : ℕ} {seg : Segment} {segs : List Segment}

@[simp] theorem setOffset_segment : (setOffset pageSize fileoff vmaddr seg).segment = seg := by
  rw [setOffset]
  split <;> rfl

@[simp] theorem setOffset_fileoff : (setOffset pageSize fileoff vmaddr seg).fileoff = fileoff := by
  rw [setOffset]
  split <;> rfl

@[simp] theorem setOffset_vmaddr : (setOffset pageSize fileoff vmaddr seg).vmaddr = vmaddr := by
  rw [setOffset]
  split <;> rfl

theorem assignSegments_map_segment :
    (assignSegments pageSize fileoff vmaddr segs).map SegmentLayout.segment = segs := by
  induction segs generalizing fileoff vmaddr with
  | nil => rfl
  | cons seg segs ih =>
    rw [assignSegments, List.map_cons, setOffset_segment, ih]

theorem le_of_mem_assignSegments {cmd : SegmentLayout}
    (hcmd : cmd ∈ assignSegments pageSize fileoff vmaddr segs) :
    fileoff ≤ cmd.fileoff ∧ vmaddr ≤ cmd.vmaddr := by
  induction segs generalizing fileoff vmaddr with
  | nil => exact absurd hcmd List.not_mem_nil
  | cons seg segs ih =>
    rcases List.mem_cons.mp hcmd with rfl | hcmd
    · simp
    · obtain ⟨hfile, hmem⟩ := ih hcmd
      exact ⟨Nat.le_of_add_right_le hfile, Nat.le_of_add_right_le hmem⟩

theorem pairwise_assignSegments :
    (assignSegments pageSize fileoff vmaddr segs).Pairwise fun a b =>
      a.fileoff + a.filesize ≤ b.fileoff ∧ a.vmaddr + a.vmsize ≤ b.vmaddr := by
  induction segs generalizing fileoff vmaddr with
  | nil => exact List.Pairwise.nil
  | cons seg segs ih =>
    refine List.Pairwise.cons (fun cmd hcmd => ?_) ih
    rw [setOffset_fileoff, setOffset_vmaddr]
    exact le_of_mem_assignSegments hcmd

theorem assignSegments_wellPlaced_iff (hpage : 0 < pageSize)
    (h : ∀ seg ∈ segs, ∀ chunk ∈ seg.chunks, chunk.p2align < 31) :
    (∀ cmd ∈ assignSegments pageSize fileoff vmaddr segs, cmd.WellPlaced) ↔
      CountersAgree pageSize fileoff vmaddr segs := by
  induction segs generalizing fileoff vmaddr with
  | nil => simp [assignSegments, CountersAgree]
  | cons seg segs ih =>
    have hlaid := setOffset_laid hpage (h seg List.mem_cons_self) fileoff vmaddr
    rw [assignSegments, List.forall_mem_cons,
      hlaid.wellPlaced_iff hpage (h seg List.mem_cons_self), hlaid.filesize_eq,
      hlaid.vmsize_eq, ih fun s hs => h s (List.mem_cons_of_mem _ hs), CountersAgree]

end Segments

namespace Link

variable (link : Link)

/-- A layout is as it should be exactly if the places at which the segments begin
in the file and in memory are congruent modulo the alignments of the chunks in
the file, and these chunks begin below 4 GiB. -/
theorem wellPlaced_iff_countersAgree (h : link.ShiftsInRange) :
    link.WellPlaced ↔ link.CountersAgree := by
  have hsegments : (∀ cmd ∈ link.assignOffsets, cmd.WellPlaced) ↔
      link.CountersAgree :=
    assignSegments_wellPlaced_iff (Nat.two_pow_pos _) h
  constructor
  · intro hplaced
    exact hsegments.mp hplaced.segments
  · intro hagree
    constructor
    · exact assignSegments_map_segment
    · exact hsegments.mpr hagree
    · exact pairwise_assignSegments.imp fun hpair => Or.inl hpair.2
    · exact pairwise_assignSegments.imp fun hpair => Or.inl hpair.1

end Link

/-- A program for pages of 4 KiB with the segments `__TEXT`, `__DATA` and one
more.  `__DATA` has two pages in `__bss`, and the section of the last segment has
the alignment `2 ^ p2align`. -/
def bssLink (p2align : ℕ) : Link where
  pageBits := 12
  pagezeroSize := 2 ^ 32
  segments :=
    [⟨false, [⟨.regular, 3, 512⟩, ⟨.regular, 4, 64⟩], by simp [Chunk.isBss]⟩,
     ⟨false, [⟨.regular, 3, 16⟩, ⟨.zerofill, 4, 8192⟩], by simp [Chunk.isBss]⟩,
     ⟨false, [⟨.regular, p2align, 64⟩], List.pairwise_singleton _ _⟩]
  linkedit_last := by simp

theorem bssLink_shiftsInRange {p2align : ℕ} (h : p2align < 31) :
    (bssLink p2align).ShiftsInRange := by
  simp [Link.ShiftsInRange, bssLink, h]

/-- A section that is aligned to pages is all right. -/
theorem bssLink_wellPlaced : (bssLink 12).WellPlaced := by
  refine ((bssLink 12).wellPlaced_iff_countersAgree (bssLink_shiftsInRange (by decide))).mpr ?_
  refine ⟨⟨?_, ?_⟩, ⟨?_, ?_⟩, ⟨?_, ?_⟩, trivial⟩ <;> decide +kernel

/-- A section that is aligned to four pages is not. -/
theorem bssLink_not_wellPlaced : ¬ (bssLink 14).WellPlaced := by
  intro hplaced
  obtain ⟨-, -, ⟨hagree, -⟩, -⟩ := (assignSegments_wellPlaced_iff
    (Nat.two_pow_pos 12) (bssLink_shiftsInRange (by decide))).mp hplaced.segments
  exact absurd hagree (by decide +kernel)

end Mold.MachO.Layout
