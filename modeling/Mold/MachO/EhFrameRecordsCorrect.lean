import Mold.Lib.KeyedList
import Mold.Lib.OptionTraverse
import Mold.MachO.EhFrameRecords

/-!
# Pointers of `__eh_frame` in the output

The records of a section follow each other, so each of them is found by its place, and the
offsets of the output are those of a tiling.  The pointer to the CIE and the one to the
LSDA are moved as they should be.  The one to the function leads to the subsection, and
the place of the function in it is lost.
-/

namespace Mold.MachO.EhFrameRecords

open Mold.Lib Mold.MachO.Subsections

variable {σ τ : Type*}

/-! ## Accepted sections -/

theorem recordPositions_spec {data : List Byte} {fuel pos : ℕ} {places : List ℕ}
    (h : recordPositions data fuel pos = some places) :
    places.Pairwise (· < ·) ∧ ∀ p ∈ places, pos ≤ p ∧ p + sizeAt data p ≤ data.length := by
  induction fuel generalizing pos places with
  | zero => exact absurd h (by simp [recordPositions])
  | succ fuel ih =>
    rw [recordPositions] at h
    split_ifs at h with hend hbad
    · obtain rfl := Option.some.inj h
      exact ⟨List.Pairwise.nil, fun p hp => absurd hp List.not_mem_nil⟩
    · obtain ⟨rest, hrest, rfl⟩ := Option.map_eq_some_iff.mp h
      obtain ⟨hpairwise, hinside⟩ := ih hrest
      have hsize : 0 < sizeAt data pos := Nat.succ_pos _
      refine ⟨List.pairwise_cons.mpr ⟨fun p hp => ?_, hpairwise⟩, ?_⟩
      · have hlow := (hinside p hp).1
        omega
      · refine List.forall_mem_cons.mpr ⟨⟨le_refl pos, ?_⟩, fun p hp => ?_⟩
        · rw [not_or] at hbad
          exact not_lt.mp hbad.2
        · obtain ⟨hlow, hhigh⟩ := hinside p hp
          exact ⟨by omega, hhigh⟩

theorem parseAugmentation_cases {data letters : List Byte} {p size n : ℕ}
    (h : parseAugmentation data letters p size = some n)
    (hsize : size = 0 ∨ size = 4 ∨ size = 8) : n = 0 ∨ n = 4 ∨ n = 8 := by
  induction letters generalizing p size with
  | nil =>
    obtain rfl := Option.some.inj h
    exact hsize
  | cons c letters ih =>
    rw [parseAugmentation] at h
    split_ifs at h
    · exact ih h (.inr (.inl rfl))
    · exact ih h (.inr (.inr rfl))
    · exact ih h hsize
    · exact ih h hsize

theorem parseCie_cases {data : List Byte} {pos n : ℕ} (h : parseCie data pos = some n) :
    n = 0 ∨ n = 4 ∨ n = 8 := by
  simp only [parseCie] at h
  split at h
  case h_1 => exact .inl (Option.some.inj h).symm
  case h_2 =>
    split at h
    case isTrue => exact .inl (Option.some.inj h).symm
    case isFalse => exact parseAugmentation_cases h (.inl rfl)

namespace InputSection

variable {sec : InputSection σ τ} {data : List Byte}

theorem functions_spec {fdes : List ℕ} {funs : List (ℕ × σ)}
    (h : sec.functions data fdes = some funs) :
    (funs.map Prod.fst).Sublist fdes ∧
      ∀ f ∈ funs, sec.find (sec.functionAddr data f.1) = some f.2 := by
  obtain ⟨all, hall, rfl⟩ := Option.map_eq_some_iff.mp h
  have hmap : all.map Prod.fst = fdes := by
    have hfst := map_of_mapM_eq_some (g := Prod.fst) (k := id) (fun pos f hf => ?_) hall
    · rwa [List.map_id] at hfst
    · obtain ⟨s, -, rfl⟩ := Option.map_eq_some_iff.mp hf
      rfl
  constructor
  · rw [← hmap]
    exact List.filter_sublist.map _
  · intro f hf
    obtain ⟨pos, -, hpos⟩ := (mem_of_mapM_eq_some hall).mp (List.mem_of_mem_filter hf)
    obtain ⟨s, hs, rfl⟩ := Option.map_eq_some_iff.mp hpos
    exact hs

/-- What `FdeRecord::parse` finds. -/
structure FdeParsed (sec : InputSection σ τ) (data : List Byte) (cies : List (CieRecord τ))
    (fde : FdeRecord σ τ) : Prop where
  subsec : sec.find (sec.functionAddr data fde.pos) = some fde.subsec
  cie : sec.findCie cies data fde.pos = some fde.cie
  lsda : fde.cie.lsdaSize ≠ 0 → ∃ lsda, fde.lsda = some lsda ∧
    sec.find (sec.lsdaAddr data fde.pos) = some lsda
  noLsda : fde.cie.lsdaSize = 0 → fde.lsda = none

theorem pos_of_parseFde {cies : List (CieRecord τ)} {pos : ℕ} {subsec : σ}
    {fde : FdeRecord σ τ} (h : sec.parseFde cies data pos subsec = some fde) :
    fde.pos = pos := by
  obtain ⟨cie, -, h⟩ := Option.bind_eq_some_iff.mp h
  split at h
  case isTrue =>
    obtain rfl := Option.some.inj h
    rfl
  case isFalse =>
    obtain ⟨lsda, -, rfl⟩ := Option.map_eq_some_iff.mp h
    rfl

theorem parseFde_spec {cies : List (CieRecord τ)} {pos : ℕ} {subsec : σ}
    {fde : FdeRecord σ τ} (h : sec.parseFde cies data pos subsec = some fde)
    (hsubsec : sec.find (sec.functionAddr data pos) = some subsec) :
    sec.FdeParsed data cies fde := by
  obtain ⟨cie, hcie, h⟩ := Option.bind_eq_some_iff.mp h
  split at h
  case isTrue hzero =>
    obtain rfl := Option.some.inj h
    exact ⟨hsubsec, hcie, fun hne => absurd hzero hne, fun _ => rfl⟩
  case isFalse hne =>
    obtain ⟨lsda, hlsda, rfl⟩ := Option.map_eq_some_iff.mp h
    exact ⟨hsubsec, hcie, fun _ => ⟨lsda, rfl, hlsda⟩, fun hzero => absurd hzero hne⟩

end InputSection

namespace ObjectFile

variable (file : ObjectFile σ τ)

theorem exists_places :
    ∃ places : List ℕ, places.Pairwise (· < ·) ∧
      (∀ p ∈ places, p + sizeAt file.data p ≤ file.data.length) ∧
      file.cies.map CieRecord.pos = places.filter (isCie file.data) ∧
      (file.parsedFdes.map FdeRecord.pos).Sublist (places.filter fun p => !isCie file.data p) ∧
      (∀ cie ∈ file.cies, cie.lsdaSize = 0 ∨ cie.lsdaSize = 4 ∨ cie.lsdaSize = 8) ∧
      ∀ fde ∈ file.parsedFdes, file.sec.FdeParsed file.data file.cies fde := by
  obtain ⟨places, hplaces, h⟩ := Option.bind_eq_some_iff.mp file.parsed
  obtain ⟨persons, -, h⟩ := Option.bind_eq_some_iff.mp h
  obtain ⟨cies, hcies, h⟩ := Option.bind_eq_some_iff.mp h
  obtain ⟨funs, hfuns, h⟩ := Option.bind_eq_some_iff.mp h
  obtain ⟨fdes, hfdes, heq⟩ := Option.map_eq_some_iff.mp h
  obtain ⟨rfl, rfl⟩ := Prod.mk.inj heq
  obtain ⟨hpairwise, hinside⟩ := recordPositions_spec hplaces
  obtain ⟨hsub, hfound⟩ := InputSection.functions_spec hfuns
  refine ⟨places, hpairwise, fun p hp => (hinside p hp).2, ?_, ?_, ?_, ?_⟩
  · have hmap := map_of_mapM_eq_some (g := CieRecord.pos) (k := id) (fun pos c hc => ?_) hcies
    · rwa [List.map_id] at hmap
    · obtain ⟨size, -, rfl⟩ := Option.map_eq_some_iff.mp hc
      rfl
  · have hmap := map_of_mapM_eq_some (g := FdeRecord.pos) (k := Prod.fst)
      (fun f fde hf => InputSection.pos_of_parseFde hf) hfdes
    rw [hmap]
    exact hsub
  · intro cie hcie
    obtain ⟨pos, -, hpos⟩ := (mem_of_mapM_eq_some hcies).mp hcie
    obtain ⟨size, hparse, rfl⟩ := Option.map_eq_some_iff.mp hpos
    exact parseCie_cases hparse
  · intro fde hfde
    obtain ⟨f, hf, hparse⟩ := (mem_of_mapM_eq_some hfdes).mp hfde
    exact InputSection.parseFde_spec hparse (hfound f hf)

theorem nodup_positions :
    ((file.cies.map CieRecord.pos) ++ (file.fdes.map FdeRecord.pos)).Nodup := by
  obtain ⟨places, hpairwise, -, hcies, hfdes, -, -⟩ := file.exists_places
  have hnodup : places.Nodup := hpairwise.imp fun h => h.ne
  have hperm := file.perm.map FdeRecord.pos
  rw [hcies, List.nodup_append']
  refine ⟨hnodup.filter _, hperm.nodup_iff.mpr ((hnodup.filter _).sublist hfdes), ?_⟩
  intro pos hcie hfde
  have hfde' := List.of_mem_filter (hfdes.subset (hperm.mem_iff.mp hfde))
  rw [List.of_mem_filter hcie] at hfde'
  exact absurd hfde' (by decide)

theorem inside_cie {cie : CieRecord τ} (h : cie ∈ file.cies) :
    cie.pos + sizeAt file.data cie.pos ≤ file.data.length := by
  obtain ⟨places, -, hinside, hcies, -, -, -⟩ := file.exists_places
  have hmem : cie.pos ∈ file.cies.map CieRecord.pos := List.mem_map_of_mem h
  rw [hcies] at hmem
  exact hinside _ (List.mem_of_mem_filter hmem)

theorem inside_fde {fde : FdeRecord σ τ} (h : fde ∈ file.fdes) :
    fde.pos + sizeAt file.data fde.pos ≤ file.data.length := by
  obtain ⟨places, -, hinside, -, hfdes, -, -⟩ := file.exists_places
  have hmem := hfdes.subset (List.mem_map_of_mem (file.perm.mem_iff.mp h))
  exact hinside _ (List.mem_of_mem_filter hmem)

theorem fdeParsed {fde : FdeRecord σ τ} (h : fde ∈ file.fdes) :
    file.sec.FdeParsed file.data file.cies fde := by
  obtain ⟨places, -, -, -, -, -, hparsed⟩ := file.exists_places
  exact hparsed fde (file.perm.mem_iff.mp h)

theorem lsdaSize_cases {cie : CieRecord τ} (h : cie ∈ file.cies) :
    cie.lsdaSize = 0 ∨ cie.lsdaSize = 4 ∨ cie.lsdaSize = 8 := by
  obtain ⟨places, -, -, -, -, hsizes, -⟩ := file.exists_places
  exact hsizes cie h

theorem cie_mem {fde : FdeRecord σ τ} (h : fde ∈ file.fdes) : fde.cie ∈ file.cies :=
  List.mem_of_find?_eq_some (file.fdeParsed h).cie

end ObjectFile

/-! ## The layout -/

/-- The record `s` is another one than `r`, and not a CIE behind an FDE of its file. -/
structure Follows (r s : Record σ τ) : Prop where
  key : r.key ≠ s.key
  order : ∀ i file fde j file' cie, r = .fde i file fde → s = .cie j file' cie → i ≠ j

namespace Link

variable {link : Link σ τ} {i : ℕ} {file : ObjectFile σ τ}

theorem mem_records_cie {cie : CieRecord τ} :
    Record.cie i file cie ∈ link.records ↔
      link.objs[i]? = some file ∧ cie ∈ link.liveCies file := by
  simp [records, List.mem_zipIdx_iff_getElem?]

theorem mem_records_fde {fde : FdeRecord σ τ} :
    Record.fde i file fde ∈ link.records ↔
      link.objs[i]? = some file ∧ fde ∈ link.liveFdes file := by
  simp [records, List.mem_zipIdx_iff_getElem?]

theorem pairwise_follows_file (link : Link σ τ) (i : ℕ) (file : ObjectFile σ τ) :
    ((link.liveCies file).map (Record.cie i file) ++
      (link.liveFdes file).map (Record.fde i file)).Pairwise Follows := by
  have hnodup := file.nodup_positions
  rw [List.nodup_append'] at hnodup
  obtain ⟨hcies, hfdes, hdisjoint⟩ := hnodup
  rw [List.Nodup, List.pairwise_map] at hcies hfdes
  rw [List.pairwise_append, List.pairwise_map, List.pairwise_map]
  refine ⟨(hcies.filter _).imp fun h => ?_, (hfdes.filter _).imp fun h => ?_, ?_⟩
  · exact ⟨fun heq => h (Prod.mk.inj heq).2, fun _ _ _ _ _ _ h => by cases h⟩
  · exact ⟨fun heq => h (Prod.mk.inj heq).2, fun _ _ _ _ _ _ _ h => by cases h⟩
  · intro r hr s hs
    obtain ⟨cie, hcie, rfl⟩ := List.mem_map.mp hr
    obtain ⟨fde, hfde, rfl⟩ := List.mem_map.mp hs
    refine ⟨fun heq => ?_, fun _ _ _ _ _ _ h => by cases h⟩
    have hpos : cie.pos ∈ file.cies.map CieRecord.pos :=
      List.mem_map_of_mem (List.mem_of_mem_filter hcie)
    refine hdisjoint hpos ?_
    rw [show cie.pos = fde.pos from (Prod.mk.inj heq).2]
    exact List.mem_map_of_mem (List.mem_of_mem_filter hfde)

theorem pairwise_follows : link.records.Pairwise Follows := by
  have hindex : link.objs.zipIdx.Pairwise fun a b => a.2 ≠ b.2 := by
    rw [← List.pairwise_map (R := (· ≠ ·)), List.zipIdx_map_snd]
    exact List.nodup_range'
  rw [records, List.pairwise_flatMap]
  constructor
  · exact fun a _ => link.pairwise_follows_file a.2 a.1
  · refine hindex.imp fun {a b} hne => ?_
    have hkey (x : ObjectFile σ τ × ℕ) (r : Record σ τ)
        (hr : r ∈ (link.liveCies x.1).map (Record.cie x.2 x.1) ++
          (link.liveFdes x.1).map (Record.fde x.2 x.1)) : r.key.1 = x.2 := by
      rcases List.mem_append.mp hr with hr | hr
      · obtain ⟨c, -, rfl⟩ := List.mem_map.mp hr
        rfl
      · obtain ⟨f, -, rfl⟩ := List.mem_map.mp hr
        rfl
    intro r hr s hs
    have hr' := hkey a r hr
    have hs' := hkey b s hs
    refine ⟨fun heq => hne (hr'.symm.trans ((congrArg Prod.fst heq).trans hs')), ?_⟩
    rintro i file fde j file' cie rfl rfl hij
    exact hne (hr'.symm.trans (hij.trans hs'))

theorem pairwise_layout : link.layout.Pairwise fun x y =>
    Follows x.1 y.1 ∧ x.2 + x.1.size ≤ y.2 := by
  have hfollows : link.layout.Pairwise fun x y => Follows x.1 y.1 := by
    rw [← List.pairwise_map (R := Follows), layout, tile_map_fst]
    exact link.pairwise_follows
  exact hfollows.and (pairwise_tile 0 link.records)

theorem size_pos (r : Record σ τ) : 0 < r.size := Nat.succ_pos _

variable {x : Record σ τ × ℕ}

theorem mem_records_of_mem_layout (h : x ∈ link.layout) : x.1 ∈ link.records := mem_of_mem_tile h

theorem eq_of_offset {x y : Record σ τ × ℕ} (hx : x ∈ link.layout) (hy : y ∈ link.layout)
    (h : x.2 = y.2) : x = y := by
  by_contra hne
  have hsize := size_pos x.1
  have hsize' := size_pos y.1
  rcases rel_or_rel_of_mem link.pairwise_layout hx hy hne with hxy | hxy
  · have hle := hxy.2
    omega
  · have hle := hxy.2
    omega

theorem cie_le_fde {cie : CieRecord τ} {fde : FdeRecord σ τ} {file' : ObjectFile σ τ}
    {cieOff off : ℕ} (hcie : (Record.cie i file cie, cieOff) ∈ link.layout)
    (hfde : (Record.fde i file' fde, off) ∈ link.layout) : cieOff ≤ off := by
  have hne : (Record.cie i file cie, cieOff) ≠ (Record.fde i file' fde, off) := by
    intro h
    cases h
  rcases rel_or_rel_of_mem link.pairwise_layout hcie hfde hne with h | h
  · exact (Nat.le_add_right _ _).trans h.2
  · exact absurd rfl (h.1.order i file' fde i file cie rfl rfl)

/-! ## Copies -/

variable {r : Record σ τ}

theorem length_contents (h : r ∈ link.records) : r.contents.length = r.size := by
  have hinside : r.key.2 + r.size ≤ r.file.data.length := by
    cases r with
    | cie i file cie =>
      exact file.inside_cie (List.mem_of_mem_filter (mem_records_cie.mp h).2)
    | fde i file fde =>
      exact file.inside_fde (List.mem_of_mem_filter (mem_records_fde.mp h).2)
  rw [Record.contents, List.length_take, List.length_drop]
  omega

theorem length_copyTo (place : Placement σ τ) (h : r ∈ link.records) :
    (link.copyTo place r).bytes.length = r.size := by
  rw [← length_contents h]
  cases r with
  | cie i file cie =>
    simp only [copyTo, copyCie]
    split
    case h_1 => rfl
    case h_2 =>
      split
      case h_1 => rfl
      case h_2 => exact Segment.length_write _ _
  | fde i file fde =>
    simp only [copyTo, copyFde]
    split
    case h_1 => simp only [Segment.length_write]
    case h_2 =>
      split
      case isTrue => simp only [Segment.length_write]
      case isFalse => simp only [Segment.length_write]

section Size

variable (hsize : link.hdrSize ≤ 2 ^ 32)
include hsize

theorem outputOffset_of_mem (h : x ∈ link.layout) : link.outputOffset x.1.key = x.2 := by
  have hnodup : (link.layout.map fun x => x.1.key).Nodup := by
    rw [List.Nodup, List.pairwise_map]
    exact link.pairwise_layout.imp fun h => h.1.key
  have hlt : x.2 < 2 ^ 32 := by
    have hend := (bounds_of_mem_tile h).2
    have hpos := size_pos x.1
    rw [← hdrSize] at hend
    omega
  rw [outputOffset, find?_of_nodup_map hnodup h]
  exact Nat.mod_eq_of_lt hlt

theorem stop_copyTo (place : Placement σ τ) (h : x ∈ link.layout) :
    (link.copyTo place x.1).start = x.2 ∧ (link.copyTo place x.1).stop = x.2 + x.1.size := by
  have hstart : (link.copyTo place x.1).start = x.2 := outputOffset_of_mem hsize h
  rw [Segment.stop, hstart, length_copyTo place (mem_records_of_mem_layout h)]
  exact ⟨rfl, rfl⟩

theorem pairwise_disjoint (place : Placement σ τ) :
    (link.records.map (link.copyTo place)).Pairwise Segment.Disjoint := by
  rw [← @tile_map_fst _ Record.size 0 link.records, List.map_map, List.pairwise_map]
  refine link.pairwise_layout.imp_of_mem fun {x y} hx hy hxy => .inl ?_
  rw [Function.comp_apply, Function.comp_apply, (stop_copyTo hsize place hx).2,
    (stop_copyTo hsize place hy).1]
  exact hxy.2

theorem stop_le_hdrSize (place : Placement σ τ) (h : r ∈ link.records) :
    (link.copyTo place r).stop ≤ link.hdrSize := by
  obtain ⟨off, hmem⟩ := @exists_mem_tile _ Record.size _ _ h 0
  rw [(stop_copyTo hsize place hmem).2]
  exact (bounds_of_mem_tile hmem).2

theorem readAt_copyBuf (place : Placement σ τ) (h : x ∈ link.layout)
    {n k : ℕ} (hk : k + n ≤ x.1.size) :
    readAt n (link.copyBuf place) (x.2 + k) = readAt n (link.copyTo place x.1).bytes k := by
  have hmem := mem_records_of_mem_layout h
  have hprefix := @Segment.prefix_drop_foldl_write _ _ (List.replicate link.hdrSize 0)
    (pairwise_disjoint hsize place) (fun s hs => ?_) _
    (List.mem_map_of_mem (f := link.copyTo place) hmem)
  · rw [(stop_copyTo hsize place h).1] at hprefix
    refine readAt_of_prefix_drop hprefix ?_
    rwa [length_copyTo place hmem]
  · obtain ⟨r, hr, rfl⟩ := List.mem_map.mp hs
    rw [List.length_replicate]
    exact stop_le_hdrSize hsize place hr

end Size

/-! ## Words of a record -/

theorem readAt_contents {n k : ℕ} (h : k + n ≤ r.size) :
    readAt n r.contents k = readAt n r.file.data (r.key.2 + k) := by
  rw [readAt, readAt, Record.contents, List.drop_take, List.take_take, List.drop_drop,
    Nat.min_eq_left (by omega)]

theorem takeWhile_take_of_lt {α : Type*} {p : α → Bool} {l : List α} {m : ℕ}
    (h : (l.takeWhile p).length < m) : (l.take m).takeWhile p = l.takeWhile p := by
  induction l generalizing m with
  | nil => rw [List.take_nil]
  | cons x l ih =>
    cases m with
    | zero => exact absurd h (Nat.not_lt_zero _)
    | succ m =>
      rw [List.take_succ_cons, List.takeWhile_cons, List.takeWhile_cons]
      rw [List.takeWhile_cons] at h
      split
      case isTrue hx =>
        rw [if_pos hx, List.length_cons] at h
        rw [ih (Nat.lt_of_succ_lt_succ h)]
      case isFalse => rfl

theorem lsdaField_contents (h : InputSection.lsdaField r.file.data r.key.2 ≤ r.size) :
    InputSection.lsdaField r.contents 0 = InputSection.lsdaField r.file.data r.key.2 := by
  rw [InputSection.lsdaField, ulebLength] at h
  rw [InputSection.lsdaField, InputSection.lsdaField, ulebLength, ulebLength, Record.contents,
    Nat.zero_add, List.drop_take, List.drop_drop, takeWhile_take_of_lt (by omega)]

def headFde (link : Link σ τ) (place : Placement σ τ) (i : ℕ) (fde : FdeRecord σ τ)
    (contents : List Byte) : List Byte :=
  let offset : ℤ := link.outputOffset (i, fde.pos)
  Segment.write
    (Segment.write contents
      ⟨4, le 4 ((offset + 4 - link.outputOffset (i, fde.cie.pos)) % 2 ^ 32).toNat⟩)
    ⟨8, le 8 ((Int.bmod (place.addr fde.subsec - (place.hdrAddr + offset) - 8) (2 ^ 32) %
      2 ^ 64).toNat)⟩

section Head

variable (place : Placement σ τ) (fde : FdeRecord σ τ) (contents : List Byte)

theorem length_headFde : (link.headFde place i fde contents).length = contents.length := by
  simp only [headFde, Segment.length_write]

theorem readAt_headFde_cie (h : 16 ≤ contents.length) :
    readAt 4 (link.headFde place i fde contents) 4 =
      (((link.outputOffset (i, fde.pos) : ℤ) + 4 - link.outputOffset (i, fde.cie.pos)) %
        2 ^ 32).toNat := by
  simp only [headFde]
  rw [readAt_write_of_disjoint (.inl (Nat.le_refl 8)), readAt_write_le (by omega)]
  omega

theorem readAt_headFde_function (h : 16 ≤ contents.length) :
    readAt 8 (link.headFde place i fde contents) 8 =
      (Int.bmod (place.addr fde.subsec -
        (place.hdrAddr + link.outputOffset (i, fde.pos)) - 8) (2 ^ 32) % 2 ^ 64).toNat := by
  simp only [headFde]
  rw [readAt_write_le (by rwa [Segment.length_write])]
  omega

theorem readAt_headFde_of_le {n k : ℕ} (hk : 16 ≤ k) :
    readAt n (link.headFde place i fde contents) k = readAt n contents k := by
  simp only [headFde]
  rw [readAt_write_of_disjoint (.inr ?_), readAt_write_of_disjoint (.inr ?_)]
  · rw [stop_le_word]
    exact (by decide : 4 + 4 ≤ 16).trans hk
  · rwa [stop_le_word]

theorem lsdaField_headFde :
    InputSection.lsdaField (link.headFde place i fde contents) 0 =
      InputSection.lsdaField contents 0 := by
  simp only [InputSection.lsdaField, ulebLength, headFde]
  rw [drop_write_of_stop_le (by rw [stop_le_word]; decide),
    drop_write_of_stop_le (by rw [stop_le_word]; decide)]

theorem readAt_copyFde_of_le (file : ObjectFile σ τ) {n k : ℕ} (hk : k + n ≤ 24) :
    readAt n (link.copyFde place file i fde contents) k =
      readAt n (link.headFde place i fde contents) k := by
  rw [copyFde]
  cases fde.lsda with
  | none => rfl
  | some lsda =>
    have hfield (buf : List Byte) : 24 ≤ InputSection.lsdaField buf 0 := Nat.le_add_right _ _
    dsimp only
    split
    case isTrue => exact readAt_write_of_disjoint (.inl (hk.trans (hfield _)))
    case isFalse => exact readAt_write_of_disjoint (.inl (hk.trans (hfield _)))

theorem copyFde_of_lsda {file : ObjectFile σ τ} {lsda : σ} {field addr : ℕ}
    (hlsda : fde.lsda = some lsda)
    (hfield : InputSection.lsdaField (link.headFde place i fde contents) 0 = field)
    (haddr : (readAt 4 (link.headFde place i fde contents) field +
      file.sec.recordAddr fde.pos) % 2 ^ 32 + field = addr) :
    link.copyFde place file i fde contents =
      if fde.cie.lsdaSize = 4 then
        Segment.write (link.headFde place i fde contents) ⟨field, le 4 (((place.addr lsda : ℤ) -
          (place.hdrAddr + link.outputOffset (i, fde.pos)) - field + addr -
            (file.sec.inputAddr lsda).toNat) % 2 ^ 32).toNat⟩
      else
        Segment.write (link.headFde place i fde contents) ⟨field, le 8 (((place.addr lsda : ℤ) -
          (place.hdrAddr + link.outputOffset (i, fde.pos)) - field + addr -
            (file.sec.inputAddr lsda).toNat) % 2 ^ 64).toNat⟩ := by
  subst hfield haddr
  rw [copyFde, hlsda]
  rfl

end Head

theorem fde_mem {fde : FdeRecord σ τ} {off : ℕ}
    (h : (Record.fde i file fde, off) ∈ link.layout) : fde ∈ file.fdes :=
  List.mem_of_mem_filter (mem_records_fde.mp (mem_records_of_mem_layout h)).2

section Words

variable {fde : FdeRecord σ τ} {off : ℕ} (hsize : link.hdrSize ≤ 2 ^ 32)
  (h : (Record.fde i file fde, off) ∈ link.layout) (place : Placement σ τ)
include hsize h

theorem off_add_le : off + sizeAt file.data fde.pos ≤ 2 ^ 32 :=
  (bounds_of_mem_tile h).2.trans hsize

theorem outputOffset_fde : link.outputOffset (i, fde.pos) = off := outputOffset_of_mem hsize h

theorem exists_cie : ∃ cieOff, (Record.cie i file fde.cie, cieOff) ∈ link.layout ∧
    link.outputOffset (i, fde.cie.pos) = cieOff ∧ cieOff ≤ off := by
  obtain ⟨hi, hlive⟩ := mem_records_fde.mp (mem_records_of_mem_layout h)
  have hcie : fde.cie ∈ link.liveCies file := by
    refine List.mem_filter.mpr ⟨file.cie_mem (fde_mem h), ?_⟩
    exact List.any_eq_true.mpr ⟨fde, hlive, decide_eq_true rfl⟩
  obtain ⟨cieOff, hmem⟩ := @exists_mem_tile _ Record.size _ _ (mem_records_cie.mpr ⟨hi, hcie⟩) 0
  exact ⟨cieOff, hmem, outputOffset_of_mem hsize hmem, cie_le_fde hmem h⟩

theorem readAt_cie : readAt 4 (link.copyBuf place) (off + 4) =
    (((off : ℤ) + 4 - link.outputOffset (i, fde.cie.pos)) % 2 ^ 32).toNat := by
  have hinside := (file.inside fde (fde_mem h)).1
  have hlen := length_contents (mem_records_of_mem_layout h)
  rw [readAt_copyBuf hsize place h (hinside.trans' (by decide)), copyTo]
  dsimp only
  rw [readAt_copyFde_of_le _ _ _ _ (by decide), readAt_headFde_cie _ _ _ (hlen ▸ hinside),
    outputOffset_fde hsize h]

theorem readAt_function : readAt 8 (link.copyBuf place) (off + 8) =
    (Int.bmod (place.addr fde.subsec - (place.hdrAddr + off) - 8) (2 ^ 32) % 2 ^ 64).toNat := by
  have hinside := (file.inside fde (fde_mem h)).1
  have hlen := length_contents (mem_records_of_mem_layout h)
  rw [readAt_copyBuf hsize place h hinside, copyTo]
  dsimp only
  rw [readAt_copyFde_of_le _ _ _ _ (by decide), readAt_headFde_function _ _ _ (hlen ▸ hinside),
    outputOffset_fde hsize h]

theorem readAt_lsda {lsda : σ} {n : ℕ} (hn : fde.cie.lsdaSize = n) (hne : n ≠ 0)
    (hlsda : fde.lsda = some lsda) :
    readAt n (link.copyBuf place) (off + InputSection.lsdaField file.data fde.pos) =
      (((place.addr lsda : ℤ) - (place.hdrAddr + off) -
        InputSection.lsdaField file.data fde.pos + file.sec.lsdaAddr file.data fde.pos -
          (file.sec.inputAddr lsda).toNat) % 2 ^ (8 * n)).toNat := by
  have hinside : InputSection.lsdaField file.data fde.pos + n ≤ sizeAt file.data fde.pos := by
    rw [← hn]
    exact (file.inside fde (fde_mem h)).2 (hn ▸ hne)
  have hlen := length_contents (mem_records_of_mem_layout h)
  have hcontents := lsdaField_contents (r := .fde i file fde)
    ((Nat.le_add_right _ n).trans hinside)
  set contents := (Record.fde i file fde).contents
  have hfield : InputSection.lsdaField (link.headFde place i fde contents) 0 =
      InputSection.lsdaField file.data fde.pos := (lsdaField_headFde _ _ _).trans hcontents
  have hle : 24 ≤ InputSection.lsdaField file.data fde.pos := Nat.le_add_right _ _
  have hsizes := file.lsdaSize_cases (file.cie_mem (fde_mem h))
  have hword : readAt 4 (link.headFde place i fde contents)
      (InputSection.lsdaField file.data fde.pos) =
        readAt 4 file.data (fde.pos + InputSection.lsdaField file.data fde.pos) := by
    rw [readAt_headFde_of_le _ _ _ (hle.trans' (by decide))]
    refine readAt_contents (r := .fde i file fde) (hinside.trans' (Nat.add_le_add_left ?_ _))
    omega
  have haddr : (readAt 4 (link.headFde place i fde contents)
      (InputSection.lsdaField file.data fde.pos) + file.sec.recordAddr fde.pos) % 2 ^ 32 +
        InputSection.lsdaField file.data fde.pos = file.sec.lsdaAddr file.data fde.pos := by
    rw [hword]
    rfl
  have hcopy := copyFde_of_lsda place fde contents hlsda hfield haddr
  have hroom : InputSection.lsdaField file.data fde.pos + n ≤
      (link.headFde place i fde contents).length := by
    rw [length_headFde, hlen]
    exact hinside
  refine (readAt_copyBuf hsize place h hinside).trans ?_
  change readAt n (link.copyFde place file i fde contents) _ = _
  rw [hcopy, outputOffset_fde hsize h]
  split
  case isTrue hfour =>
    obtain rfl : n = 4 := hn.symm.trans hfour
    rw [readAt_write_le hroom]
    omega
  case isFalse hfour =>
    obtain rfl : n = 8 := by omega
    rw [readAt_write_le hroom]
    omega

end Words

/-! ## Pointers -/

theorem pointsTo_iff {place : Placement σ τ} {n N off : ℕ} {addr x : ℤ} (hN : N ∣ 2 ^ 64)
    (hread : Int.bmod (readAt n (link.copyBuf place) off) (2 ^ (8 * n)) ≡ Int.bmod x N
      [ZMOD 2 ^ 64]) :
    link.PointsTo place n N off addr ↔
      (Fits N (addr - ((place.hdrAddr : ℤ) + off)) →
        x ≡ addr - ((place.hdrAddr : ℤ) + off) [ZMOD N]) := by
  refine imp_congr_right fun hfits => ?_
  rw [← bmod_modEq_iff hN hfits]
  constructor
  · intro h
    have hsub := h.sub_right ((place.hdrAddr : ℤ) + off)
    rw [add_sub_cancel_left] at hsub
    exact hread.symm.trans hsub
  · intro h
    have hadd := (hread.trans h).add_left ((place.hdrAddr : ℤ) + off)
    rwa [add_sub_cancel] at hadd

theorem forall_pointsTo_iff {n N off : ℕ} {s s' : σ} {a : ℤ} {addr : ℕ} (hN : N ∣ 2 ^ 64)
    (hone : 1 < N) (hread : ∀ place : Placement σ τ,
      Int.bmod (readAt n (link.copyBuf place) off) (2 ^ (8 * n)) ≡
        Int.bmod (place.addr s + (a - (place.hdrAddr + off))) N [ZMOD 2 ^ 64]) :
    (∀ place, link.PointsTo place n N off (file.outputOf place s' addr)) ↔
      s = s' ∧ a ≡ (addr : ℤ) - (file.sec.inputAddr s').toNat [ZMOD N] := by
  have hpoints (place : Placement σ τ) :
      link.PointsTo place n N off (file.outputOf place s' addr) ↔
        (Fits N (place.addr s' + ((addr : ℤ) - (file.sec.inputAddr s').toNat -
          (place.hdrAddr + off))) →
          place.addr s + (a - (place.hdrAddr + off)) ≡
            place.addr s' + ((addr : ℤ) - (file.sec.inputAddr s').toNat -
              (place.hdrAddr + off)) [ZMOD N]) := by
    rw [pointsTo_iff hN (hread place), ObjectFile.outputOf, add_sub_assoc]
  have hzero (d : ℤ) : d ≡ 0 [ZMOD 2 ^ 64] → Fits N d :=
    fits_of_modEq_zero (Nat.zero_lt_of_lt hone)
  have hcancel (p : ℤ) : a - p ≡ (addr : ℤ) - (file.sec.inputAddr s').toNat - p [ZMOD N] ↔
      a ≡ (addr : ℤ) - (file.sec.inputAddr s').toNat [ZMOD N] := by
    rw [Int.modEq_iff_dvd, Int.modEq_iff_dvd, sub_sub_sub_cancel_right]
  simp only [hpoints]
  constructor
  · intro h
    have hiff := (forall_addr_iff hN hone hzero (s := s) (t := s') (a := a - ((0 : ℕ) + off))
      (b := (addr : ℤ) - (file.sec.inputAddr s').toNat - ((0 : ℕ) + off))).mp
      fun place => h ⟨0, place, fun _ => none⟩
    rwa [hcancel] at hiff
  · intro h place
    refine (forall_addr_iff hN hone hzero).mpr ?_ place.addr
    rwa [hcancel]

section Resolve

variable {fde : FdeRecord σ τ} {off : ℕ} (hsize : link.hdrSize ≤ 2 ^ 32)
  (h : (Record.fde i file fde, off) ∈ link.layout)
include hsize h

theorem function_iff {subsec : σ} {addr : ℕ} :
    (∀ place, link.PointsTo place 8 (2 ^ 32) (off + 8) (file.outputOf place subsec addr)) ↔
      fde.subsec = subsec ∧ addr % 2 ^ 32 = (file.sec.inputAddr subsec).toNat := by
  have hread (place : Placement σ τ) :
      Int.bmod (readAt 8 (link.copyBuf place) (off + 8)) (2 ^ (8 * 8)) ≡
        Int.bmod (place.addr fde.subsec + (0 - (place.hdrAddr + (off + 8 : ℕ)))) (2 ^ 32)
          [ZMOD 2 ^ 64] := by
    have hx : (place.addr fde.subsec : ℤ) - (place.hdrAddr + off) - 8 =
        place.addr fde.subsec + (0 - (place.hdrAddr + (off + 8 : ℕ))) := by
      push_cast
      ring
    rw [readAt_function hsize h, hx, bmod_toNat_emod]
    exact bmod_modEq_self _ (2 ^ 64)
  rw [forall_pointsTo_iff (by decide) (by decide) hread, Int.modEq_iff_dvd]
  have hlt := (file.sec.inputAddr subsec).toNat_lt
  refine and_congr_right fun _ => ?_
  omega

theorem lsda_iff {lsda lsda' : σ} {n addr : ℕ} (hn : fde.cie.lsdaSize = n) (hne : n ≠ 0)
    (hlsda : fde.lsda = some lsda) :
    (∀ place, link.PointsTo place n (2 ^ (8 * n))
      (off + InputSection.lsdaField file.data fde.pos) (file.outputOf place lsda' addr)) ↔
      lsda = lsda' ∧ (file.sec.lsdaAddr file.data fde.pos : ℤ) ≡ addr [ZMOD 2 ^ (8 * n)] := by
  have hsizes := file.lsdaSize_cases (file.cie_mem (fde_mem h))
  have hread (place : Placement σ τ) :
      Int.bmod (readAt n (link.copyBuf place)
        (off + InputSection.lsdaField file.data fde.pos)) (2 ^ (8 * n)) ≡
        Int.bmod (place.addr lsda + ((file.sec.lsdaAddr file.data fde.pos : ℤ) -
          (file.sec.inputAddr lsda).toNat -
            (place.hdrAddr + (off + InputSection.lsdaField file.data fde.pos : ℕ))))
          (2 ^ (8 * n)) [ZMOD 2 ^ 64] := by
    have hx : (place.addr lsda : ℤ) - (place.hdrAddr + off) -
        InputSection.lsdaField file.data fde.pos + file.sec.lsdaAddr file.data fde.pos -
          (file.sec.inputAddr lsda).toNat =
        place.addr lsda + ((file.sec.lsdaAddr file.data fde.pos : ℤ) -
          (file.sec.inputAddr lsda).toNat -
            (place.hdrAddr + (off + InputSection.lsdaField file.data fde.pos : ℕ))) := by
      push_cast
      ring
    rw [readAt_lsda hsize h place hn hne hlsda, bmod_toNat_emod, hx]
  have hdvd : 2 ^ (8 * n) ∣ 2 ^ 64 := by
    have hcases : n = 4 ∨ n = 8 := by omega
    rcases hcases with rfl | rfl
    · decide
    · decide
  have hone : 1 < 2 ^ (8 * n) := Nat.one_lt_two_pow (by omega)
  rw [forall_pointsTo_iff hdvd hone hread]
  refine and_congr_right fun heq => ?_
  rw [heq, Int.modEq_iff_dvd, Int.modEq_iff_dvd, sub_sub_sub_cancel_right]
  push_cast
  rfl

theorem cie_iff :
    (∀ place, ∃ cie cieOff, (Record.cie i file cie, cieOff) ∈ link.layout ∧
      (file.sec.recordAddr cie.pos : ℤ) = file.cieTarget fde.pos ∧
      ((off + 4 : ℕ) : ℤ) - readAt 4 (link.copyBuf place) (off + 4) = cieOff) ↔
      readAt 4 file.data (fde.pos + 4) = readAt 4 file.meant (fde.pos + 4) := by
  obtain ⟨cieOff, hmem, hoff, hle⟩ := exists_cie hsize h
  have hlt := off_add_le hsize h
  have hinside : 16 ≤ sizeAt file.data fde.pos := (file.inside fde (fde_mem h)).1
  have hread (place : Placement σ τ) :
      ((off + 4 : ℕ) : ℤ) - readAt 4 (link.copyBuf place) (off + 4) = cieOff := by
    rw [readAt_cie hsize h, hoff]
    omega
  have hcie : (file.sec.recordAddr fde.cie.pos : ℤ) =
      ((file.sec.recordAddr fde.pos : ℤ) + 4 - readAt 4 file.data (fde.pos + 4)) % 2 ^ 32 := by
    have hfound := (file.fdeParsed (fde_mem h)).cie
    rw [InputSection.findCie] at hfound
    have heq := List.find?_some hfound
    exact beq_iff_eq.mp heq
  constructor
  · intro hplace
    obtain ⟨cie, cieOff', hmem', htarget, hdist⟩ := hplace ⟨0, fun _ => 0, fun _ => none⟩
    have hsame : cieOff = cieOff' := by
      have hd := hread ⟨0, fun _ => 0, fun _ => none⟩
      omega
    obtain ⟨hrecord, -⟩ := Prod.mk.inj (eq_of_offset hmem hmem' hsame)
    obtain ⟨-, -, rfl⟩ := Record.cie.inj hrecord
    rw [hcie, ObjectFile.cieTarget] at htarget
    have hdata := readAt_lt 4 file.data (fde.pos + 4)
    have hmeant := readAt_lt 4 file.meant (fde.pos + 4)
    omega
  · intro heq place
    refine ⟨fde.cie, cieOff, hmem, ?_, hread place⟩
    rw [hcie, ObjectFile.cieTarget, heq]

theorem fdeResolves_iff : link.FdeResolves i file fde off ↔ FdeSafe file fde := by
  have hparsed := file.fdeParsed (fde_mem h)
  constructor
  · intro hresolves
    refine ⟨(cie_iff hsize h).mp hresolves.cie, ?_, fun n hn hne => ?_⟩
    · obtain ⟨subsec, hfind, hpoints⟩ := hresolves.function
      obtain ⟨rfl, haddr⟩ := (function_iff hsize h).mp hpoints
      exact ⟨_, hparsed.subsec, hfind, haddr⟩
    · obtain ⟨lsda, hlsda, hread⟩ := hparsed.lsda (hn ▸ hne)
      obtain ⟨lsda', hfind, hpoints⟩ := hresolves.lsda n hn hne
      obtain ⟨rfl, haddr⟩ := (lsda_iff hsize h hn hne hlsda).mp hpoints
      exact ⟨_, hread, hfind, haddr⟩
  · intro hsafe
    refine ⟨(cie_iff hsize h).mpr hsafe.cie, ?_, fun n hn hne => ?_⟩
    · obtain ⟨subsec, hread, hfind, haddr⟩ := hsafe.function
      refine ⟨subsec, hfind, (function_iff hsize h).mpr ⟨?_, haddr⟩⟩
      exact Option.some.inj (hparsed.subsec.symm.trans hread)
    · obtain ⟨lsda, hlsda, hread⟩ := hparsed.lsda (hn ▸ hne)
      obtain ⟨lsda', hread', hfind, haddr⟩ := hsafe.lsda n hn hne
      refine ⟨lsda', hfind, (lsda_iff hsize h hn hne hlsda).mpr ⟨?_, haddr⟩⟩
      exact Option.some.inj (hread.symm.trans hread')

end Resolve

end Link

/-- A CIE and an FDE behind 16 bytes of code, in which the function begins at `start`. -/
def oneFunction (start : ℕ) : InputSection Unit Unit where
  target := .x86_64
  addr := 16
  contents := le 4 8 ++ le 4 0 ++ le 4 1 ++
    (le 4 20 ++ le 4 16 ++ le 8 (2 ^ 64 - 36 + start) ++ le 8 4)
  rels := []
  symValue _ := 0
  syms _ := ()
  subsections := [()]
  subsectionLookup := []
  inputAddr _ := 0
  hasCompactUnwind _ := false
  fits := by simp

def oneFde (start : ℕ)
    (h : (oneFunction start).parseEhFrame [] =
      some ([⟨0, 0, none⟩], [⟨12, (), ⟨0, 0, none⟩, none⟩]))
    (hsize : 16 ≤ sizeAt (oneFunction start).contents 12) : Link Unit Unit where
  objs := [{
    sec := oneFunction start
    pairs := []
    cies := [⟨0, 0, none⟩]
    parsedFdes := [⟨12, (), ⟨0, 0, none⟩, none⟩]
    fdes := [⟨12, (), ⟨0, 0, none⟩, none⟩]
    pairs_eq := rfl
    parsed := h
    perm := List.Perm.refl _
    sorted := List.pairwise_singleton _ _
    inside := fun fde hfde => by
      obtain rfl := List.mem_singleton.mp hfde
      exact ⟨hsize, fun hne => absurd rfl hne⟩ }]
  isAlive _ := true

end Mold.MachO.EhFrameRecords
