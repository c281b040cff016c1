import Mold.MachO.Layout
import Mold.MachO.UnwindInfo

/-!
# The addresses that unwind records are sorted by

`UnwindInfoSection::compute_size` runs while addresses are being assigned.  The
chunks in front of `__unwind_info` have their addresses then, and their
subsections have their offsets; the other chunks still have the address zero, and
their subsections the initial offset.

`compare_segments` and `compare_chunks` decide what is in front.
-/

namespace Mold.MachO.UnwindInfo

open Mold.Lib Mold.MachO.EhFrame

variable {σ τ : Type*}

/-! ## The order of chunks -/

/-- A chunk with the name of its section.  An output section has subsections,
here with the `output_offset` that its `compute_size` gives them. -/
structure OutputChunk (σ : Type*) where
  sectname : String
  header : Layout.Chunk
  members : Option (List (σ × ℕ)) := none

/-- The table `rank` of `compare_chunks`. -/
def chunkRanks : List String :=
  ["__mach_header", "__stubs", "__text", "__stub_helper", "__gcc_except_tab",
   "__cstring", "__eh_frame", "__unwind_info",
   "__got", "__const",
   "__mod_init_func", "__la_symbol_ptr", "__thread_ptrs", "__data",
   "__objc_imageinfo", "__thread_vars", "__thread_ptr", "__thread_data",
   "__thread_bss", "__common", "__bss",
   "__rebase", "__binding", "__weak_binding", "__lazy_binding", "__chainfixups",
   "__export", "__func_starts", "__data_in_code", "__symbol_table",
   "__ind_sym_tab", "__string_table", "__code_signature"]

/-- `get_rank` of `compare_chunks` -/
def chunkRank (sectname : String) : ℕ := chunkRanks.idxOf sectname

/-- `get_rank` of `compare_segments` -/
def segmentRank (segname : String) : ℕ :=
  if segname = "__TEXT" then 0
  else if segname = "__DATA_CONST" then 1
  else if segname = "__DATA" then 2
  else if segname = "__LINKEDIT" then 4
  else 3

def lessRanked (rank : String → ℕ) (x y : String) : Bool :=
  decide (rank x < rank y) || (rank x == rank y && decide (x < y))

/-- `compare_segments` for the names of two segments. -/
def compareSegments (x y : String) : Bool := lessRanked segmentRank x y

def compareChunks (a b : OutputChunk σ) : Bool :=
  if a.header.isBss != b.header.isBss then !a.header.isBss
  else lessRanked chunkRank a.sectname b.sectname

/-- A segment with its chunks, sorted by `compare_chunks`. -/
structure OutputSegment (σ : Type*) where
  segname : String
  chunks : List (OutputChunk σ)
  sorted : chunks.Pairwise fun a b => compareChunks b a = false

def chunksOf (segments : List (OutputSegment σ)) : List (String × OutputChunk σ) :=
  segments.flatMap fun seg => seg.chunks.map fun chunk => (seg.segname, chunk)

/-- A link before addresses are assigned.  The chunks are numbered; `osec` is the
number of the output section of a subsection, and `unwindIndex` the number of
`__unwind_info`, whose name is reserved. -/
structure Link (σ τ : Type*) where
  pageBits : ℕ
  pagezeroSize : ℕ
  segments : List (OutputSegment σ)
  sorted : segments.Pairwise fun a b =>
    compareSegments b.segname a.segname = false ∧ a.segname ≠ b.segname
  osec : σ → ℕ
  mem_osec : ∀ (k : ℕ) seg chunk members,
    (chunksOf segments)[k]? = some (seg, chunk) → chunk.members = some members →
      ∀ x ∈ members, osec x.1 = k
  unwindIndex : ℕ
  unwindHeader : Layout.Chunk
  unwindHeader_regular : unwindHeader.isBss = false
  unwind : (chunksOf segments)[unwindIndex]? =
    some ("__TEXT", { sectname := "__unwind_info", header := unwindHeader })
  reserved : ∀ x ∈ chunksOf segments, x.1 = "__TEXT" → x.2.members.isSome = true →
    x.2.sectname ≠ "__unwind_info"
  unwindRecords : σ → List (EhFrame.UnwindRecord σ τ)
  unwindRecords_subsec : ∀ s, ∀ rec ∈ unwindRecords s, rec.subsec = s

theorem OutputSegment.bss_last (seg : OutputSegment σ) :
    (seg.chunks.map OutputChunk.header).Pairwise fun a b =>
      a.isBss = true → b.isBss = true := by
  rw [List.pairwise_map]
  refine seg.sorted.imp fun {a b} h hbss => ?_
  cases hb : b.header.isBss with
  | true => rfl
  | false =>
    rw [compareChunks, hbss, hb] at h
    exact absurd h (by simp)

def OutputSegment.toLayout (seg : OutputSegment σ) : Layout.Segment where
  isLinkedit := seg.segname == "__LINKEDIT"
  chunks := seg.chunks.map OutputChunk.header
  bss_last := seg.bss_last

namespace Link

variable (link : Link σ τ)

def chunks : List (String × OutputChunk σ) := chunksOf link.segments

def placed : List Layout.Placed :=
  (Layout.assignSegments (2 ^ link.pageBits) 0 link.pagezeroSize
    (link.segments.map OutputSegment.toLayout)).flatMap Layout.SegmentLayout.chunks

/-! ## Assigning addresses -/

/-- The addresses of the chunks and the `output_offset` of the subsections. -/
structure State (σ : Type*) where
  addr : ℕ → ℕ
  outputOffset : σ → ℕ

/-- `Subsection::get_addr` -/
def getAddr (st : State σ) (s : σ) : ℕ := st.addr (link.osec s) + st.outputOffset s

def initial : State σ where
  addr _ := 0
  outputOffset _ := 2 ^ 32 - 1

/-- Assign an address to a chunk and run its `compute_size`. -/
def setOffset [DecidableEq σ] (st : State σ) (k : ℕ) : State σ where
  addr := Function.update st.addr k ((link.placed[k]?.map Layout.Placed.addr).getD 0)
  outputOffset s :=
    match (link.chunks[k]?.bind fun x => x.2.members).bind (List.lookup s) with
    | some offset => offset
    | none => st.outputOffset s

/-- The state behind the first `k` chunks. -/
def stateAt [DecidableEq σ] : ℕ → State σ
  | 0 => initial
  | k + 1 => link.setOffset (stateAt k) k

/-- The address of a subsection when `compute_size` of `__unwind_info` runs. -/
def earlyAddr [DecidableEq σ] (s : σ) : ℕ :=
  link.getAddr (link.stateAt link.unwindIndex) s

/-- The address of a subsection when `copy_buf` runs. -/
def finalAddr [DecidableEq σ] (s : σ) : ℕ :=
  link.getAddr (link.stateAt link.chunks.length) s

/-- The unwind records that `compute_size` collects. -/
def records : List (EhFrame.UnwindRecord σ τ) :=
  link.chunks.flatMap fun x =>
    (x.2.members.getD []).flatMap fun member => link.unwindRecords member.1

/-- The field `func_addr` of an entry of a second-level page.  The first-level
entry of the page has 32 bits, and the field has 24. -/
def entryFuncAddr (pageFuncAddr funcAddr : ℕ) : ℕ :=
  (funcAddr + 2 ^ 64 - pageFuncAddr % 2 ^ 32) % 2 ^ 24

/-- The tables are built from final addresses: the groups that `compute_size`
makes fit to the addresses that `encode_unwind_info` finds. -/
structure BuiltFromFinal [DecidableEq σ] [DecidableEq τ] (target : Target) : Prop where
  addresses : ∀ rec ∈ link.records, getFuncAddr link.earlyAddr rec = getFuncAddr link.finalAddr rec
  first_level : (pages target link.earlyAddr link.records).Pairwise fun p q =>
    ∀ a ∈ p.head?, ∀ b ∈ q.head?, getFuncAddr link.finalAddr a ≤ getFuncAddr link.finalAddr b
  entries : ∀ page ∈ pages target link.earlyAddr link.records,
    page.Pairwise fun a b =>
      getFuncAddr link.finalAddr a ≤ getFuncAddr link.finalAddr b
  offsets : ∀ page ∈ pages target link.earlyAddr link.records,
    ∀ first ∈ page.head?, ∀ rec ∈ page,
      (entryFuncAddr (getFuncAddr link.finalAddr first) (getFuncAddr link.finalAddr rec) : ℤ) =
        getFuncAddr link.finalAddr rec - getFuncAddr link.finalAddr first

/-- A section that is in front of `__unwind_info`. -/
def InFront (x : String × OutputChunk σ) : Prop :=
  x.1 = "__TEXT" ∧ x.2.header.isBss = false ∧
    chunkRank x.2.sectname < chunkRank "__unwind_info"

/-- Every section that has unwind records is in front of `__unwind_info`, unless
the subsection with the record gets the very address that a subsection seems to
have before addresses are assigned. -/
def RecordsInFront [DecidableEq σ] : Prop :=
  ∀ x ∈ link.chunks, ∀ members, x.2.members = some members → ∀ member ∈ members,
    link.unwindRecords member.1 ≠ [] → InFront x ∨ link.finalAddr member.1 = 2 ^ 32 - 1

end Link

/-! ## What is in front of `__unwind_info` -/

theorem compareSegments_text {x : String} (h : x ≠ "__TEXT") :
    compareSegments "__TEXT" x = true := by
  have hrank : segmentRank "__TEXT" < segmentRank x := by
    rw [segmentRank, segmentRank, if_pos rfl, if_neg h]
    split
    · decide
    · split
      · decide
      · split <;> decide
  rw [compareSegments, lessRanked, decide_eq_true hrank, Bool.true_or]

theorem chunkRank_ne {x : String} (h : x ≠ "__unwind_info") :
    chunkRank x ≠ chunkRank "__unwind_info" := by
  intro heq
  have hrank : chunkRank "__unwind_info" = 7 := by decide
  have hlt : chunkRank x < chunkRanks.length := by
    rw [heq, hrank]
    decide
  have hget : chunkRanks[chunkRank x] = x := List.getElem_idxOf hlt
  simp only [heq, hrank] at hget
  exact h hget.symm

def Before (a b : String × OutputChunk σ) : Prop :=
  (a.1 = b.1 ∧ compareChunks b.2 a.2 = false) ∨ (a.1 ≠ b.1 ∧ compareSegments b.1 a.1 = false)

theorem pairwise_chunksOf {segments : List (OutputSegment σ)}
    (h : segments.Pairwise fun a b =>
      compareSegments b.segname a.segname = false ∧ a.segname ≠ b.segname) :
    (chunksOf segments).Pairwise Before := by
  rw [chunksOf, List.pairwise_flatMap]
  constructor
  · intro seg _
    rw [List.pairwise_map]
    exact seg.sorted.imp fun hab => Or.inl ⟨rfl, hab⟩
  · refine h.imp fun {a b} hab x hx y hy => ?_
    obtain ⟨_, _, rfl⟩ := List.mem_map.mp hx
    obtain ⟨_, _, rfl⟩ := List.mem_map.mp hy
    exact Or.inr ⟨hab.2, hab.1⟩

namespace Link

variable {link : Link σ τ}

theorem getElem?_unwindIndex : link.chunks[link.unwindIndex]? =
    some ("__TEXT", { sectname := "__unwind_info", header := link.unwindHeader }) :=
  link.unwind

theorem before_of_lt {i j : ℕ} {a b : String × OutputChunk σ}
    (hi : link.chunks[i]? = some a) (hj : link.chunks[j]? = some b) (hij : i < j) :
    Before a b := by
  obtain ⟨hilt, rfl⟩ := List.getElem?_eq_some_iff.mp hi
  obtain ⟨hjlt, rfl⟩ := List.getElem?_eq_some_iff.mp hj
  exact List.pairwise_iff_getElem.mp (pairwise_chunksOf link.sorted) i j hilt hjlt hij

theorem lt_unwindIndex_iff {k : ℕ} {x : String × OutputChunk σ}
    (hk : link.chunks[k]? = some x) (hx : x.2.members.isSome = true) :
    k < link.unwindIndex ↔ InFront x := by
  have hreserved := link.reserved x (List.mem_of_getElem? hk)
  constructor
  · intro hfront
    rcases before_of_lt hk getElem?_unwindIndex hfront with ⟨htext, hcmp⟩ | ⟨htext, hcmp⟩
    · rw [compareChunks, link.unwindHeader_regular] at hcmp
      cases hbss : x.2.header.isBss with
      | true => simp [hbss] at hcmp
      | false =>
        refine ⟨htext, hbss, ?_⟩
        have hne := chunkRank_ne (hreserved htext hx)
        simp only [hbss, bne_self_eq_false, Bool.false_eq_true, if_false, lessRanked,
          Bool.or_eq_false_iff, decide_eq_false_iff_not] at hcmp
        exact Nat.lt_of_le_of_ne (Nat.le_of_not_lt hcmp.1) hne
    · rw [compareSegments_text htext] at hcmp
      exact absurd hcmp (by decide)
  · rintro ⟨htext, hbss, hrank⟩
    rcases Nat.lt_trichotomy k link.unwindIndex with hlt | rfl | hlt
    · exact hlt
    · rw [getElem?_unwindIndex, Option.some_inj] at hk
      simp [← hk] at hx
    · rcases before_of_lt getElem?_unwindIndex hk hlt with ⟨-, hcmp⟩ | ⟨hne, -⟩
      · rw [compareChunks, link.unwindHeader_regular, hbss] at hcmp
        simp [lessRanked, hrank] at hcmp
      · exact absurd htext.symm hne

section Addresses

variable [DecidableEq σ]

theorem getAddr_setOffset {k : ℕ} {s : σ} (h : link.osec s ≠ k) (st : State σ) :
    link.getAddr (link.setOffset st k) s = link.getAddr st s := by
  rw [getAddr, getAddr, setOffset]
  congr 1
  · exact Function.update_of_ne h _ _
  · cases hchunk : link.chunks[k]? with
    | none => rfl
    | some x =>
      cases hmembers : x.2.members with
      | none => simp [hmembers]
      | some members =>
        have hlookup : members.lookup s = none := by
          rw [List.lookup_eq_none_iff]
          intro y hy
          rw [bne_iff_ne]
          rintro rfl
          exact h (link.mem_osec k x.1 x.2 members hchunk hmembers y hy)
        simp [hmembers, hlookup]

theorem getAddr_stateAt_of_le {k : ℕ} {s : σ} (h : k ≤ link.osec s) :
    link.getAddr (link.stateAt k) s = 2 ^ 32 - 1 := by
  induction k with
  | zero => exact Nat.zero_add _
  | succ k ih =>
    rw [stateAt, getAddr_setOffset (Nat.ne_of_gt h)]
    exact ih (Nat.le_of_succ_le h)

theorem getAddr_stateAt_of_lt {k n : ℕ} {s : σ} (h : link.osec s < k) (hkn : k ≤ n) :
    link.getAddr (link.stateAt n) s = link.getAddr (link.stateAt k) s := by
  induction n, hkn using Nat.le_induction with
  | base => rfl
  | succ n hkn ih =>
    rw [stateAt, getAddr_setOffset (Nat.ne_of_lt (Nat.lt_of_lt_of_le h hkn))]
    exact ih

theorem earlyAddr_eq (s : σ) :
    link.earlyAddr s =
      if link.osec s < link.unwindIndex then link.finalAddr s else 2 ^ 32 - 1 := by
  have hlt : link.unwindIndex < link.chunks.length :=
    (List.getElem?_eq_some_iff.mp getElem?_unwindIndex).1
  split
  · next h => exact (getAddr_stateAt_of_lt h (Nat.le_of_lt hlt)).symm
  · next h => exact getAddr_stateAt_of_le (Nat.le_of_not_lt h)

omit [DecidableEq σ] in
theorem mem_records {rec : EhFrame.UnwindRecord σ τ} :
    rec ∈ link.records ↔ ∃ x ∈ link.chunks, ∃ members, x.2.members = some members ∧
      ∃ member ∈ members, rec ∈ link.unwindRecords member.1 := by
  rw [records, List.mem_flatMap]
  constructor
  · rintro ⟨x, hx, hrec⟩
    cases hmembers : x.2.members with
    | none => simp [hmembers] at hrec
    | some members =>
      rw [hmembers, Option.getD_some, List.mem_flatMap] at hrec
      exact ⟨x, hx, members, hmembers, hrec⟩
  · rintro ⟨x, hx, members, hmembers, hrec⟩
    refine ⟨x, hx, ?_⟩
    rw [hmembers, Option.getD_some, List.mem_flatMap]
    exact hrec

theorem addresses_iff_recordsInFront :
    (∀ rec ∈ link.records, getFuncAddr link.earlyAddr rec = getFuncAddr link.finalAddr rec) ↔
      link.RecordsInFront := by
  constructor
  · intro h x hx members hmembers member hmember hne
    obtain ⟨k, hk⟩ := List.mem_iff_getElem?.mp hx
    obtain ⟨rec, hrec⟩ := List.exists_mem_of_ne_nil _ hne
    have haddr := h rec (mem_records.mpr ⟨x, hx, members, hmembers, member, hmember, hrec⟩)
    have hosec := link.mem_osec k x.1 x.2 members hk hmembers member hmember
    have hfront := lt_unwindIndex_iff hk (by rw [hmembers]; rfl)
    rw [getFuncAddr, getFuncAddr, link.unwindRecords_subsec member.1 rec hrec,
      Nat.add_right_cancel_iff, earlyAddr_eq, hosec] at haddr
    by_cases hlt : k < link.unwindIndex
    · exact Or.inl (hfront.mp hlt)
    · rw [if_neg hlt] at haddr
      exact Or.inr haddr.symm
  · intro h rec hrec
    obtain ⟨x, hx, members, hmembers, member, hmember, hrec⟩ := mem_records.mp hrec
    obtain ⟨k, hk⟩ := List.mem_iff_getElem?.mp hx
    have hosec := link.mem_osec k x.1 x.2 members hk hmembers member hmember
    have hfront := lt_unwindIndex_iff hk (by rw [hmembers]; rfl)
    rw [getFuncAddr, getFuncAddr, link.unwindRecords_subsec member.1 rec hrec,
      Nat.add_right_cancel_iff, earlyAddr_eq, hosec]
    rcases h x hx members hmembers member hmember (List.ne_nil_of_mem hrec) with
      hin | heq
    · rw [if_pos (hfront.mpr hin)]
    · rw [heq, ite_self]

end Addresses

theorem entryFuncAddr_eq {a b : ℕ} (hle : a ≤ b) (hlt : b < a + 2 ^ 24) :
    (entryFuncAddr a b : ℤ) = b - a := by
  rw [entryFuncAddr]
  omega

section Tables

variable [DecidableEq σ] [DecidableEq τ] {target : Target}

theorem finalAddr_of_mem_pages (h : ∀ rec ∈ link.records,
      getFuncAddr link.earlyAddr rec = getFuncAddr link.finalAddr rec)
    {page : List (EhFrame.UnwindRecord σ τ)} {rec : EhFrame.UnwindRecord σ τ}
    (hpage : page ∈ pages target link.earlyAddr link.records) (hrec : rec ∈ page) :
    getFuncAddr link.earlyAddr rec = getFuncAddr link.finalAddr rec := by
  obtain ⟨rec', hrec', heq⟩ := exists_of_mem_pages hpage hrec
  calc
    getFuncAddr link.earlyAddr rec = getFuncAddr link.earlyAddr (withoutLen rec') := by
      rw [heq, getFuncAddr_withoutLen]
    _ = getFuncAddr link.finalAddr (withoutLen rec') := h rec' hrec'
    _ = getFuncAddr link.finalAddr rec := by rw [heq, getFuncAddr_withoutLen]

theorem builtFromFinal_of_addresses (h : ∀ rec ∈ link.records,
      getFuncAddr link.earlyAddr rec = getFuncAddr link.finalAddr rec) :
    link.BuiltFromFinal target := by
  have hsorted : (pages target link.earlyAddr link.records).flatten.Pairwise _ :=
    pairwise_pages
  obtain ⟨hentries, hpages⟩ := List.pairwise_flatten.mp hsorted
  constructor
  · exact h
  · refine hpages.imp_of_mem fun {p q} hp hq hpq a ha b hb => ?_
    have ha' := List.mem_of_mem_head? ha
    have hb' := List.mem_of_mem_head? hb
    rw [← finalAddr_of_mem_pages h hp ha', ← finalAddr_of_mem_pages h hq hb']
    exact hpq a ha' b hb'
  · intro page hpage
    refine (hentries page hpage).imp_of_mem fun {a b} ha hb hab => ?_
    rwa [← finalAddr_of_mem_pages h hpage ha, ← finalAddr_of_mem_pages h hpage hb]
  · intro page hpage first hfirst rec hrec
    have hfirst' := List.mem_of_mem_head? hfirst
    rw [← finalAddr_of_mem_pages h hpage hfirst', ← finalAddr_of_mem_pages h hpage hrec]
    cases page with
    | nil => exact absurd hrec List.not_mem_nil
    | cons first' rest =>
      obtain rfl : first' = first := Option.some_inj.mp hfirst
      obtain ⟨-, hreach⟩ := lt_of_mem_splitRecords hpage
      rcases List.mem_cons.mp hrec with rfl | hrec
      · exact entryFuncAddr_eq (Nat.le_refl _) (Nat.lt_add_of_pos_right (by decide))
      · exact entryFuncAddr_eq
          ((List.pairwise_cons.mp (hentries _ hpage)).1 rec hrec) (hreach rec hrec)

/-- The tables are built from final addresses exactly if every section that has
unwind records is in front of `__unwind_info`. -/
theorem builtFromFinal_iff_recordsInFront (link : Link σ τ) (target : Target) :
    link.BuiltFromFinal target ↔ link.RecordsInFront := by
  constructor
  · intro hbuilt
    exact addresses_iff_recordsInFront.mp hbuilt.addresses
  · intro hfront
    exact builtFromFinal_of_addresses (addresses_iff_recordsInFront.mpr hfront)

end Tables

end Link

/-- A program with the function `0` in `__text` and the function `1` in a section
`__foo` of `__TEXT`. -/
def fooLink : Link ℕ ℕ where
  pageBits := 12
  pagezeroSize := 2 ^ 32
  segments :=
    [{ segname := "__TEXT"
       chunks :=
        [{ sectname := "__mach_header", header := ⟨.regular, 3, 1024⟩ },
         { sectname := "__text", header := ⟨.regular, 4, 64⟩, members := some [(0, 0)] },
         { sectname := "__unwind_info", header := ⟨.regular, 2, 4096⟩ },
         { sectname := "__foo", header := ⟨.regular, 4, 64⟩, members := some [(1, 0)] }]
       sorted := by decide +kernel }]
  sorted := List.pairwise_singleton _ _
  osec s := if s = 0 then 1 else 3
  mem_osec := by
    intro k seg chunk members hk hmembers x hx
    match k, hk with
    | 0, hk =>
      obtain ⟨-, rfl⟩ := Prod.mk.inj (Option.some.inj hk)
      exact absurd hmembers (by simp)
    | 1, hk =>
      obtain ⟨-, rfl⟩ := Prod.mk.inj (Option.some.inj hk)
      obtain rfl := Option.some.inj hmembers
      obtain rfl := List.mem_singleton.mp hx
      rfl
    | 2, hk =>
      obtain ⟨-, rfl⟩ := Prod.mk.inj (Option.some.inj hk)
      exact absurd hmembers (by simp)
    | 3, hk =>
      obtain ⟨-, rfl⟩ := Prod.mk.inj (Option.some.inj hk)
      obtain rfl := Option.some.inj hmembers
      obtain rfl := List.mem_singleton.mp hx
      rfl
    | k + 4, hk => exact absurd hk (by simp [chunksOf])
  unwindIndex := 2
  unwindHeader := ⟨.regular, 2, 4096⟩
  unwindHeader_regular := rfl
  unwind := rfl
  reserved := by simp [chunksOf]
  unwindRecords s := [{ subsec := s, codeLen := 64, encoding := 2 ^ 24 }]
  unwindRecords_subsec := by simp

/-- `__foo` is behind `__unwind_info`. -/
theorem fooLink_not_builtFromFinal : ¬ fooLink.BuiltFromFinal .x86_64 := by
  intro hbuilt
  have hmem : { subsec := 1, codeLen := 64, encoding := 2 ^ 24 } ∈ fooLink.records :=
    List.mem_cons_of_mem _ List.mem_cons_self
  exact absurd (hbuilt.addresses _ hmem) (by decide +kernel)

end Mold.MachO.UnwindInfo
