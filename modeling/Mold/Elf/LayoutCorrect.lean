import Mold.Elf.LayoutOffsets

/-!
# Correctness of the layout

The layout has the places it should have exactly if the groups of chunks do not meet and
the chunks fit in the file.
-/

namespace Mold.Elf.Layout

open Lib

variable {args : Args}

def Chunk.Holds (c : Chunk) (x : ℕ) : Prop := c.addr ≤ x ∧ x < c.endAddr

/-- Two chunks do not share a byte.  If loadable segments are separate, chunks with
different protection do not share a page. -/
structure Separate (args : Args) (c d : Chunk) : Prop where
  bytes : ∀ x, ¬ (c.Holds x ∧ d.Holds x)
  pages : args.separateCode = .loadableSegments →
    c.toPhdrFlags args ≠ d.toPhdrFlags args →
      ∀ x y, c.Holds x → d.Holds y → x / args.page ≠ y / args.page

structure LaidOut (args : Args) (chunks : List Chunk) (filesize : ℤ) : Prop where
  aligned : ∀ c ∈ chunks, c.isAlloc = true → args.sectionStart c.name = none → c.align ∣ c.addr
  separate : chunks.Pairwise fun c d =>
    c.isMapped = true → d.isMapped = true → Separate args c d
  file : InFile args chunks filesize

/-- Chunks of different groups of `chunks` are separate, where `addrs` are the same chunks with
their addresses. -/
def GroupsSeparate (args : Args) (chunks addrs : List Chunk) : Prop :=
  ((groups args chunks).zip addrs).Pairwise fun x y =>
    x.1 ≠ y.1 → x.2.isMapped = true → y.2.isMapped = true → Separate args x.2 y.2

/-- The chunks are in the address space, and those in the file are not too large for it. -/
structure InRange (args : Args) (chunks : List Chunk) : Prop where
  addr : ∀ c ∈ chunks, c.addr < 2 ^ args.wordBits
  room : (chunks.map (Chunk.room args)).sum < args.fileLimit

/-- The last chunk is a TLS bss chunk, so the loop over them looks behind the chunks. -/
def Overreads (args : Args) (chunks : List Chunk) : Prop :=
  args.sectionOrder = [] ∧ ∃ c, chunks.getLast? = some c ∧ c.isAlloc = true ∧
    c.isTbss = true ∧ c.kind ≠ .relroPadding ∧ args.sectionStart c.name = none

/-! ## One iteration -/

theorem separate_of_apart {x y : ℕ × Chunk} (h : Apart args x y) (hgroup : x.1 = y.1)
    (hx : x.2.isMapped = true) (hy : y.2.isMapped = true) : Separate args x.2 y.2 := by
  obtain ⟨hend, hpage⟩ := h hgroup hx hy
  refine ⟨fun b ⟨hb, hb'⟩ => ?_, fun hmode hflags b b' hb hb' heq => ?_⟩
  · exact absurd (Nat.lt_of_lt_of_le hb.2 hend) (Nat.not_lt.mpr hb'.1)
  · have hle := Nat.le_trans (hpage hmode hflags) hb'.1
    obtain ⟨k, hk⟩ := dvd_alignUp args.page x.2.endAddr
    have hlt : b < args.page * k :=
      hk ▸ Nat.lt_of_lt_of_le hb.2 (le_alignUp page_pos x.2.endAddr)
    have hlow : b / args.page < k := (Nat.div_lt_iff_lt_mul page_pos).mpr (by
      rw [Nat.mul_comm]
      exact hlt)
    have hhigh : k ≤ b' / args.page := (Nat.le_div_iff_mul_le page_pos).mpr (by
      rw [Nat.mul_comm]
      exact hk ▸ hle)
    omega

theorem separate_of_le {c d : Chunk} (hmode : args.separateCode ≠ .loadableSegments)
    (h : c.endAddr ≤ d.addr ∨ d.endAddr ≤ c.addr) : Separate args c d where
  bytes x := by
    rintro ⟨hc, hd⟩
    simp only [Chunk.Holds] at hc hd
    omega
  pages h := absurd h hmode

variable {chunks addrs : List Chunk}

theorem pairwise_zip_groups (args : Args)
    (hlength : addrs.length = chunks.length) {R : Chunk → Chunk → Prop} :
    ((groups args chunks).zip addrs).Pairwise (fun x y => R x.2 y.2) ↔ addrs.Pairwise R := by
  have hmap : ((groups args chunks).zip addrs).map Prod.snd = addrs :=
    List.map_snd_zip (Nat.le_of_eq (hlength.trans (length_groups chunks).symm))
  conv_rhs => rw [← hmap]
  exact List.pairwise_map.symm

theorem separate_iff (hlength : addrs.length = chunks.length)
    (hapart : ((groups args chunks).zip addrs).Pairwise (Apart args)) :
    (addrs.Pairwise fun c d => c.isMapped = true → d.isMapped = true → Separate args c d) ↔
      GroupsSeparate args chunks addrs := by
  constructor
  · intro h
    exact List.Pairwise.imp (fun {x y} h (_ : x.1 ≠ y.1) => h)
      ((pairwise_zip_groups args hlength).mpr h)
  · intro h
    refine (pairwise_zip_groups args hlength).mp ?_
    refine (h.and hapart).imp fun {x y} h hx hy => ?_
    by_cases hgroup : x.1 = y.1
    · exact separate_of_apart h.2 hgroup hx hy
    · exact h.1 hgroup hx hy

theorem forall_mem_of_map {α β : Type*} {f : α → β} {P : α → Prop} {Q : β → Prop}
    (hP : ∀ x, Q (f x) ↔ P x) {l l' : List α} (h : l.map f = l'.map f) :
    (∀ x ∈ l, P x) ↔ ∀ x ∈ l', P x := by
  have hmap (l : List α) : (∀ x ∈ l, P x) ↔ ∀ y ∈ l.map f, Q y := by
    rw [List.forall_mem_map]
    exact forall₂_congr fun x _ => (hP x).symm
  rw [hmap l, hmap l', h]

theorem pairwise_of_map {α β : Type*} {f : α → β} {R : α → α → Prop} {S : β → β → Prop}
    (hR : ∀ x y, S (f x) (f y) ↔ R x y) {l l' : List α} (h : l.map f = l'.map f) :
    l.Pairwise R ↔ l'.Pairwise R := by
  have hmap (l : List α) : l.Pairwise R ↔ (l.map f).Pairwise S := by
    rw [List.pairwise_map]
    exact ⟨fun h => h.imp (hR _ _).mpr, fun h => h.imp (hR _ _).mp⟩
  rw [hmap l, hmap l', h]

theorem separate_inMemory (c d : Chunk) :
    Separate args c.inMemory d.inMemory ↔ Separate args c d :=
  ⟨fun h => ⟨h.bytes, h.pages⟩, fun h => ⟨h.bytes, h.pages⟩⟩

theorem laidOut_iff_of_idealAddresses
    (hout : Output args chunks) (h : idealAddresses args chunks = some addrs)
    (hrange : InRange args addrs) :
    LaidOut args (setFileOffsets args addrs).1 (setFileOffsets args addrs).2 ↔
      GroupsSeparate args chunks addrs ∧ RunsFit args none addrs := by
  have haddr := addressed_of_idealAddresses hout h
  have hmemory : (setFileOffsets args addrs).1.map Chunk.inMemory = addrs.map Chunk.inMemory :=
    inMemory_placeInFile {} addrs
  have hlength : addrs.length = chunks.length := by
    rw [← List.length_map Chunk.shape, haddr.shape, List.length_map]
  have hseparate := pairwise_of_map
    (R := fun c d => c.isMapped = true → d.isMapped = true → Separate args c d)
    (S := fun c d => c.isMapped = true → d.isMapped = true → Separate args c d)
    (fun c d => imp_congr Iff.rfl (imp_congr Iff.rfl (separate_inMemory c d))) hmemory
  have haligned := forall_mem_of_map
    (Q := fun c => c.isAlloc = true → args.sectionStart c.name = none → c.align ∣ c.addr)
    (fun c => Iff.rfl) hmemory
  rw [← inFile_iff hout.wordBits_eq hrange.room hrange.addr, ← separate_iff hlength haddr.apart,
    ← hseparate]
  exact ⟨fun h => ⟨h.separate, h.file⟩, fun h => ⟨haligned.mpr haddr.aligned, h.1, h.2⟩⟩

/-! ## Reading behind the chunks -/

variable {tlsP2 : ℕ}

namespace Cursor

variable {l : List Chunk}

theorem idealTbss_eq_none_iff {st : Cursor} {addr addr2 : ℕ} {c : Chunk} :
    st.idealTbss tlsP2 addr addr2 c l = none ↔ l = [] := by
  rcases l with _ | ⟨d, _ | ⟨e, l⟩⟩
  · exact ⟨fun _ => rfl, fun _ => rfl⟩
  · exact ⟨nofun, nofun⟩
  · exact ⟨nofun, nofun⟩

theorem idealPlace_eq_none_iff {st : Cursor} {c : Chunk} (htbss : st.tbss ≠ none → l ≠ []) :
    st.idealPlace args tlsP2 c l = none ↔ l = [] ∧ c.isAlloc = true ∧ c.isTbss = true ∧
      c.kind ≠ .relroPadding ∧ args.sectionStart c.name = none := by
  rw [idealPlace]
  cases hst : st.tbss with
  | some addr2 =>
    have hl : l ≠ [] := htbss (by rw [hst]; exact Option.some_ne_none _)
    exact ⟨fun h => absurd (idealTbss_eq_none_iff.mp h) hl, fun h => absurd h.1 hl⟩
  | none =>
    simp only
    cases halloc : c.isAlloc with
    | false => simp
    | true =>
      by_cases hkind : c.kind = .relroPadding
      · simp [hkind]
      · cases hstart : args.sectionStart c.name with
        | some addr => simp [hkind]
        | none =>
          cases hc : c.isTbss with
          | false => simp [hkind]
          | true => simp [hkind, idealTbss_eq_none_iff]

theorem ne_nil_of_idealPlace {st st' : Cursor} {c c' : Chunk}
    (h : st.idealPlace args tlsP2 c l = some (c', st')) (htbss : st'.tbss ≠ none) :
    ∃ d e rest, l = d :: e :: rest := by
  rcases idealPlace_cases h with ⟨addr2, -, h⟩ | ⟨-, -, -, rfl⟩ | ⟨-, -, -, -, rfl⟩ |
    ⟨-, -, addr, -, -, rfl⟩ | ⟨-, -, -, -, -, rfl⟩
  · rcases l with _ | ⟨d, _ | ⟨e, l⟩⟩
    · cases h
    · rw [← (Prod.mk.inj (Option.some.inj h)).2] at htbss
      exact absurd rfl htbss
    · exact ⟨d, e, l, rfl⟩
  all_goals exact absurd rfl htbss

end Cursor

theorem idealRegular_eq_none_iff {st : Cursor} {l : List Chunk}
    (htbss : st.tbss ≠ none → ∃ d e rest, l = d :: e :: rest) :
    idealRegular args tlsP2 st l = none ↔ ∃ c, l.getLast? = some c ∧ c.isAlloc = true ∧
      c.isTbss = true ∧ c.kind ≠ .relroPadding ∧ args.sectionStart c.name = none := by
  induction l generalizing st with
  | nil =>
    constructor
    · intro h
      cases h
    · rintro ⟨c, hc, _⟩
      cases hc
  | cons c l ih =>
    have hplace : st.idealPlace args tlsP2 c l = none ↔ _ :=
      Cursor.idealPlace_eq_none_iff fun h hl => by
        obtain ⟨d, e, rest, heq⟩ := htbss h
        rw [hl] at heq
        cases heq
    rw [idealRegular]
    cases h : st.idealPlace args tlsP2 c l with
    | none =>
      obtain ⟨rfl, hlast⟩ := hplace.mp h
      exact ⟨fun _ => ⟨c, rfl, hlast⟩, fun _ => rfl⟩
    | some p =>
      simp only [Option.map_eq_none_iff]
      rw [ih (Cursor.ne_nil_of_idealPlace h)]
      cases l with
      | nil =>
        constructor
        · rintro ⟨d, hd, _⟩
          cases hd
        · rintro ⟨d, hd, hlast⟩
          obtain rfl := Option.some.inj hd
          rw [hplace.mpr ⟨rfl, hlast⟩] at h
          cases h
      | cons d l => rw [List.getLast?_cons_cons]

theorem idealAddresses_eq_none_iff {chunks : List Chunk} :
    idealAddresses args chunks = none ↔ Overreads args chunks := by
  rw [idealAddresses, Overreads]
  split
  case isTrue horder =>
    rw [idealRegular_eq_none_iff fun h => absurd rfl h]
    exact ⟨fun h => ⟨horder, h⟩, And.right⟩
  case isFalse horder =>
    constructor
    · intro h
      cases h
    · exact fun h => absurd h.1 horder

theorem eq_of_shape {α : Type*} (f : Chunk → α) (hf : ∀ c, f c.shape = f c) {c d : Chunk}
    (h : c.shape = d.shape) : f c = f d := by
  rw [← hf c, h, hf d]

theorem overreads_of_shape {chunks chunks' : List Chunk}
    (h : chunks.map Chunk.shape = chunks'.map Chunk.shape) (hover : Overreads args chunks) :
    Overreads args chunks' := by
  obtain ⟨horder, c, hc, halloc, htbss, hkind, hstart⟩ := hover
  have hmap : (chunks'.map Chunk.shape).getLast? = some c.shape := by
    rw [← h, List.getLast?_map, hc]
    rfl
  rw [List.getLast?_map, Option.map_eq_some_iff] at hmap
  obtain ⟨d, hd, hshape⟩ := hmap
  refine ⟨horder, d, hd, ?_, ?_, ?_, ?_⟩
  · rw [eq_of_shape Chunk.isAlloc (fun _ => rfl) hshape, halloc]
  · rw [eq_of_shape Chunk.isTbss (fun _ => rfl) hshape, htbss]
  · rw [eq_of_shape Chunk.kind (fun _ => rfl) hshape]
    exact hkind
  · rw [eq_of_shape Chunk.name (fun _ => rfl) hshape, hstart]

/-! ## Loop -/

theorem Output.of_shape {chunks chunks' : List Chunk} (hout : Output args chunks)
    (h : chunks'.map Chunk.shape = chunks.map Chunk.shape)
    (haddr : ∀ c ∈ chunks', c.addr < 2 ^ args.wordBits)
    (haligned : ∀ c ∈ chunks', c.isAlloc = true → args.sectionStart c.name = none →
      c.align ∣ c.addr) : Output args chunks' where
  word := hout.word
  page := hout.page
  align := (forall_mem_of_map (Q := fun c => c.p2align < args.wordBits)
    (fun _ => Iff.rfl) h).mpr hout.align
  addr := haddr
  order := by
    have hmap (l : List Chunk) : l.map Chunk.isAlloc = (l.map Chunk.shape).map Chunk.isAlloc := by
      rw [List.map_map]
      rfl
    rw [AllocTogether, hmap chunks', h, ← hmap chunks]
    exact hout.order
  relro hmode := (forall_mem_of_map (Q := fun c => c.kind ≠ .relroPadding)
    (fun _ => Iff.rfl) h).mpr (hout.relro hmode)
  padding := (forall_mem_of_map (Q := fun c => c.kind = .relroPadding → c.p2align = 0)
    (fun _ => Iff.rfl) h).mpr hout.padding
  aligned := haligned

theorem shape_inMemory {l l' : List Chunk} (h : l.map Chunk.inMemory = l'.map Chunk.inMemory) :
    l.map Chunk.shape = l'.map Chunk.shape := by
  have hmap (l : List Chunk) : l.map Chunk.shape = (l.map Chunk.inMemory).map Chunk.shape := by
    rw [List.map_map]
    rfl
  rw [hmap l, hmap l', h]

theorem output_of_setVirtualAddresses (hout : Output args chunks)
    (h : setVirtualAddresses args chunks = some addrs) :
    Output args addrs ∧ addrs.map Chunk.shape = chunks.map Chunk.shape := by
  rw [setVirtualAddresses_eq hout] at h
  obtain ⟨ideal, hideal, rfl⟩ := Option.map_eq_some_iff.mp h
  have haddr := addressed_of_idealAddresses hout hideal
  have hshape : (ideal.map (Chunk.cut args)).map Chunk.shape = chunks.map Chunk.shape := by
    rw [← haddr.shape, List.map_map]
    rfl
  refine ⟨hout.of_shape hshape ?_ ?_, hshape⟩
  · rw [List.forall_mem_map]
    exact fun c _ => Nat.mod_lt _ (Nat.two_pow_pos _)
  · rw [List.forall_mem_map]
    intro c hc halloc hstart
    have halign : c.p2align < args.wordBits :=
      (forall_mem_of_map (Q := fun c => c.p2align < args.wordBits)
        (fun _ => Iff.rfl) haddr.shape).mpr hout.align c hc
    exact (Nat.dvd_mod_iff (Nat.pow_dvd_pow 2 (Nat.le_of_lt halign))).mpr
      (haddr.aligned c hc halloc hstart)

theorem output_of_iterate {chunks next : List Chunk} (hout : Output args chunks)
    (h : iterate args chunks = .running next) :
    Output args next ∧ next.map Chunk.shape = chunks.map Chunk.shape := by
  rw [iterate, setOffsets] at h
  cases haddrs : setVirtualAddresses args chunks with
  | none =>
    rw [haddrs] at h
    cases h
  | some addrs =>
    obtain ⟨haddrsOut, hshape⟩ := output_of_setVirtualAddresses hout haddrs
    rw [haddrs] at h
    simp only [Option.map_some] at h
    generalize hplaced : (setFileOffsets args addrs).1 = placed at h
    have hmemory : placed.map Chunk.inMemory = addrs.map Chunk.inMemory :=
      hplaced ▸ inMemory_placeInFile {} addrs
    have hresize : ((resizePhdr (phdrBytes args placed) placed).map fun c : Chunk =>
        { c with size := 0, offset := 0 }) =
          addrs.map fun c => { c with size := 0, offset := 0 } := by
      have hmap (l : List Chunk) : (l.map fun c => { c with size := 0, offset := 0 }) =
          (l.map Chunk.inMemory).map fun c => { c with size := 0 } := by
        rw [List.map_map]
        rfl
      rw [hmap addrs, ← hmemory, List.map_map, resizePhdr, List.map_map]
      refine List.map_congr_left fun c _ => ?_
      rw [Function.comp_apply]
      split <;> rfl
    split at h
    · cases h
    · split at h
      · cases h
      · obtain rfl := Progress.running.inj h
        have hmap (l : List Chunk) : l.map Chunk.shape =
            (l.map fun c => { c with size := 0, offset := 0 }).map Chunk.shape := by
          rw [List.map_map]
          rfl
        have hshape' : (resizePhdr (phdrBytes args placed) placed).map Chunk.shape =
            addrs.map Chunk.shape := by
          rw [hmap, hresize, ← hmap]
        refine ⟨haddrsOut.of_shape hshape' ?_ ?_, hshape'.trans hshape⟩
        · exact (forall_mem_of_map (Q := fun c => c.addr < 2 ^ args.wordBits)
            (fun _ => Iff.rfl) hresize).mpr haddrsOut.addr
        · exact (forall_mem_of_map
            (Q := fun c => c.isAlloc = true → args.sectionStart c.name = none → c.align ∣ c.addr)
            (fun _ => Iff.rfl) hresize).mpr haddrsOut.aligned

theorem output_of_setOsecOffsets {chunks next : List Chunk} (hout : Output args chunks) (n : ℕ)
    (h : setOsecOffsets args chunks n = .running next) :
    Output args next ∧ next.map Chunk.shape = chunks.map Chunk.shape := by
  induction n generalizing next with
  | zero =>
    obtain rfl := Progress.running.inj h
    exact ⟨hout, rfl⟩
  | succ n ih =>
    rw [setOsecOffsets] at h
    split at h
    case h_1 l hrun =>
      obtain ⟨hl, hshape⟩ := ih hrun
      obtain ⟨hnext, hshape'⟩ := output_of_iterate hl h
      exact ⟨hnext, hshape'.trans hshape⟩
    case h_2 hno => exact absurd h (hno next)

/-- The last iteration of `set_osec_offsets` gives the chunks the places they should have. -/
def Finishes (args : Args) (result : Progress) : Prop :=
  ∃ placed filesize, result = .done placed filesize ∧ LaidOut args placed filesize

/-- The addresses of three sections of a raw binary, where the last one is put between the
others. -/
def exampleArgs (wordSize : ℕ) : Args where
  wordSize := wordSize
  sectionStart name :=
    if name = ".a" then some 0x1000
    else if name = ".b" then some 0x1900
    else if name = ".c" then some 0x1800
    else none

def exampleChunks : List Chunk :=
  [{ name := ".a", size := 0x800 }, { name := ".b", size := 0x100 },
    { name := ".c", size := 0x80 }]

def exampleAddrs : List Chunk :=
  [{ name := ".a", size := 0x800, addr := 0x1000 },
    { name := ".b", size := 0x100, addr := 0x1900 },
    { name := ".c", size := 0x80, addr := 0x1800 }]

section Example

variable {wordSize : ℕ} (hword : wordSize = 4 ∨ wordSize = 8)
include hword

theorem output_example : Output (exampleArgs wordSize) exampleChunks where
  word := hword
  page := by
    show 12 < 63
    decide
  align := by rcases hword with rfl | rfl <;> decide
  addr := by rcases hword with rfl | rfl <;> decide
  order := by
    unfold AllocTogether exampleChunks
    simp
  relro := by
    intro hmode
    cases hmode
  padding := by
    unfold exampleChunks
    simp
  aligned := by
    unfold exampleChunks
    simp

theorem inRange_example : InRange (exampleArgs wordSize) exampleAddrs where
  addr := by rcases hword with rfl | rfl <;> decide
  room := by rcases hword with rfl | rfl <;> decide

omit hword

theorem idealAddresses_example :
    idealAddresses (exampleArgs wordSize) exampleChunks = some exampleAddrs := rfl

theorem groupsSeparate_example :
    GroupsSeparate (exampleArgs wordSize) exampleChunks exampleAddrs := by
  have hbytes : exampleAddrs.Pairwise fun c d =>
      c.endAddr ≤ d.addr ∨ d.endAddr ≤ c.addr := by decide
  have hseparate : exampleAddrs.Pairwise (Separate (exampleArgs wordSize)) :=
    hbytes.imp (separate_of_le fun h => by cases h)
  have hlength : exampleAddrs.length = exampleChunks.length := rfl
  exact ((pairwise_zip_groups _ hlength).mpr hseparate).imp fun h _ _ _ => h

end Example

end Mold.Elf.Layout
