import Mold.Lib.WordMemory
import Mold.MachO.LoadCommandsFit

/-!
# The ad-hoc code signature

`__code_signature` is the last part of the file.  It has a directory with a hash of
each page in front of it.  The UUID of the file is made from the signature itself, so
the Mach-O header is written again behind the hashing, and then the pages that the
header may reach into are hashed again.

The hash function and the contents of the file are arbitrary.

The hashes lie behind the pages, so the order in which the pages are hashed does not
matter.  Writing the Mach-O header again changes only pages that are hashed again, if
the load commands end in these pages.
-/

namespace Mold.MachO.CodeSignature

open Mold.Lib Mold.MachO.LoadCommands

abbrev Hash := List Byte → Fin 32 → Byte

def be (n x : ℕ) : List Byte := (le n x).reverse

def readBe (bytes : List Byte) : ℕ := readLe bytes.reverse

def filename (path : List Byte) : List Byte :=
  (path.reverse.takeWhile fun c => decide (c ≠ 0x2f)).reverse

/-- A link whose signature is about to be written, for pages of `2 ^ pageBits` bytes.
The offset of a chunk is a `u32`. -/
structure Signing where
  link : Link
  state : State
  pageBits : ℕ
  offset_lt : (state.hdr .codeSig).offset < 2 ^ 32

namespace Signing

variable (s : Signing)

def pageSize : ℕ := 2 ^ s.pageBits

/-- `hdr.offset` of the signature, which is also `code_limit`. -/
def codeLimit : ℕ := (s.state.hdr .codeSig).offset

def filenameSize : ℕ := alignUp 16 ((filename s.link.args.finalOutput).length + 1)

def numBlocks : ℕ := alignUp s.pageSize s.codeLimit / s.pageSize

/-- `CodeSignatureSection::compute_size` -/
def computeSize : ℕ := 12 + 12 + 88 + s.filenameSize + s.numBlocks * 32

/-- `CodeSignatureHeader`, `CodeSignatureBlobIndex` and the fields of
`CodeSignatureDirectory` up to `n_special_slots`. -/
def headersFront : List Byte :=
  be 4 0xfade0cc0 ++ be 4 s.computeSize ++ be 4 1 ++ be 4 0 ++ be 4 24 ++ be 4 0 ++
    be 4 0xfade0c02 ++ be 4 (88 + s.filenameSize + s.numBlocks * 32) ++ be 4 0x20400 ++
    be 4 0x20002 ++ be 4 (88 + s.filenameSize) ++ be 4 88 ++ be 4 0

/-- The fields of `CodeSignatureDirectory` behind `code_limit`. -/
def headersBack : List Byte :=
  be 1 32 ++ be 1 2 ++ be 1 0 ++ be 1 s.pageBits ++ be 4 0 ++ be 4 0 ++ be 4 0 ++ be 4 0 ++
    be 8 0 ++ be 8 (s.state.seg (ascii "__TEXT")).fileoff ++
    be 8 (s.state.seg (ascii "__TEXT")).filesize ++
    be 8 (if s.link.outputType = .execute then 1 else 0)

def headers : List Byte :=
  s.headersFront ++ (be 4 s.numBlocks ++ (be 4 s.codeLimit ++
    (s.headersBack ++ filename s.link.args.finalOutput)))

def slot (i : ℕ) : ℕ := s.codeLimit + (12 + 12 + 88 + s.filenameSize) + i * 32

def pageEnd (i : ℕ) : ℕ := min ((i + 1) * s.pageSize) s.codeLimit

def page (mem : Memory) (i : ℕ) : List Byte :=
  loadBytes mem (i * s.pageSize) (s.pageEnd i - i * s.pageSize)

section Write

variable (sha256 : Hash)

/-- `compute_hash`, if the page does not begin behind its end. -/
def computeHash (mem : Memory) (i : ℕ) : Option Memory :=
  if i * s.pageSize ≤ s.pageEnd i then
    some (storeBytes mem (s.slot i) (List.ofFn (sha256 (s.page mem i))))
  else
    none

def uuidOf (hash : Fin 32 → Byte) : Fin 16 → Byte := fun i =>
  let b := hash (i.castLE (by decide))
  if i = 6 then Fin.ofNat 256 (b.val % 16 + 0x50)
  else if i = 8 then Fin.ofNat 256 (b.val % 64 + 0x80)
  else b

def withUuid (uuid : Fin 16 → Byte) : State := { s.state with uuid := uuid }

def machHeader (uuid : Fin 16 → Byte) : List Byte := copyBuf s.link (s.withUuid uuid)

def rehashed : ℕ := alignUp s.pageSize (s.state.hdr .machHdr).size / s.pageSize

/-- `write_signature`, with the order in which the pages are hashed in parallel. -/
def writeSignature (order : List ℕ) (mem : Memory) : Option Memory :=
  let mem := storeBytes mem s.codeLimit (List.replicate s.computeSize 0)
  let mem := storeBytes mem s.codeLimit s.headers
  (order.foldlM (s.computeHash sha256) mem).bind fun mem =>
    if s.link.args.uuid = .hash then
      let uuid := uuidOf (sha256 (loadBytes mem s.codeLimit s.computeSize))
      let mem := storeBytes mem (s.state.hdr .machHdr).offset (s.machHeader uuid)
      (List.range s.rehashed).foldlM (s.computeHash sha256) mem
    else
      some mem

/-- The memory is signed: the directory has a hash of each page, the pages cover the
file up to the signature, the signature has the reserved size, and nothing else but
the Mach-O header has changed. -/
structure Signed (before mem : Memory) : Prop where
  nCodeSlots : readBe (loadBytes mem (s.codeLimit + 52) 4) = s.numBlocks
  codeLimit : readBe (loadBytes mem (s.codeLimit + 56) 4) = s.codeLimit
  slots : ∀ i < s.numBlocks, loadBytes mem (s.slot i) 32 = List.ofFn (sha256 (s.page mem i))
  cover : ∀ k < s.codeLimit, ∃! i, i < s.numBlocks ∧ i * s.pageSize ≤ k ∧ k < s.pageEnd i
  size : s.slot s.numBlocks = s.codeLimit + s.computeSize
  frame : ∀ k, (k < s.codeLimit ∨ s.codeLimit + s.computeSize ≤ k) →
    (s.link.args.uuid = .hash → ∀ uuid, k < (s.state.hdr .machHdr).offset ∨
      (s.state.hdr .machHdr).offset + (s.machHeader uuid).length ≤ k) →
    mem k = before k

def headerEnd : ℕ :=
  (s.state.hdr .machHdr).offset + (s.machHeader s.state.uuid).length

/-- The pages that are hashed again are in front of the signature and contain the
Mach-O header. -/
def HeaderRehashed : Prop :=
  s.headerEnd ≤ s.rehashed * s.pageSize ∧ s.rehashed * s.pageSize ≤ s.codeLimit

end Write

end Signing

/-! ## Every page has its hash -/

namespace Signing

variable (s : Signing)

theorem pageSize_pos : 0 < s.pageSize := Nat.two_pow_pos s.pageBits

theorem rehashed_le (h : s.rehashed * s.pageSize ≤ s.codeLimit) :
    ∀ i ∈ List.range s.rehashed, i * s.pageSize ≤ s.codeLimit := by
  intro i hi
  exact (Nat.mul_le_mul_right s.pageSize (Nat.le_of_lt (List.mem_range.mp hi))).trans h

theorem pageEnd_le (i : ℕ) : s.pageEnd i ≤ s.codeLimit := Nat.min_le_right _ _

theorem lt_numBlocks_iff (i : ℕ) : i < s.numBlocks ↔ i * s.pageSize < s.codeLimit := by
  have hpos := s.pageSize_pos
  have hround : s.numBlocks = (s.codeLimit + s.pageSize - 1) / s.pageSize := by
    rw [numBlocks, alignUp, Nat.mul_div_cancel _ hpos]
  rw [hround, Nat.lt_iff_add_one_le, Nat.le_div_iff_mul_le hpos, Nat.succ_mul]
  omega

theorem lt_pageEnd_iff {i k : ℕ} : k < s.pageEnd i ↔ k < (i + 1) * s.pageSize ∧ k < s.codeLimit :=
  Nat.lt_min

theorem existsUnique_page {k : ℕ} (hk : k < s.codeLimit) :
    ∃! i, i < s.numBlocks ∧ i * s.pageSize ≤ k ∧ k < s.pageEnd i := by
  have hpos := s.pageSize_pos
  refine ⟨k / s.pageSize, ⟨?_, Nat.div_mul_le_self _ _, ?_⟩, ?_⟩
  · rw [lt_numBlocks_iff]
    exact Nat.lt_of_le_of_lt (Nat.div_mul_le_self _ _) hk
  · rw [lt_pageEnd_iff]
    exact ⟨by rw [Nat.mul_comm]; exact Nat.lt_mul_div_succ k hpos, hk⟩
  · rintro i ⟨-, hlow, hhigh⟩
    rw [lt_pageEnd_iff] at hhigh
    exact (Nat.div_eq_of_lt_le hlow hhigh.1).symm

variable {mem mem' : Memory}

theorem page_congr {i : ℕ} (h : ∀ k, i * s.pageSize ≤ k → k < s.codeLimit → mem k = mem' k) :
    s.page mem i = s.page mem' i := by
  apply loadBytes_congr
  intro k hlow hhigh
  have hle := s.pageEnd_le i
  exact h k hlow (by omega)

/-! ## Hashing -/

theorem codeLimit_le_slot (i : ℕ) : s.codeLimit + 112 ≤ s.slot i := by
  rw [slot]
  omega

theorem slot_numBlocks : s.slot s.numBlocks = s.codeLimit + s.computeSize := by
  rw [slot, computeSize]
  omega

theorem slot_apart {i j : ℕ} (h : i ≠ j) : s.slot i + 32 ≤ s.slot j ∨ s.slot j + 32 ≤ s.slot i := by
  rw [slot, slot]
  omega

section Write

variable (sha256 : Hash)

structure Hashed (order : List ℕ) (mem mem' : Memory) : Prop where
  slots : ∀ i ∈ order, loadBytes mem' (s.slot i) 32 = List.ofFn (sha256 (s.page mem i))
  frame : ∀ k, (∀ i ∈ order, k < s.slot i ∨ s.slot i + 32 ≤ k) → mem' k = mem k

variable {sha256}

theorem Hashed.of_lt {order : List ℕ}
    (h : s.Hashed sha256 order mem mem') {k : ℕ} (hk : k < s.codeLimit + 112) :
    mem' k = mem k := by
  apply h.frame
  intro i _
  have hslot := s.codeLimit_le_slot i
  omega

theorem Hashed.page_eq {order : List ℕ}
    (h : s.Hashed sha256 order mem mem') (i : ℕ) : s.page mem' i = s.page mem i :=
  s.page_congr fun k _ hk => h.of_lt s (by omega)

variable (sha256)

theorem computeHash_spec (mem : Memory) {i : ℕ} (hi : i * s.pageSize ≤ s.codeLimit) :
    ∃ mem', s.computeHash sha256 mem i = some mem' ∧ s.Hashed sha256 [i] mem mem' := by
  have hle : i * s.pageSize ≤ s.pageEnd i :=
    Nat.le_min.mpr ⟨Nat.mul_le_mul_right _ (Nat.le_succ i), hi⟩
  refine ⟨_, if_pos hle, ?_, ?_⟩
  · intro j hj
    rw [List.mem_singleton.mp hj]
    have hload := loadBytes_storeBytes_self mem (s.slot i) (List.ofFn (sha256 (s.page mem i)))
    rwa [List.length_ofFn] at hload
  · intro k hk
    rcases hk i (List.mem_singleton_self i) with hlt | hge
    · exact storeBytes_of_lt hlt
    · apply storeBytes_of_le
      rwa [List.length_ofFn]

theorem hashed_foldlM (order : List ℕ) (horder : ∀ i ∈ order, i * s.pageSize ≤ s.codeLimit)
    (mem : Memory) :
    ∃ mem', order.foldlM (s.computeHash sha256) mem = some mem' ∧
      s.Hashed sha256 order mem mem' := by
  induction order generalizing mem with
  | nil =>
    exact ⟨mem, rfl, fun i hi => absurd hi List.not_mem_nil, fun k _ => rfl⟩
  | cons i order ih =>
    obtain ⟨mem₁, hone, hfirst⟩ :=
      s.computeHash_spec sha256 mem (horder i List.mem_cons_self)
    obtain ⟨mem₂, hrest, hlater⟩ :=
      ih (fun j hj => horder j (List.mem_cons_of_mem i hj)) mem₁
    refine ⟨mem₂, ?_, ?_, ?_⟩
    · rw [List.foldlM_cons, hone]
      exact hrest
    · intro j hj
      by_cases hmem : j ∈ order
      · rw [hlater.slots j hmem, hfirst.page_eq]
      · have hji : j = i := (List.mem_cons.mp hj).resolve_right hmem
        rw [hji] at hmem ⊢
        rw [← hfirst.slots i (List.mem_singleton_self i)]
        apply loadBytes_congr
        intro k hlow hhigh
        apply hlater.frame
        intro j' hj'
        have hne : j' ≠ i := fun h => hmem (h ▸ hj')
        have hapart := s.slot_apart hne
        omega
    · intro k hk
      rw [hlater.frame k fun j hj => hk j (List.mem_cons_of_mem i hj)]
      apply hfirst.frame
      intro j hj
      rw [List.mem_singleton.mp hj]
      exact hk i List.mem_cons_self

/-! ## The headers of the signature -/

theorem length_be (n x : ℕ) : (be n x).length = n := by
  rw [be, List.length_reverse, length_le]

theorem readBe_be {n x : ℕ} (h : x < 256 ^ n) : readBe (be n x) = x := by
  rw [readBe, be, List.reverse_reverse, readLe_le_of_lt h]

theorem length_headersFront : s.headersFront.length = 52 := by
  simp only [headersFront, List.length_append, length_be]

theorem length_headers_le : s.headers.length + 1 ≤ 112 + s.filenameSize := by
  have hle : (filename s.link.args.finalOutput).length + 1 ≤ s.filenameSize :=
    le_alignUp (by decide) _
  simp only [headers, headersBack, List.length_append, length_be, length_headersFront]
  omega

theorem le_length_headers : 60 ≤ s.headers.length := by
  simp only [headers, List.length_append, length_be, length_headersFront]
  omega

theorem head?_headers : s.headers.head? = some 0xfa := by
  rw [headers, headersFront]
  rfl

theorem take_drop_numBlocks : (s.headers.drop 52).take 4 = be 4 s.numBlocks := by
  rw [headers, drop_append_of_length _ s.length_headersFront]
  exact take_append_of_length _ (length_be _ _)

theorem take_drop_codeLimit : (s.headers.drop 56).take 4 = be 4 s.codeLimit := by
  have hskip : s.headers.drop (52 + 4) = _ := (List.drop_drop).symm
  rw [hskip, headers, drop_append_of_length _ s.length_headersFront,
    drop_append_of_length _ (length_be _ _)]
  exact take_append_of_length _ (length_be _ _)

end Write

/-! ## The header of the file -/

theorem length_machHeader (uuid uuid' : Fin 16 → Byte) :
    (s.machHeader uuid).length = (s.machHeader uuid').length := by
  have hlen := length_copyBuf s.link (s.withUuid uuid)
  have hlen' := length_copyBuf s.link (s.withUuid uuid')
  have hslack : slack s.link (s.withUuid uuid) = slack s.link (s.withUuid uuid') := rfl
  rw [machHeader, machHeader]
  omega

theorem headerEnd_eq (uuid : Fin 16 → Byte) : s.headerEnd =
    (s.state.hdr .machHdr).offset + (s.machHeader uuid).length := by
  rw [headerEnd, s.length_machHeader uuid s.state.uuid]

section Signed

variable (sha256 : Hash) {order : List ℕ} (horder : order.Perm (List.range s.numBlocks))
include horder

theorem exists_hashed (before : Memory) : ∃ mem mem₁,
    mem = storeBytes (storeBytes before s.codeLimit (List.replicate s.computeSize 0))
      s.codeLimit s.headers ∧
    order.foldlM (s.computeHash sha256) mem = some mem₁ ∧ s.Hashed sha256 order mem mem₁ := by
  have hin : ∀ i ∈ order, i * s.pageSize ≤ s.codeLimit := by
    intro i hi
    have hlt := List.mem_range.mp (horder.mem_iff.mp hi)
    exact Nat.le_of_lt ((s.lt_numBlocks_iff i).mp hlt)
  obtain ⟨mem₁, hrun, hhashed⟩ := s.hashed_foldlM sha256 order hin _
  exact ⟨_, mem₁, rfl, hrun, hhashed⟩

/-- The signature is right after the first hashing, for the memory in which the pages
were hashed. -/
structure Prepared (before mem : Memory) : Prop where
  magic : mem s.codeLimit = 0xfa
  nCodeSlots : readBe (loadBytes mem (s.codeLimit + 52) 4) = s.numBlocks
  codeLimit : readBe (loadBytes mem (s.codeLimit + 56) 4) = s.codeLimit
  slots : ∀ i < s.numBlocks, loadBytes mem (s.slot i) 32 = List.ofFn (sha256 (s.page mem i))
  frame : ∀ k, k < s.codeLimit ∨ s.codeLimit + s.computeSize ≤ k → mem k = before k

omit horder in
theorem numBlocks_lt : s.numBlocks < 256 ^ 4 := by
  have hlt : s.codeLimit < 2 ^ 32 := s.offset_lt
  have hle : s.numBlocks ≤ s.codeLimit := by
    by_contra hgt
    have hmul := (s.lt_numBlocks_iff s.codeLimit).mp (by omega)
    exact absurd hmul (Nat.not_lt.mpr (Nat.le_mul_of_pos_right _ s.pageSize_pos))
  omega

theorem prepared_of_order (before : Memory) : ∃ mem,
    order.foldlM (s.computeHash sha256)
      (storeBytes (storeBytes before s.codeLimit (List.replicate s.computeSize 0))
        s.codeLimit s.headers) = some mem ∧ s.Prepared sha256 before mem := by
  obtain ⟨mem, mem₁, hmem, hrun, hhashed⟩ := s.exists_hashed sha256 horder before
  have hlength := s.length_headers_le
  have hlow := s.le_length_headers
  have hload (i : ℕ) (hi : i + 4 ≤ 60) :
      loadBytes mem₁ (s.codeLimit + i) 4 = (s.headers.drop i).take 4 := by
    have hstored := loadBytes_storeBytes
      (storeBytes before s.codeLimit (List.replicate s.computeSize 0)) s.codeLimit
      (Nat.le_trans hi hlow)
    rw [← hstored, ← hmem]
    exact loadBytes_congr fun k _ hk => hhashed.of_lt s (by omega)
  refine ⟨mem₁, hmem ▸ hrun, ?_, ?_, ?_, ?_, ?_⟩
  · have hfirst := s.head?_headers
    rw [List.head?_eq_getElem?, List.getElem?_eq_getElem (by omega), Option.some_inj] at hfirst
    have hstored : mem (s.codeLimit + 0) = s.headers[0] := hmem ▸ storeBytes_apply (by omega)
    rw [hhashed.of_lt s (by omega), ← hfirst]
    exact hstored
  · rw [hload 52 (by omega), s.take_drop_numBlocks, readBe_be s.numBlocks_lt]
  · rw [hload 56 (by omega), s.take_drop_codeLimit]
    exact readBe_be s.offset_lt
  · intro i hi
    rw [hhashed.slots i (horder.mem_iff.mpr (List.mem_range.mpr hi)), hhashed.page_eq]
  · intro k hk
    have hslots : mem₁ k = mem k := by
      apply hhashed.frame
      intro i hi
      have hlt := List.mem_range.mp (horder.mem_iff.mp hi)
      have hlast := s.slot_numBlocks
      have hfirst := s.codeLimit_le_slot i
      rw [slot] at hlast ⊢
      omega
    have hsize : s.headers.length ≤ s.computeSize := by
      rw [computeSize]
      omega
    rw [hslots, hmem]
    rcases hk with hk | hk
    · rw [storeBytes_of_lt hk, storeBytes_of_lt hk]
    · rw [storeBytes_of_le (by omega), storeBytes_of_le (by rw [List.length_replicate]; omega)]

theorem signed_of_headerRehashed (h : s.link.args.uuid = .hash → s.HeaderRehashed)
    (before : Memory) :
    ∃ mem, s.writeSignature sha256 order before = some mem ∧ s.Signed sha256 before mem := by
  obtain ⟨mem₁, hrun, hprepared⟩ := s.prepared_of_order sha256 horder before
  by_cases huuid : s.link.args.uuid = .hash
  · obtain ⟨hend, hfront⟩ := h huuid
    set uuid := uuidOf (sha256 (loadBytes mem₁ s.codeLimit s.computeSize)) with huuidOf
    set mem₂ := storeBytes mem₁ (s.state.hdr .machHdr).offset (s.machHeader uuid) with hmem₂
    have hheader (k : ℕ) (hk : s.rehashed * s.pageSize ≤ k) : mem₂ k = mem₁ k := by
      apply storeBytes_of_le
      rw [s.headerEnd_eq uuid] at hend
      omega
    obtain ⟨mem₃, hagain, hhashed⟩ := s.hashed_foldlM sha256 _ (s.rehashed_le hfront) mem₂
    have hrange (i : ℕ) (hi : i < s.rehashed) : s.slot i + 32 ≤ s.codeLimit + s.computeSize := by
      have hle := Nat.mul_le_mul_right s.pageSize (Nat.succ_le_of_lt hi)
      have hpos := s.pageSize_pos
      rw [Nat.succ_mul] at hle
      have hlt := (s.lt_numBlocks_iff i).mpr (by omega)
      have hlast := s.slot_numBlocks
      rw [slot] at hlast ⊢
      omega
    have hfields (i : ℕ) (hi : i + 4 ≤ 60) :
        loadBytes mem₃ (s.codeLimit + i) 4 = loadBytes mem₁ (s.codeLimit + i) 4 := by
      apply loadBytes_congr
      intro k hlow hk
      rw [hhashed.of_lt s (by omega), hheader k (by omega)]
    refine ⟨mem₃, ?_, ?_, ?_, ?_, ?_, s.slot_numBlocks, ?_⟩
    · simp only [writeSignature, hrun, Option.bind_some, if_pos huuid]
      exact hagain
    · rw [hfields 52 (by omega), hprepared.nCodeSlots]
    · rw [hfields 56 (by omega), hprepared.codeLimit]
    · intro i hi
      rw [hhashed.page_eq]
      by_cases hagain' : i < s.rehashed
      · exact hhashed.slots i (List.mem_range.mpr hagain')
      · have hpage : s.page mem₂ i = s.page mem₁ i := by
          apply s.page_congr
          intro k hlow _
          have hle := Nat.mul_le_mul_right s.pageSize (Nat.le_of_not_lt hagain')
          exact hheader k (by omega)
        rw [hpage, ← hprepared.slots i hi]
        apply loadBytes_congr
        intro k hlow hhigh
        have hslot := s.codeLimit_le_slot i
        rw [hhashed.frame k, hheader k (by omega)]
        intro j hj
        have hne : i ≠ j := fun heq => hagain' (heq ▸ List.mem_range.mp hj)
        have hapart := s.slot_apart hne
        omega
    · exact fun k hk => s.existsUnique_page hk
    · intro k hk hout
      have hslots : mem₃ k = mem₂ k := by
        apply hhashed.frame
        intro i hi
        have hslot := s.codeLimit_le_slot i
        have hend := hrange i (List.mem_range.mp hi)
        omega
      have hmem : mem₂ k = mem₁ k := by
        rcases hout huuid uuid with hlt | hle
        · exact storeBytes_of_lt hlt
        · exact storeBytes_of_le hle
      rw [hslots, hmem, hprepared.frame k hk]
  · refine ⟨mem₁, ?_, hprepared.nCodeSlots, hprepared.codeLimit, hprepared.slots,
      fun k hk => s.existsUnique_page hk, s.slot_numBlocks, fun k hk _ => hprepared.frame k hk⟩
    simp only [writeSignature, hrun, Option.bind_some, if_neg huuid]

end Signed

theorem head?_page {mem : Memory} {i : ℕ} (h : i * s.pageSize < s.codeLimit) :
    (s.page mem i).head? = some (mem (i * s.pageSize)) := by
  have hpos := s.pageSize_pos
  have hlt : i * s.pageSize < s.pageEnd i :=
    s.lt_pageEnd_iff.mpr ⟨by rw [Nat.succ_mul]; omega, h⟩
  exact head?_loadBytes mem _ (by omega)

theorem exists_byte_ne (x y : Byte) : ∃ b : Byte, b ≠ x ∧ b ≠ y := by
  by_contra hnone
  have hall (b : Byte) (hb : b ≠ x) : b = y := by
    by_contra hy
    exact hnone ⟨b, hb, hy⟩
  have hzero := hall 0
  have hone := hall 1
  have htwo := hall 2
  grind

theorem exists_not_signed (huuid : s.link.args.uuid = .hash)
    (hstart : (s.state.hdr .machHdr).offset ≤ s.rehashed * s.pageSize)
    (hlong : s.rehashed * s.pageSize < s.headerEnd) (hend : s.headerEnd ≤ s.codeLimit) :
    ∃ sha256 before, ∀ order mem, order.Perm (List.range s.numBlocks) →
      s.writeSignature sha256 order before = some mem → ¬ s.Signed sha256 before mem := by
  have hpage : s.rehashed * s.pageSize < s.codeLimit := by omega
  have hlast := (s.lt_numBlocks_iff s.rehashed).mpr hpage
  have hlen := s.headerEnd_eq (uuidOf fun _ => 0)
  obtain ⟨b, hb, hfa⟩ := exists_byte_ne ((s.machHeader (uuidOf fun _ => 0)).get
    ⟨s.rehashed * s.pageSize - (s.state.hdr .machHdr).offset, by omega⟩) 0xfa
  let sha256 : Hash := fun bytes _ => if bytes.head? = some b then 1 else 0
  refine ⟨sha256, fun _ => b, ?_⟩
  intro order mem horder hwrite hsigned
  obtain ⟨mem₁, hrun, hprepared⟩ := s.prepared_of_order sha256 horder fun _ => b
  have hones : loadBytes mem₁ (s.slot s.rehashed) 32 = List.ofFn fun _ : Fin 32 => (1 : Byte) := by
    rw [hprepared.slots _ hlast]
    congr 1
    funext j
    exact if_pos (by rw [s.head?_page hpage, hprepared.frame _ (Or.inl hpage)])
  have hfirst : (loadBytes mem₁ s.codeLimit s.computeSize).head? ≠ some b := by
    rw [head?_loadBytes _ _ (by rw [computeSize]; omega), hprepared.magic]
    exact fun h => hfa (Option.some_inj.mp h).symm
  have hhash : sha256 (loadBytes mem₁ s.codeLimit s.computeSize) = fun _ => 0 :=
    funext fun j => if_neg hfirst
  simp only [writeSignature, hrun, Option.bind_some, if_pos huuid, hhash] at hwrite
  set mem₂ := storeBytes mem₁ (s.state.hdr .machHdr).offset
    (s.machHeader (uuidOf fun _ => 0)) with hmem₂
  obtain ⟨mem₃, hagain, hhashed⟩ := s.hashed_foldlM sha256 _ (s.rehashed_le hpage.le) mem₂
  have hmem : mem₃ = mem := by
    rw [hagain] at hwrite
    exact Option.some_inj.mp hwrite
  have hkept : loadBytes mem₃ (s.slot s.rehashed) 32 = loadBytes mem₁ (s.slot s.rehashed) 32 := by
    apply loadBytes_congr
    intro k hlow hhigh
    have hslot := s.codeLimit_le_slot s.rehashed
    rw [hhashed.frame k, hmem₂, storeBytes_of_le (by omega)]
    intro j hj
    have hne : s.rehashed ≠ j := (List.mem_range.mp hj).ne'
    have hapart := s.slot_apart hne
    omega
  have hzeros : sha256 (s.page mem₃ s.rehashed) = fun _ => 0 := by
    funext j
    apply if_neg
    rw [hhashed.page_eq, s.head?_page hpage]
    intro h
    have hstored : mem₂ ((s.state.hdr .machHdr).offset +
        (s.rehashed * s.pageSize - (s.state.hdr .machHdr).offset)) = _ :=
      storeBytes_apply (by omega)
    rw [Nat.add_sub_cancel' hstart, Option.some_inj.mp h] at hstored
    exact hb hstored
  have hslot := hsigned.slots _ hlast
  rw [← hmem, hkept, hones, hzeros] at hslot
  exact absurd hslot (by decide)

/-- If the UUID is not a hash, or if the Mach-O header lies in the pages that are hashed
again, then every page has its hash, whatever the hash function and the file are.
Otherwise this fails for some hash function and file, unless the header reaches into the
signature. -/
theorem signed_of_placed :
    ((s.link.args.uuid = .hash → s.HeaderRehashed) →
      ∀ sha256 order before, order.Perm (List.range s.numBlocks) →
        ∃ mem, s.writeSignature sha256 order before = some mem ∧ s.Signed sha256 before mem) ∧
    (s.link.args.uuid = .hash → (s.state.hdr .machHdr).offset ≤ s.rehashed * s.pageSize →
      s.rehashed * s.pageSize < s.headerEnd → s.headerEnd ≤ s.codeLimit →
      ∃ sha256 before, ∀ order mem, order.Perm (List.range s.numBlocks) →
        s.writeSignature sha256 order before = some mem → ¬ s.Signed sha256 before mem) :=
  ⟨fun h sha256 _ before horder => s.signed_of_headerRehashed sha256 horder h before,
    s.exists_not_signed⟩

end Signing

/-- A signed bundle with a long name in `-rpath` that is linked with
`-headerpad -100`. -/
def longRpath : Link :=
  { emptyBundle with
    args :=
      { emptyBundle.args with
        headerpad := -0x100
        headerpad_ge := by decide
        headerpad_lt := by decide
        adhocCodesign := true
        rpaths := [List.replicate 3800 0x2f] }
    chunks := [.machHdr, .export_, .symtab, .indirSymtab, .strtab, .codeSig]
    machHdr_mem := List.mem_cons_self
    segname_mem := by decide }

theorem commandsSize_longRpath : commandsSize longRpath = 4200 := by
  have hsegments : longRpath.segments = [ascii "__TEXT", ascii "__LINKEDIT"] :=
    emptyBundle_segments
  have hmembers (segname : List Byte) :
      (longRpath.members segname).filter (fun sec => !sec.isHidden) = [] := by
    apply List.filter_eq_nil_iff.mpr
    have hchunks : longRpath.chunks =
        [.machHdr, .export_, .symtab, .indirSymtab, .strtab, .codeSig] := rfl
    have hhidden : ∀ chunk ∈ longRpath.chunks, ¬ (!chunk.isHidden) = true := by
      rw [hchunks]
      decide
    exact fun chunk hchunk => hhidden chunk (List.mem_filter.mp hchunk).1
  have hrpath : (longRpath.args.rpaths.map (stringSize 12)).sum = 3816 := by
    have hrpaths : longRpath.args.rpaths = [List.replicate 3800 0x2f] := rfl
    rw [hrpaths, List.map_singleton, List.sum_singleton, stringSize, List.length_replicate]
    rfl
  rw [commandsSize, hsegments, hrpath]
  simp only [hmembers]
  rfl

/-- The Mach-O header has the size that is computed for this link. -/
def longRpathSigning : Signing where
  link := longRpath
  state :=
    { emptyBundleRun.after with
      hdr := fun chunk => match chunk with
        | .machHdr => ⟨[], 0, 3976, 0, 0, 0, 0, 0, 0, 0, 0, 0⟩
        | .codeSig => ⟨[], 0x2100, 0, 0x2100, 4, 0, 0, 0, 0, 0, 0, 0⟩
        | _ => ⟨[], 0, 0, 0, 0, 0, 0, 0, 0, 0, 0, 0⟩ }
  pageBits := 12
  offset_lt := by decide

/-- The last load command is in a page that is not hashed again. -/
theorem longRpathSigning_not_signed :
    LoadCommands.computeSize longRpath longRpathSigning.state = 3976 ∧
      ¬ ∀ sha256 order before, order.Perm (List.range longRpathSigning.numBlocks) →
        ∃ mem, longRpathSigning.writeSignature sha256 order before = some mem ∧
          longRpathSigning.Signed sha256 before mem := by
  have hsize := commandsSize_longRpath
  have hlist := length_createLoadCommands longRpath longRpathSigning.state
  have hlength := length_copyBuf longRpath (longRpathSigning.withUuid longRpathSigning.state.uuid)
  have hslack : slack longRpath longRpathSigning.state = 0 := rfl
  have hslack' : slack longRpath (longRpathSigning.withUuid longRpathSigning.state.uuid) = 0 := rfl
  have hpad : longRpath.args.headerpad = -0x100 := rfl
  have hend : longRpathSigning.headerEnd = 4232 := by
    change 0 + (copyBuf longRpath _).length = _
    omega
  have hrehashed : longRpathSigning.rehashed * longRpathSigning.pageSize = 4096 := rfl
  have hlimit : longRpathSigning.codeLimit = 0x2100 := rfl
  constructor
  · rw [LoadCommands.computeSize, hpad]
    omega
  · intro hall
    obtain ⟨sha256, before, hwrong⟩ := longRpathSigning.exists_not_signed rfl
      (Nat.zero_le _) (by omega) (by omega)
    obtain ⟨mem, hwrite, hsigned⟩ := hall sha256 _ before (List.Perm.refl _)
    exact hwrong _ mem (List.Perm.refl _) hwrite hsigned

theorem commandsSize_headerpad (link : Link) {pad : ℤ} (hge : -2 ^ 63 ≤ pad) (hlt : pad < 2 ^ 63) :
    commandsSize { link with args := { link.args with
      headerpad := pad, headerpad_ge := hge, headerpad_lt := hlt } } = commandsSize link := rfl

/-- The same bundle without `-headerpad`. -/
def shortHeader : Signing where
  link :=
    { longRpath with
      args :=
        { longRpath.args with
          headerpad := 0
          headerpad_ge := by decide
          headerpad_lt := by decide } }
  state :=
    { longRpathSigning.state with
      hdr := fun chunk => match chunk with
        | .machHdr => ⟨[], 0, 4232, 0, 0, 0, 0, 0, 0, 0, 0, 0⟩
        | _ => longRpathSigning.state.hdr chunk }
  pageBits := 12
  offset_lt := by decide

/-- Both pages are hashed again. -/
theorem headerRehashed_shortHeader :
    LoadCommands.computeSize shortHeader.link shortHeader.state = 4232 ∧
      shortHeader.HeaderRehashed := by
  have hsize : commandsSize shortHeader.link = 4200 :=
    (commandsSize_headerpad longRpath (by decide) (by decide)).trans commandsSize_longRpath
  have hlist := length_createLoadCommands shortHeader.link shortHeader.state
  have hlength := length_copyBuf shortHeader.link (shortHeader.withUuid shortHeader.state.uuid)
  have hslack : slack shortHeader.link shortHeader.state = 0 := rfl
  have hslack' : slack shortHeader.link (shortHeader.withUuid shortHeader.state.uuid) = 0 := rfl
  have hpad : shortHeader.link.args.headerpad = 0 := rfl
  have hend : shortHeader.headerEnd = 4232 := by
    change 0 + (copyBuf shortHeader.link _).length = _
    omega
  have hrehashed : shortHeader.rehashed * shortHeader.pageSize = 8192 := rfl
  have hlimit : shortHeader.codeLimit = 0x2100 := rfl
  refine ⟨?_, ?_⟩
  · rw [LoadCommands.computeSize, hpad]
    omega
  · rw [Signing.HeaderRehashed]
    omega

end Mold.MachO.CodeSignature
