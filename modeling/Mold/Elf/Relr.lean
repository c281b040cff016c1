import Mold.Elf.DynamicRelocs
import Mold.Lib.Layout
import Mold.Lib.PackedAddresses

/-!
# Packed relative relocations

With `--pack-dyn-relocs=relr` the relative relocations of an output section go
to `.relr.dyn`.  Three places decide which relocations these are: the scan, the
construction of the section and the application of the relocations.  They agree
under a condition on the sections and the symbols, and then every pointer is
relocated once.

`encode_relr` packs the offsets of one section, and `RelrDynSection::copy_buf` writes the
packed lists of all sections behind one another, with the address of the section added to
each entry that is an offset.  A loader gets the offsets back, in order, unless a section is
at an odd address.
-/

namespace Mold.Elf

variable {σ : Type*}

/-- An output section with its members in place.  Its flags are those of the
members.  Its address is any number, as `--section-start` sets it. -/
structure OutputSection (σ : Type*) where
  isAlloc : Bool
  isExec : Bool
  /-- The exponent that `--section-align` gives. -/
  sectionP2align : Option ℕ := none
  shAddr : ℕ
  members : List (InputSection σ)
  flags_eq : ∀ isec ∈ members, isec.isAlloc = isAlloc ∧ isec.isExec = isExec
  offset_dvd : ∀ isec ∈ members, 2 ^ isec.p2align ∣ isec.offset

namespace OutputSection

/-- The alignment that `compute_section_sizes` computes. -/
def shAddralign (osec : OutputSection σ) : ℕ :=
  let align := 2 ^ (osec.members.map InputSection.p2align).foldl max 0
  match osec.sectionP2align with
  | some k => max align (2 ^ k)
  | none => align

variable (word : WordSize) (args : Args) (syms : σ → Symbol)

/-- The relocations of a member that `construct_relr` collects. -/
def collectShard (isec : InputSection σ) : List (Rel σ) :=
  if 2 ^ isec.p2align < word.bytes then []
  else
    isec.rels.filter fun rel =>
      rel.rType = .abs && rel.rOffset % word.bytes = 0 &&
        !(syms rel.rSym).isAbsolute && !(syms rel.rSym).isImported

/-- The relocations that `construct_relr` collects. -/
def collectRelr (osec : OutputSection σ) : List (InputSection σ × Rel σ) :=
  if !args.pic then []
  else if !osec.isAlloc then []
  else if osec.shAddralign % word.bytes ≠ 0 then []
  else if osec.isExec then []
  else osec.members.flatMap fun isec =>
    (collectShard word syms isec).map fun rel => (isec, rel)

def place (e : InputSection σ × Rel σ) : ℕ := (e.1.offset + e.2.rOffset) % 2 ^ 64

def constructRelr (osec : OutputSection σ) : List ℕ :=
  Lib.pack word.bytes (2 ^ 64) ((collectRelr word args syms osec).map place)

end OutputSection

/-! ## The output -/

/-- A position-independent link: the symbols when the relocations are scanned
and when the sections are written, the output sections and the entries of `.got`
that need a relative relocation. -/
structure PicLink (σ : Type*) where
  word : WordSize
  args : Args
  pic : args.pic = true
  scanSyms : σ → Symbol
  copySyms : σ → Symbol
  osecs : List (OutputSection σ)
  gotAddr : ℕ
  gotRelr : List ℕ

namespace PicLink

variable (link : PicLink σ)

/-- The places in `.got` with a relative relocation. -/
def gotPlaces : List ℕ := link.gotRelr.map (· * link.word.bytes)

/-- `RelrDynSection::copy_buf` -/
def relrDyn : List ℕ :=
  if link.args.packDynRelocsRelr then
    Lib.rebase (2 ^ link.word.bits) link.gotAddr
        (Lib.pack link.word.bytes (2 ^ 64) link.gotPlaces) ++
      link.osecs.flatMap fun osec => Lib.rebase (2 ^ link.word.bits) osec.shAddr
        (osec.constructRelr link.word link.args link.scanSyms)
  else []

/-- The addresses that a loader reads from `.relr.dyn`. -/
def relrAddrs : List ℕ := Lib.unpack link.word.bytes (2 ^ link.word.bits) 0 link.relrDyn

/-- The relocation was collected for `.relr.dyn`. -/
def IsCollected (osec : OutputSection σ) (isec : InputSection σ) (rel : Rel σ) : Prop :=
  link.args.packDynRelocsRelr = true ∧
    (isec, rel) ∈ osec.collectRelr link.word link.args link.scanSyms

/-- The scan does not count the relocation because it goes to `.relr.dyn`. -/
def ScanSkips (isec : InputSection σ) (rel : Rel σ) : Prop :=
  getWordAction link.args isec (link.scanSyms rel.rSym) = .baserel ∧
    isec.isRelrReloc link.word link.args rel = true

/-- No dynamic relocation is written because the relocation went to
`.relr.dyn`. -/
def ApplySkips (isec : InputSection σ) (rel : Rel σ) : Prop :=
  getWordAction link.args isec (link.copySyms rel.rSym) = .baserel ∧
    isec.isRelrReloc link.word link.args rel = true

def dynRels (osec : OutputSection σ) (isec : InputSection σ) (rel : Rel σ) : List DynRel :=
  if isec.isWritten then
    (applyAbsrel link.word link.args isec (link.copySyms rel.rSym) rel
      (osec.shAddr + isec.offset + rel.rOffset)
      (getWordAction link.args isec (link.copySyms rel.rSym))).dynrel
  else []

/-- The addresses that should be read from `.relr.dyn`. -/
def collectedAddrs : List ℕ :=
  if link.args.packDynRelocsRelr then
    (link.gotPlaces.map fun p => (link.gotAddr + p) % 2 ^ link.word.bits) ++
      link.osecs.flatMap fun osec =>
        (osec.collectRelr link.word link.args link.scanSyms).map fun e =>
          (osec.shAddr + OutputSection.place e) % 2 ^ link.word.bits
  else []

open Classical in
/-- Every pointer is relocated once: `.relr.dyn` stands for the relocations that
were collected, these are the relocations that the scan and the application
leave to it, and every other pointer has one dynamic relocation or an absolute
value. -/
structure RelocatedOnce : Prop where
  relrAddrs_eq : Lib.Represents link.relrAddrs link.collectedAddrs
  once : ∀ osec ∈ link.osecs, ∀ isec ∈ osec.members, ∀ rel ∈ isec.rels,
    isec.isAlloc = true → rel.rType = .abs →
      (if link.IsCollected osec isec rel then 1 else 0) + (link.dynRels osec isec rel).length = 1 ∨
        (if link.IsCollected osec isec rel then 1 else 0) +
            (link.dynRels osec isec rel).length = 0 ∧
          (link.copySyms rel.rSym).isAbsolute = true
  scan_iff : ∀ osec ∈ link.osecs, ∀ isec ∈ osec.members, ∀ rel ∈ isec.rels,
    isec.isAlloc = true → rel.rType = .abs →
      (link.IsCollected osec isec rel ↔ link.ScanSkips isec rel)
  apply_iff : ∀ osec ∈ link.osecs, ∀ isec ∈ osec.members, ∀ rel ∈ isec.rels,
    isec.isAlloc = true → rel.rType = .abs →
      (link.IsCollected osec isec rel ↔ link.ApplySkips isec rel)

/-- `.got` has an even address if it has entries in `.relr.dyn`. -/
def GotEven : Prop :=
  link.args.packDynRelocsRelr = true → link.gotRelr ≠ [] → 2 ∣ link.gotAddr

/-- What the three decisions about a pointer have to agree on, and what `.relr.dyn` can
express. -/
structure PointerConsistent (osec : OutputSection σ) (isec : InputSection σ) (rel : Rel σ) :
    Prop where
  /-- A pointer in an aligned member is in an output section at an even address. -/
  even : link.args.packDynRelocsRelr = true → isec.isExec = false →
    rel.rOffset % link.word.bytes = 0 → (link.scanSyms rel.rSym).isAbsolute = false →
      (link.scanSyms rel.rSym).isImported = false → link.word.bytes ≤ 2 ^ isec.p2align →
        2 ∣ osec.shAddr
  /-- A pointer to a defined place is in a section whose alignment in the file
  says the same as the alignment that it is placed with. -/
  aligned : link.args.packDynRelocsRelr = true → isec.isExec = false →
    rel.rOffset % link.word.bytes = 0 → (link.scanSyms rel.rSym).isAbsolute = false →
      (link.scanSyms rel.rSym).isImported = false →
        (link.scanSyms rel.rSym).isIfunc = false →
          (link.word.bytes ∣ isec.shAddralign ↔ link.word.bytes ≤ 2 ^ isec.p2align)
  /-- A pointer to an ifunc is not in an aligned section. -/
  ifunc : link.args.packDynRelocsRelr = true → isec.isExec = false →
    rel.rOffset % link.word.bytes = 0 → (link.scanSyms rel.rSym).isAbsolute = false →
      (link.scanSyms rel.rSym).isImported = false →
        (link.scanSyms rel.rSym).isIfunc = true → 2 ^ isec.p2align < link.word.bytes
  /-- The symbol asks for the same relocation at both times. -/
  stable : isec.isRelrReloc link.word link.args rel = true →
    (getWordAction link.args isec (link.scanSyms rel.rSym) = .baserel ↔
      getWordAction link.args isec (link.copySyms rel.rSym) = .baserel)
  /-- The relocations of the section are applied, or need not be. -/
  written : isec.isWritten = true ∨ (link.copySyms rel.rSym).isAbsolute = true ∨
    link.ScanSkips isec rel

end PicLink

variable {args : Args}

theorem getWordAction_pic (hpic : args.pic = true) (isec : InputSection σ)
    (sym : Symbol) : getWordAction args isec sym =
      if sym.isIfunc then .ifunc
      else if sym.isAbsolute then .none
      else if sym.isImported then .dynrel
      else .baserel := by
  have htype : getOutputType args = .sharedObject ∨ getOutputType args = .pie := by
    unfold getOutputType
    cases hs : args.shared with
    | true => exact .inl rfl
    | false =>
      rw [Args.pic, hs, Bool.or_false] at hpic
      exact .inr (by rw [if_neg Bool.false_ne_true, if_pos hpic])
  have hrow : actionRow .none .baserel .dynrel .dynrel (getSymKind sym) =
      if sym.isAbsolute then .none else if sym.isImported then .dynrel else .baserel := by
    unfold getSymKind
    by_cases hfunc : sym.type = .func <;> cases sym.isAbsolute <;>
      cases sym.isImported <;> simp [hfunc, actionRow]
  rw [← hrow]
  unfold getWordAction getPpc64TocAction getDynAbsrelAction getRelAction
  rcases htype with h | h <;> rw [h] <;> exact ite_self _

theorem getWordAction_eq_baserel_iff (hpic : args.pic = true)
    (isec : InputSection σ) (sym : Symbol) :
    getWordAction args isec sym = .baserel ↔
      sym.isIfunc = false ∧ sym.isAbsolute = false ∧ sym.isImported = false := by
  rw [getWordAction_pic hpic]
  cases sym.isIfunc <;> cases sym.isAbsolute <;> cases sym.isImported <;> simp

theorem WordSize.exists_bytes_eq (word : WordSize) : ∃ k, word.bytes = 2 ^ k ∧ k ≤ 63 := by
  cases word with
  | word32 => exact ⟨2, rfl, by decide⟩
  | word64 => exact ⟨3, rfl, by decide⟩

theorem WordSize.bytes_dvd_two_pow (word : WordSize) {j : ℕ} (h : word.bytes ≤ 2 ^ j) :
    word.bytes ∣ 2 ^ j := by
  obtain ⟨k, hk, -⟩ := word.exists_bytes_eq
  rw [hk] at h ⊢
  exact pow_dvd_pow 2 ((Nat.pow_le_pow_iff_right (by decide)).mp h)

variable {osec : OutputSection σ} {word : WordSize}

theorem OutputSection.bytes_dvd_shAddralign
    {isec : InputSection σ} (hmem : isec ∈ osec.members)
    (h : word.bytes ≤ 2 ^ isec.p2align) : word.bytes ∣ osec.shAddralign := by
  have hle : isec.p2align ≤ (osec.members.map InputSection.p2align).foldl max 0 :=
    (Lib.le_foldl_max id _ 0).2 _ (List.mem_map_of_mem hmem)
  have hpow : word.bytes ≤ 2 ^ (osec.members.map InputSection.p2align).foldl max 0 :=
    h.trans (Nat.pow_le_pow_right (by decide) hle)
  unfold OutputSection.shAddralign
  cases osec.sectionP2align with
  | none => exact word.bytes_dvd_two_pow hpow
  | some k =>
    dsimp only
    rcases max_cases (2 ^ (osec.members.map InputSection.p2align).foldl max 0) (2 ^ k) with
      ⟨heq, -⟩ | ⟨heq, hlt⟩
    · rw [heq]
      exact word.bytes_dvd_two_pow hpow
    · rw [heq]
      exact word.bytes_dvd_two_pow (hpow.trans hlt.le)

variable {e : InputSection σ × Rel σ} {syms : σ → Symbol}

theorem OutputSection.of_mem_collectRelr (h : e ∈ osec.collectRelr word args syms) :
    osec.isAlloc = true ∧ e.1 ∈ osec.members ∧ e.2 ∈ e.1.rels ∧ e.2.rType = .abs ∧
      word.bytes ∣ 2 ^ e.1.p2align ∧ word.bytes ∣ e.2.rOffset := by
  unfold collectRelr at h
  split at h
  · cases h
  split at h
  · cases h
  next halloc =>
  split at h
  · cases h
  split at h
  · cases h
  obtain ⟨isec, hisec, hmem⟩ := List.mem_flatMap.mp h
  obtain ⟨rel, hrel, rfl⟩ := List.mem_map.mp hmem
  unfold collectShard at hrel
  split at hrel
  · cases hrel
  next hle =>
    obtain ⟨hrel, hword⟩ := List.mem_filter.mp hrel
    simp only [Bool.and_eq_true, decide_eq_true_eq] at hword
    exact ⟨by simpa using halloc, hisec, hrel, hword.1.1.1,
      word.bytes_dvd_two_pow (Nat.not_lt.mp hle), Nat.dvd_of_mod_eq_zero hword.1.1.2⟩

theorem OutputSection.rel_of_mem_collectRelr (h : e ∈ osec.collectRelr word args syms) :
    e.1 ∈ osec.members ∧ e.2 ∈ e.1.rels ∧ e.1.isAlloc = true ∧ e.2.rType = .abs := by
  obtain ⟨halloc, hisec, hrel, habs, -⟩ := of_mem_collectRelr h
  exact ⟨hisec, hrel, (osec.flags_eq e.1 hisec).1.trans halloc, habs⟩

theorem OutputSection.bytes_dvd_place
    (h : e ∈ osec.collectRelr word args syms) : word.bytes ∣ place e := by
  obtain ⟨-, hmem, -, -, halign, hoffset⟩ := of_mem_collectRelr h
  have hword : word.bytes ∣ 2 ^ 64 := by cases word <;> decide
  exact (Nat.dvd_mod_iff hword).mpr (Nat.dvd_add (halign.trans (osec.offset_dvd _ hmem)) hoffset)

/-! ## The three decisions -/

theorem InputSection.isRelrReloc_iff
    {isec : InputSection σ} {rel : Rel σ} : isec.isRelrReloc word args rel = true ↔
      args.packDynRelocsRelr = true ∧ isec.isExec = false ∧
        word.bytes ∣ isec.shAddralign ∧ rel.rOffset % word.bytes = 0 := by
  simp [InputSection.isRelrReloc, Nat.dvd_iff_mod_eq_zero, and_assoc]

namespace PicLink

variable {link : PicLink σ} {osec : OutputSection σ} {isec : InputSection σ} {rel : Rel σ}

theorem isCollected_iff (hisec : isec ∈ osec.members) (hrel : rel ∈ isec.rels)
    (halloc : isec.isAlloc = true) (habs : rel.rType = .abs) :
    link.IsCollected osec isec rel ↔
      link.args.packDynRelocsRelr = true ∧ isec.isExec = false ∧
        rel.rOffset % link.word.bytes = 0 ∧
          (link.scanSyms rel.rSym).isAbsolute = false ∧
            (link.scanSyms rel.rSym).isImported = false ∧ link.word.bytes ≤ 2 ^ isec.p2align := by
  obtain ⟨hosec, hexec⟩ := osec.flags_eq isec hisec
  rw [halloc] at hosec
  have hshard (isec : InputSection σ) :
      rel ∈ OutputSection.collectShard link.word link.scanSyms isec ↔
        link.word.bytes ≤ 2 ^ isec.p2align ∧ rel ∈ isec.rels ∧
          rel.rOffset % link.word.bytes = 0 ∧
            (link.scanSyms rel.rSym).isAbsolute = false ∧
              (link.scanSyms rel.rSym).isImported = false := by
    unfold OutputSection.collectShard
    by_cases hlt : 2 ^ isec.p2align < link.word.bytes
    · rw [if_pos hlt]
      exact iff_of_false (List.not_mem_nil) fun h => absurd h.1 (Nat.not_le.mpr hlt)
    · rw [if_neg hlt, List.mem_filter]
      simp [habs, Nat.not_lt.mp hlt, and_assoc]
  unfold IsCollected OutputSection.collectRelr
  rw [link.pic, ← hosec, ← hexec, if_neg (by decide), if_neg (by decide)]
  constructor
  · rintro ⟨hpack, hmem⟩
    by_cases halign : osec.shAddralign % link.word.bytes ≠ 0
    · rw [if_pos halign] at hmem
      cases hmem
    by_cases hne : isec.isExec = true
    · rw [if_neg halign, if_pos hne] at hmem
      cases hmem
    rw [if_neg halign, if_neg hne] at hmem
    obtain ⟨isec', -, hmem'⟩ := List.mem_flatMap.mp hmem
    obtain ⟨rel', hrel', heq⟩ := List.mem_map.mp hmem'
    obtain ⟨rfl, rfl⟩ := Prod.mk.inj heq
    obtain ⟨hle, -, hoff, hna, hni⟩ := (hshard _).mp hrel'
    exact ⟨hpack, Bool.eq_false_of_not_eq_true hne, hoff, hna, hni, hle⟩
  · rintro ⟨hpack, hne, hoff, hna, hni, hle⟩
    have hdvd := Nat.mod_eq_zero_of_dvd (OutputSection.bytes_dvd_shAddralign hisec hle)
    refine ⟨hpack, ?_⟩
    rw [if_neg (not_not.mpr hdvd), if_neg (by rw [hne]; decide)]
    exact List.mem_flatMap.mpr ⟨isec, hisec, List.mem_map.mpr
      ⟨rel, (hshard isec).mpr ⟨hle, hrel, hoff, hna, hni⟩, rfl⟩⟩

theorem scanSkips_iff : link.ScanSkips isec rel ↔
    ((link.scanSyms rel.rSym).isIfunc = false ∧
      (link.scanSyms rel.rSym).isAbsolute = false ∧ (link.scanSyms rel.rSym).isImported = false) ∧
      link.args.packDynRelocsRelr = true ∧ isec.isExec = false ∧
        link.word.bytes ∣ isec.shAddralign ∧ rel.rOffset % link.word.bytes = 0 := by
  rw [ScanSkips, getWordAction_eq_baserel_iff link.pic, InputSection.isRelrReloc_iff]

theorem isCollected_iff_scanSkips (hisec : isec ∈ osec.members) (hrel : rel ∈ isec.rels)
    (halloc : isec.isAlloc = true) (habs : rel.rType = .abs) :
    (link.IsCollected osec isec rel ↔ link.ScanSkips isec rel) ↔
      (link.args.packDynRelocsRelr = true → isec.isExec = false →
        rel.rOffset % link.word.bytes = 0 →
          (link.scanSyms rel.rSym).isAbsolute = false →
            (link.scanSyms rel.rSym).isImported = false →
              ((link.scanSyms rel.rSym).isIfunc = false →
                (link.word.bytes ∣ isec.shAddralign ↔ link.word.bytes ≤ 2 ^ isec.p2align)) ∧
              ((link.scanSyms rel.rSym).isIfunc = true → 2 ^ isec.p2align < link.word.bytes)) := by
  rw [isCollected_iff hisec hrel halloc habs, scanSkips_iff, ← Nat.not_le]
  by_cases hifunc : (link.scanSyms rel.rSym).isIfunc = true
  · rw [hifunc]
    tauto
  · rw [Bool.eq_false_of_not_eq_true hifunc]
    tauto

theorem scanSkips_iff_applySkips : (link.ScanSkips isec rel ↔ link.ApplySkips isec rel) ↔
    (isec.isRelrReloc link.word link.args rel = true →
      (getWordAction link.args isec (link.scanSyms rel.rSym) = .baserel ↔
        getWordAction link.args isec (link.copySyms rel.rSym) = .baserel)) := by
  unfold ScanSkips ApplySkips
  tauto

theorem length_dynRels (hwritten : isec.isWritten = true) :
    link.ApplySkips isec rel ∧ (link.dynRels osec isec rel).length = 0 ∨
      (link.copySyms rel.rSym).isAbsolute = true ∧ ¬ link.ApplySkips isec rel ∧
        (link.dynRels osec isec rel).length = 0 ∨
          ¬ link.ApplySkips isec rel ∧ (link.dynRels osec isec rel).length = 1 := by
  have hrels : link.dynRels osec isec rel =
      (applyAbsrel link.word link.args isec (link.copySyms rel.rSym) rel
        (osec.shAddr + isec.offset + rel.rOffset)
        (getWordAction link.args isec (link.copySyms rel.rSym))).dynrel := if_pos hwritten
  unfold ApplySkips
  rw [hrels, getWordAction_pic link.pic]
  by_cases hifunc : (link.copySyms rel.rSym).isIfunc = true
  · rw [if_pos hifunc]
    exact .inr (.inr ⟨fun h => Action.noConfusion h.1, rfl⟩)
  rw [if_neg hifunc]
  by_cases habs : (link.copySyms rel.rSym).isAbsolute = true
  · rw [if_pos habs]
    exact .inr (.inl ⟨habs, fun h => Action.noConfusion h.1, rfl⟩)
  rw [if_neg habs]
  by_cases himported : (link.copySyms rel.rSym).isImported = true
  · rw [if_pos himported]
    exact .inr (.inr ⟨fun h => Action.noConfusion h.1, rfl⟩)
  rw [if_neg himported, applyAbsrel]
  by_cases hrelr : isec.isRelrReloc link.word link.args rel = true
  · rw [if_pos hrelr]
    exact .inl ⟨⟨rfl, hrelr⟩, rfl⟩
  · rw [if_neg hrelr]
    exact .inr (.inr ⟨fun h => hrelr h.2, rfl⟩)

variable (link) in
/-- The sections with entries in `.relr.dyn` have even addresses. -/
def ChunksEven : Prop :=
  link.GotEven ∧ (link.args.packDynRelocsRelr = true → ∀ osec ∈ link.osecs,
    osec.collectRelr link.word link.args link.scanSyms ≠ [] → 2 ∣ osec.shAddr)

theorem represents_relrAddrs (heven : link.ChunksEven) :
    Lib.Represents link.relrAddrs link.collectedAddrs := by
  by_cases hpack : link.args.packDynRelocsRelr = true
  · have hchunks := @Lib.represents_unpack_flatMap link.word.bytes (2 ^ link.word.bits)
      (2 ^ 64) (by cases link.word <;> decide) (by cases link.word <;> decide)
      (by cases link.word <;> decide) (by cases link.word <;> decide) (by decide)
      (by cases link.word <;> decide) (by cases link.word <;> decide)
      (by cases link.word <;> decide)
      ((link.gotAddr, link.gotPlaces) :: link.osecs.map fun osec =>
        (osec.shAddr,
          (osec.collectRelr link.word link.args link.scanSyms).map OutputSection.place))
      ?_ ?_ 0
    · rw [List.flatMap_cons, List.flatMap_map, List.flatMap_cons, List.flatMap_map] at hchunks
      rw [relrAddrs, relrDyn, if_pos hpack, collectedAddrs, if_pos hpack]
      simpa only [OutputSection.constructRelr, List.map_map, Function.comp_def] using hchunks
    · intro c hc hne
      rcases List.mem_cons.mp hc with rfl | hc
      · exact heven.1 hpack (mt List.map_eq_nil_iff.mpr hne)
      · obtain ⟨osec, hosec, rfl⟩ := List.mem_map.mp hc
        exact heven.2 hpack osec hosec (mt List.map_eq_nil_iff.mpr hne)
    · intro c hc p hp
      rcases List.mem_cons.mp hc with rfl | hc
      · obtain ⟨idx, -, rfl⟩ := List.mem_map.mp hp
        exact Nat.dvd_mul_left _ _
      · obtain ⟨osec, -, rfl⟩ := List.mem_map.mp hc
        obtain ⟨e, he, rfl⟩ := List.mem_map.mp hp
        exact OutputSection.bytes_dvd_place he
  · rw [relrAddrs, relrDyn, if_neg hpack, collectedAddrs, if_neg hpack]
    exact Lib.Represents.nil

/-- An odd address is never read from `.relr.dyn`. -/
theorem chunksEven_of_represents (h : Lib.Represents link.relrAddrs link.collectedAddrs) :
    link.ChunksEven := by
  have hword : 2 ∣ link.word.bytes := by cases link.word <;> decide
  have hbits : 2 ∣ 2 ^ link.word.bits := by cases link.word <;> decide
  have hread (a : ℕ) (ha : a ∈ link.collectedAddrs) : 2 ∣ a :=
    Lib.two_dvd_of_mem_unpack hword hbits (Nat.dvd_zero 2) ((h.mem_iff a).mpr ha)
  refine ⟨fun hpack hne => ?_, fun hpack osec hosec hne => ?_⟩
  · obtain ⟨idx, hidx⟩ := List.exists_mem_of_ne_nil _ hne
    refine Lib.two_dvd_of_add_mod hbits (hword.mul_left idx) (hread _ ?_)
    rw [collectedAddrs, if_pos hpack]
    exact List.mem_append_left _ (List.mem_map_of_mem (List.mem_map_of_mem hidx))
  · obtain ⟨e, he⟩ := List.exists_mem_of_ne_nil _ hne
    refine Lib.two_dvd_of_add_mod hbits (hword.trans (OutputSection.bytes_dvd_place he))
      (hread _ ?_)
    rw [collectedAddrs, if_pos hpack]
    exact List.mem_append_right _ (List.mem_flatMap.mpr ⟨osec, hosec, List.mem_map_of_mem he⟩)

theorem chunksEven_iff : link.ChunksEven ↔ link.GotEven ∧
    ∀ osec ∈ link.osecs, ∀ isec ∈ osec.members, ∀ rel ∈ isec.rels, isec.isAlloc = true →
      rel.rType = .abs → link.IsCollected osec isec rel → 2 ∣ osec.shAddr := by
  refine and_congr_right' ⟨?_, ?_⟩
  · intro h osec hosec isec _ rel _ _ _ hcollected
    exact h hcollected.1 osec hosec (List.ne_nil_of_mem hcollected.2)
  · intro h hpack osec hosec hne
    obtain ⟨e, he⟩ := List.exists_mem_of_ne_nil _ hne
    obtain ⟨hisec, hrel, halloc, habs⟩ := OutputSection.rel_of_mem_collectRelr he
    exact h osec hosec e.1 hisec e.2 hrel halloc habs ⟨hpack, he⟩

end PicLink

/-! ## A pointer that is relocated twice -/

def ifuncTable : InputSection Unit where
  isWritable := true
  isAlloc := true
  isExec := false
  isNobits := false
  shAddralign := 8
  shSize := 8
  offset := 0
  rels := [{ rType := .abs, rOffset := 0, rSym := (), rAddend := 0 }]

def ifuncTableLink : PicLink Unit where
  word := .word64
  args :=
    { shared := false, pie := true, packDynRelocsRelr := true,
      applyDynamicRelocs := false, zText := false, zCopyreloc := true,
      warnTextrel := false }
  pic := rfl
  scanSyms := fun _ => { isAbsolute := false, isImported := false, type := .gnuIfunc }
  copySyms := fun _ => { isAbsolute := false, isImported := false, type := .gnuIfunc }
  osecs :=
    [{ isAlloc := true, isExec := false, shAddr := 0x1000, members := [ifuncTable]
       flags_eq := by simp [ifuncTable]
       offset_dvd := by simp [ifuncTable] }]
  gotAddr := 0x2000
  gotRelr := []

section RoundTrip

variable (word : WordSize)

/-- What `encode_relr` is given: different offsets of words, in order. -/
structure RelrOffsets where
  pos : List ℕ
  sorted : pos.Pairwise (· < ·)
  aligned : ∀ p ∈ pos, word.bytes ∣ p
  lt : ∀ p ∈ pos, p < 2 ^ 64

def encodeRelr (pos : List ℕ) : List ℕ := Lib.pack word.bytes (2 ^ 64) pos

/-- The rule of `.relr.dyn` for numbers of `size` bits: an even entry is relocated and sets
the base to the next word; bit `k + 1` of an odd entry relocates the word `k` words behind
the base, which then advances by one word less than a word has bits. -/
def decodeRelr (size base : ℕ) : List ℕ → List ℕ
  | [] => []
  | entry :: entries =>
    if entry % 2 = 0 then
      entry :: decodeRelr size ((entry + word.bytes) % 2 ^ size) entries
    else
      (((List.range (word.bits - 1)).filter fun k => entry.testBit (k + 1)).map fun k =>
        (base + k * word.bytes) % 2 ^ size) ++
        decodeRelr size ((base + (word.bits - 1) * word.bytes) % 2 ^ size) entries

structure RelrChunk where
  shAddr : ℕ
  relr : RelrOffsets word

/-- `RelrDynSection::update_shdr` -/
def relrShSize (chunks : List (RelrChunk word)) : ℕ :=
  (chunks.map fun chunk => (encodeRelr word chunk.relr.pos).length).sum * word.bytes

/-- `RelrDynSection::copy_buf` -/
def relrCopyBuf (chunks : List (RelrChunk word)) : List ℕ :=
  chunks.flatMap fun chunk => (encodeRelr word chunk.relr.pos).map fun val =>
    (if val % 2 = 1 then val else chunk.shAddr + val) % 2 ^ word.bits

theorem decodeRelr_eq (size base : ℕ) (entries : List ℕ) :
    decodeRelr word size base entries = Lib.unpack word.bytes (2 ^ size) base entries := by
  induction entries generalizing base with
  | nil => rfl
  | cons entry entries ih =>
    have hbits (k : ℕ) : (entry >>> 1).testBit k = entry.testBit (k + 1) := by
      rw [Nat.testBit_shiftRight, Nat.add_comm]
    rw [decodeRelr, Lib.unpack, ih, ih, Lib.bitmapPlaces]
    simp only [hbits]
    rfl

variable {word}

theorem RelrOffsets.increasing (offsets : RelrOffsets word) :
    Lib.Increasing word.bytes (2 ^ 64) 0 offsets.pos where
  sorted := offsets.sorted
  base_le p _ := Nat.zero_le p
  dvd := offsets.aligned
  lt := offsets.lt

variable (word) in
theorem rebases_id : Lib.Rebases word.bytes (2 ^ 64) (2 ^ 64) 0 id where
  odd _ _ _ := rfl
  even entry _ hlt := by rw [Nat.zero_add, Nat.mod_eq_of_lt hlt, id_eq]

theorem rebases_copyBuf (start : ℕ) :
    Lib.Rebases word.bytes (2 ^ word.bits) (2 ^ 64) start fun val =>
      (if val % 2 = 1 then val else start + val) % 2 ^ word.bits where
  odd entry hodd hlt := by
    have hbits : Lib.windowBits word.bytes + 1 = word.bits := by cases word <;> rfl
    rw [hbits] at hlt
    rw [if_pos hodd, Nat.mod_eq_of_lt hlt]
  even entry heven _ := by rw [if_neg (by omega)]

theorem decodeRelr_encodeRelr (offsets : RelrOffsets word) :
    decodeRelr word 64 0 (encodeRelr word offsets.pos) = offsets.pos := by
  have hunpack := Lib.unpack_pack (dvd_refl _) (by cases word <;> decide) (rebases_id word)
    (by cases word <;> decide) (by decide) (fun _ => by decide) offsets.increasing 0
  rw [List.map_id] at hunpack
  rw [decodeRelr_eq, encodeRelr, hunpack]
  conv_rhs => rw [← List.map_id offsets.pos]
  apply List.map_congr_left
  intro p hp
  rw [Nat.zero_add, Nat.mod_eq_of_lt (offsets.lt p hp), id_eq]

theorem length_relrCopyBuf (chunks : List (RelrChunk word)) :
    (relrCopyBuf word chunks).length * word.bytes = relrShSize word chunks := by
  rw [relrShSize, relrCopyBuf, List.length_flatMap]
  simp only [List.length_map]

theorem decodeRelr_copyBuf {chunks : List (RelrChunk word)}
    (heven : ∀ chunk ∈ chunks, chunk.relr.pos ≠ [] → 2 ∣ chunk.shAddr) (base : ℕ) :
    decodeRelr word word.bits base (relrCopyBuf word chunks) =
      chunks.flatMap fun chunk => chunk.relr.pos.map fun p =>
        (chunk.shAddr + p) % 2 ^ word.bits := by
  rw [decodeRelr_eq]
  induction chunks generalizing base with
  | nil => rfl
  | cons chunk chunks ih =>
    have hchunk := Lib.unpack_pack (by cases word <;> decide) (by cases word <;> decide)
      (rebases_copyBuf chunk.shAddr) (by cases word <;> decide) (by cases word <;> decide)
      (heven chunk List.mem_cons_self) chunk.relr.increasing base
    obtain ⟨base', hbase'⟩ := @Lib.unpack_append word.bytes (2 ^ word.bits) base
      ((encodeRelr word chunk.relr.pos).map fun val =>
        (if val % 2 = 1 then val else chunk.shAddr + val) % 2 ^ word.bits)
      (relrCopyBuf word chunks)
    rw [relrCopyBuf, List.flatMap_cons, List.flatMap_cons, ← relrCopyBuf, hbase',
      ih fun chunk hchunk => heven chunk (List.mem_cons_of_mem _ hchunk), ← hchunk]
    rfl

/-- A chunk at an odd address is not read back. -/
theorem even_of_decodeRelr {chunks : List (RelrChunk word)}
    (h : decodeRelr word word.bits 0 (relrCopyBuf word chunks) =
      chunks.flatMap fun chunk => chunk.relr.pos.map fun p =>
        (chunk.shAddr + p) % 2 ^ word.bits) :
    ∀ chunk ∈ chunks, chunk.relr.pos ≠ [] → 2 ∣ chunk.shAddr := by
  intro chunk hchunk hne
  have hword : 2 ∣ word.bytes := by cases word <;> decide
  have hbits : 2 ∣ 2 ^ word.bits := by cases word <;> decide
  obtain ⟨p, hp⟩ := List.exists_mem_of_ne_nil _ hne
  have hmem : (chunk.shAddr + p) % 2 ^ word.bits ∈
      Lib.unpack word.bytes (2 ^ word.bits) 0 (relrCopyBuf word chunks) := by
    rw [← decodeRelr_eq, h]
    exact List.mem_flatMap.mpr ⟨chunk, hchunk, List.mem_map_of_mem hp⟩
  exact Lib.two_dvd_of_add_mod hbits (hword.trans (chunk.relr.aligned p hp))
    (Lib.two_dvd_of_mem_unpack hword hbits (Nat.dvd_zero 2) hmem)

/-- For both word sizes: a loader reads exactly the offsets that have been packed, each of
them once and in order.  From the whole section it reads the addresses of one section after
the other if and only if no section with offsets is at an odd address. -/
theorem relr_roundTrip_iff (word : WordSize) :
    (∀ offsets : RelrOffsets word,
      decodeRelr word 64 0 (encodeRelr word offsets.pos) = offsets.pos) ∧
    ∀ chunks : List (RelrChunk word),
      (relrCopyBuf word chunks).length * word.bytes = relrShSize word chunks ∧
      (decodeRelr word word.bits 0 (relrCopyBuf word chunks) =
        (chunks.flatMap fun chunk => chunk.relr.pos.map fun p =>
          (chunk.shAddr + p) % 2 ^ word.bits) ↔
        ∀ chunk ∈ chunks, chunk.relr.pos ≠ [] → 2 ∣ chunk.shAddr) :=
  ⟨decodeRelr_encodeRelr, fun chunks => ⟨length_relrCopyBuf chunks,
    even_of_decodeRelr, fun heven => decodeRelr_copyBuf heven 0⟩⟩

/-- A section whose first word is to be relocated, placed at an odd address. -/
def oddChunk : RelrChunk .word64 where
  shAddr := 0x200001
  relr :=
    { pos := [0]
      sorted := List.pairwise_singleton _ 0
      aligned := by simp
      lt := by simp }

/-- The address of the word is written as it is, and read as a bitmap. -/
theorem oddChunk_not_roundTrip :
    ¬ ∀ (word : WordSize) (chunks : List (RelrChunk word)),
      decodeRelr word word.bits 0 (relrCopyBuf word chunks) =
        chunks.flatMap fun chunk => chunk.relr.pos.map fun p =>
          (chunk.shAddr + p) % 2 ^ word.bits := by
  intro h
  have heven := even_of_decodeRelr (h .word64 [oddChunk]) oddChunk List.mem_cons_self
    (List.cons_ne_nil 0 [])
  exact absurd heven (by decide)

end RoundTrip

end Mold.Elf
