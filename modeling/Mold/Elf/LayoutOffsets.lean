import Mold.Elf.LayoutApart

/-!
# File offsets of an output

The chunks that are in memory at ascending addresses are in the file like in memory.  So
the places in the file ascend exactly if the addresses of such a run do not go back into
the chunk before, and if it ends at a large gap.  A chunk takes at most its size, its
alignment and a page in the file.
-/

namespace Mold.Elf.Layout

open Lib

variable {args : Args}

def Chunk.Paged (args : Args) (c : Chunk) : Prop :=
  c.isLoaded = true → args.page < c.align → args.page ∣ c.addr

/-- If the run goes on, the chunk is less than a page behind the one before. -/
def Fits (args : Args) (run : Option (Chunk × Chunk)) (c : Chunk) : Prop :=
  match run with
  | some (first, prev) =>
    if continuesRun args first prev c then
      prev.endAddr ≤ c.addr ∧ c.addr < prev.endAddr + args.page
    else c.Paged args
  | none => c.Paged args

def nextRun (args : Args) (run : Option (Chunk × Chunk)) (c : Chunk) : Option (Chunk × Chunk) :=
  match run with
  | some (first, prev) =>
    if continuesRun args first prev c then some (first, c)
    else if c.isLoaded then some (c, c) else none
  | none => if c.isLoaded then some (c, c) else none

def RunsFit (args : Args) : Option (Chunk × Chunk) → List Chunk → Prop
  | _, [] => True
  | run, c :: l => Fits args run c ∧ RunsFit args (nextRun args run c) l

def Chunk.room (args : Args) (c : Chunk) : ℕ :=
  if c.isAlloc && c.isNobits then 0 else c.size + max c.align args.page

/-- All offsets in a file of less bytes are words and not negative as an `i64`. -/
def Args.fileLimit (args : Args) : ℕ := 2 ^ min args.wordBits 63

/-! ## Words -/

theorem fileLimit_le : args.fileLimit ≤ 2 ^ 63 :=
  Nat.pow_le_pow_right Nat.two_pos (Nat.min_le_right _ _)

theorem word_of_lt {n : ℕ} (h : n < args.fileLimit) : args.word n = n :=
  Nat.mod_eq_of_lt (Nat.lt_of_lt_of_le h (Nat.pow_le_pow_right Nat.two_pos (Nat.min_le_left _ _)))

theorem u64_of_lt {n : ℕ} (h : n < 2 ^ 64) : u64 n = n := Nat.mod_eq_of_lt h

theorem toI64_of_lt {n : ℕ} (h : n < 2 ^ 63) : toI64 n = n := by
  rw [toI64, u64_of_lt (by omega), if_pos h]

theorem toI64_lt (n : ℕ) : toI64 n < 2 ^ 63 := by
  rw [toI64]
  have hlt : u64 n < 2 ^ 64 := Nat.mod_lt n (Nat.two_pow_pos 64)
  split <;> omega

theorem alignTo_of_le {n k : ℕ} (h : n + 2 ^ k ≤ 2 ^ 63) :
    alignTo n (2 ^ k) = alignUp (2 ^ k) n := by
  have hpos : 0 < 2 ^ k := Nat.two_pow_pos k
  have hlt : alignUp (2 ^ k) n < n + 2 ^ k := alignUp_lt_add hpos n
  have hk : k ≤ 63 := (Nat.pow_le_pow_iff_right Nat.one_lt_two).mp (by omega)
  have hto := alignTo_two_pow n (k := k) (by omega)
  rwa [u64_of_lt (by omega), u64_of_lt (by omega)] at hto

theorem alignWithSkew_spec {val align : ℕ} (skew : ℕ) (hpos : 0 < align)
    (h : val + align ≤ 2 ^ 63) :
    val ≤ alignWithSkew val align skew ∧ alignWithSkew val align skew < val + align ∧
      alignWithSkew val align skew % align = skew % align := by
  have hle : val / align * align ≤ val := Nat.div_mul_le_self val align
  have hlt : val < val / align * align + align := Nat.lt_div_mul_add hpos
  have hskew : skew % align < align := Nat.mod_lt skew hpos
  have hmod : (val / align * align + skew % align) % align = skew % align := by
    rw [Nat.mul_comm, Nat.mul_add_mod, Nat.mod_mod]
  have hx : u64 (val / align * align + skew % align) = val / align * align + skew % align :=
    u64_of_lt (by omega)
  simp only [alignWithSkew, hx]
  split
  · exact ⟨by omega, by omega, hmod⟩
  · rw [u64_of_lt (by omega), Nat.add_mod_right]
    exact ⟨by omega, by omega, hmod⟩

variable {first prev c : Chunk}

theorem near_or_far (hword : args.wordBits = 32 ∨ args.wordBits = 64)
    (hgoes : continuesRun args first prev c = true) (hle : prev.endAddr ≤ c.addr)
    (haddr : c.addr < 2 ^ args.wordBits) :
    c.addr < prev.endAddr + args.page ∨ args.wordBits = 64 ∧ prev.endAddr + 2 ^ 63 ≤ c.addr := by
  have hgap : gapSize args prev c < args.page := by
    simp only [continuesRun, Bool.and_eq_true, decide_eq_true_eq] at hgoes
    exact hgoes.2
  have hdist : args.wordOf ((c.addr : ℤ) - prev.addr - prev.size) = c.addr - prev.endAddr := by
    have hcast : ((2 ^ args.wordBits : ℕ) : ℤ) = 2 ^ args.wordBits := by push_cast; rfl
    simp only [Chunk.endAddr] at hle ⊢
    rw [Args.wordOf, Int.emod_eq_of_lt (by omega) (by rw [← hcast]; omega)]
    omega
  rw [gapSize, hdist] at hgap
  by_cases hfar : c.addr - prev.endAddr < 2 ^ 63
  · rw [toI64_of_lt hfar] at hgap
    exact .inl (by omega)
  · refine .inr ⟨?_, by omega⟩
    rcases hword with hword | hword
    · rw [hword] at haddr
      omega
    · exact hword

/-! ## One chunk -/

/-- The chunk has the same place in the file as in memory, up to whole pages. -/
def Chunk.Congruent (args : Args) (c : Chunk) : Prop :=
  c.offset % args.page = c.addr % args.page

variable {c : Chunk}

theorem room_of_isAlloc_eq_false (h : c.isAlloc = false) :
    c.room args = c.size + max c.align args.page := by
  rw [Chunk.room, h]
  rfl

theorem not_isNobits_of_isLoaded (h : c.isLoaded = true) : c.isNobits = false := by
  rw [Chunk.isLoaded, Bool.and_eq_true, Bool.not_eq_true'] at h
  exact h.2

theorem room_of_isLoaded (h : c.isLoaded = true) :
    c.room args = c.size + max c.align args.page := by
  rw [Chunk.room, not_isNobits_of_isLoaded h, Bool.and_false]
  rfl

namespace FileCursor

/-- The chunks so far take at most `used` bytes in the file. -/
structure Good (args : Args) (used : ℕ) (st : FileCursor) : Prop where
  fileoff : st.fileoff ≤ used
  run : ∀ first prev, st.run = some (first, prev) →
    first.addr ≤ prev.addr ∧ prev.offset + first.addr = st.fileoff + prev.addr ∧
      prev.offset + prev.size ≤ used ∧ st.fileoff % args.page = first.addr % args.page

theorem Good.close_eq {used : ℕ} {st : FileCursor} (hst : st.Good args used)
    (hused : used < args.fileLimit) {first prev : Chunk} (hrun : st.run = some (first, prev)) :
    st.close args = prev.offset + prev.size := by
  obtain ⟨-, -, hle, -⟩ := hst.run first prev hrun
  rw [close, hrun]
  exact word_of_lt (by omega)

theorem Good.close_le {used : ℕ} {st : FileCursor} (hst : st.Good args used)
    (hused : used < args.fileLimit) : st.close args ≤ used := by
  cases hrun : st.run with
  | none =>
    rw [close, hrun]
    exact hst.fileoff
  | some run =>
    rw [hst.close_eq hused hrun]
    exact (hst.run run.1 run.2 hrun).2.2.1

theorem start_cases {fileoff : ℕ} (h : fileoff + c.room args < args.fileLimit) :
    (c.isAlloc = false ∧ ∃ off, fileoff ≤ off ∧ off + c.size ≤ fileoff + c.room args ∧
      start args fileoff c = ({ c with offset := off }, { fileoff := off + c.size })) ∨
    (c.isAlloc = true ∧ c.isNobits = true ∧ start args fileoff c = (c, { fileoff := fileoff })) ∨
    (c.isLoaded = true ∧ ∃ off, fileoff ≤ off ∧ off + c.size ≤ fileoff + c.room args ∧
      (¬ args.page < c.align → off % args.page = c.addr % args.page) ∧
      (args.page < c.align → args.page ∣ off) ∧
      start args fileoff c =
        ({ c with offset := off },
          { fileoff := off
            run := some ({ c with offset := off }, { c with offset := off }) })) := by
  have hlimit : args.fileLimit ≤ 2 ^ 63 := fileLimit_le
  have halign (hroom : c.room args = c.size + max c.align args.page) :
      alignTo fileoff c.align = alignUp c.align fileoff := by
    have hle : c.align ≤ max c.align args.page := Nat.le_max_left _ _
    have hsum : fileoff + c.align ≤ 2 ^ 63 := by omega
    exact alignTo_of_le hsum
  have hup : fileoff ≤ alignUp c.align fileoff ∧ alignUp c.align fileoff < fileoff + c.align :=
    ⟨le_alignUp (align_pos c) _, alignUp_lt_add (align_pos c) _⟩
  have hmax : c.align ≤ max c.align args.page ∧ args.page ≤ max c.align args.page :=
    ⟨Nat.le_max_left _ _, Nat.le_max_right _ _⟩
  rw [start]
  cases halloc : c.isAlloc with
  | false =>
    have hroom : c.room args = c.size + max c.align args.page := room_of_isAlloc_eq_false halloc
    refine .inl ⟨rfl, alignUp c.align fileoff, hup.1, by omega, ?_⟩
    simp only [halign hroom, Bool.not_false, if_true]
    rw [word_of_lt (by omega), u64_of_lt (by omega)]
  | true =>
    cases hnobits : c.isNobits with
    | true => exact .inr (.inl ⟨rfl, rfl, rfl⟩)
    | false =>
      have hloaded : c.isLoaded = true := by
        rw [Chunk.isLoaded, halloc, hnobits]
        rfl
      have hroom : c.room args = c.size + max c.align args.page := room_of_isLoaded hloaded
      refine .inr (.inr ⟨hloaded, ?_⟩)
      simp only [Bool.not_true, Bool.false_eq_true, if_false]
      by_cases hpage : args.page < c.align
      · refine ⟨alignUp c.align fileoff, hup.1, by omega, fun h => absurd hpage h, fun _ => ?_, ?_⟩
        · refine Nat.dvd_trans ?_ (dvd_alignUp _ _)
          exact Nat.pow_dvd_pow 2
            (Nat.le_of_lt ((Nat.pow_lt_pow_iff_right Nat.one_lt_two).mp hpage))
        · rw [if_pos hpage, halign hroom, word_of_lt (by omega)]
      · obtain ⟨hle, hlt, hmod⟩ :=
          @alignWithSkew_spec fileoff args.page c.addr page_pos (by omega)
        refine ⟨_, hle, by omega, fun _ => hmod, fun h => absurd h hpage, ?_⟩
        rw [if_neg hpage, word_of_lt (by omega)]

theorem place_cases (args : Args) (st : FileCursor) (c : Chunk) :
    (∃ first prev, st.run = some (first, prev) ∧ continuesRun args first prev c = true ∧
      ∃ off, off = args.word (u64 (st.fileoff + c.addr + 2 ^ 64 - first.addr)) ∧
        st.place args c = ({ c with offset := off },
          { st with run := some (first, { c with offset := off }) })) ∨
    ((∀ first prev, st.run = some (first, prev) → continuesRun args first prev c = false) ∧
      st.place args c = start args (st.close args) c) := by
  rw [place]
  cases hrun : st.run with
  | none => exact .inr ⟨fun _ _ h => (nomatch h), rfl⟩
  | some run =>
    obtain ⟨first, prev⟩ := run
    cases hgoes : continuesRun args first prev c with
    | true =>
      refine .inl ⟨first, prev, rfl, hgoes, _, rfl, ?_⟩
      simp only [hgoes, if_true]
    | false =>
      refine .inr ⟨fun first' prev' h => ?_, ?_⟩
      · obtain ⟨rfl, rfl⟩ := Prod.mk.inj (Option.some.inj h)
        exact hgoes
      · simp only [hgoes, Bool.false_eq_true, if_false]

theorem start_eq (args : Args) (fileoff : ℕ) (c : Chunk) :
    ∃ off, (start args fileoff c).1 = { c with offset := off } ∧
      (start args fileoff c).2.run =
        if c.isLoaded then some ({ c with offset := off }, { c with offset := off })
        else none := by
  rw [start]
  split
  case isTrue halloc =>
    have hloaded : c.isLoaded = false := by
      rw [Chunk.isLoaded, (Bool.not_eq_true' _).mp halloc]
      rfl
    exact ⟨_, rfl, by rw [hloaded]; rfl⟩
  case isFalse halloc =>
    split
    case isTrue hnobits =>
      have hloaded : c.isLoaded = false := by
        rw [Chunk.isLoaded, hnobits]
        exact Bool.and_false _
      exact ⟨c.offset, rfl, by rw [hloaded]; rfl⟩
    case isFalse hnobits =>
      have hloaded : c.isLoaded = true := by
        simpa [Chunk.isLoaded, hnobits] using halloc
      exact ⟨_, rfl, by rw [hloaded]; rfl⟩

theorem nextRun_of_not_continues {run : Option (Chunk × Chunk)} (off : ℕ)
    (hgoes : ∀ first prev, run = some (first, prev) → continuesRun args first prev c = false) :
    nextRun args run { c with offset := off } =
      if c.isLoaded then some ({ c with offset := off }, { c with offset := off })
      else none := by
  cases run with
  | none => rfl
  | some run => exact if_neg (Bool.eq_false_iff.mp (hgoes run.1 run.2 rfl))

theorem place_eq (args : Args) (st : FileCursor) (c : Chunk) :
    ∃ off, (st.place args c).1 = { c with offset := off } ∧
      (st.place args c).2.run = nextRun args st.run { c with offset := off } := by
  rcases place_cases args st c with ⟨first, prev, hrun, hgoes, off, -, heq⟩ | ⟨hgoes, heq⟩
  · rw [heq, hrun]
    exact ⟨off, rfl, (if_pos hgoes).symm⟩
  · obtain ⟨off, hstart, hrun⟩ := start_eq args (st.close args) c
    rw [heq]
    exact ⟨off, hstart, hrun.trans (nextRun_of_not_continues off hgoes).symm⟩

theorem fits_of_continues (hgoes : continuesRun args first prev c = true) :
    Fits args (some (first, prev)) c ↔ prev.endAddr ≤ c.addr ∧ c.addr < prev.endAddr + args.page :=
  Iff.of_eq (if_pos hgoes)

theorem fits_of_not_continues {run : Option (Chunk × Chunk)}
    (hgoes : ∀ first prev, run = some (first, prev) →
      continuesRun args first prev c = false) : Fits args run c ↔ c.Paged args := by
  cases run with
  | none => exact Iff.rfl
  | some run => exact Iff.of_eq (if_neg (Bool.eq_false_iff.mp (hgoes run.1 run.2 rfl)))

theorem isLoaded_of_continues (hgoes : continuesRun args first prev c = true) :
    c.isLoaded = true ∧ first.addr ≤ c.addr := by
  simp only [continuesRun, Bool.and_eq_true, decide_eq_true_eq] at hgoes
  exact hgoes.1

/-- What holds after a chunk that fits, where `c'` and `st'` are the new chunk and the new
state. -/
structure Step (args : Args) (used : ℕ) (st : FileCursor) (c' : Chunk) (st' : FileCursor) :
    Prop where
  good : st'.Good args used
  above : c'.isNobits = false → st.close args ≤ c'.offset
  close : c'.isNobits = false → st'.close args = c'.offset + c'.size
  nobits : c'.isNobits = true → st.close args ≤ st'.close args
  congruent : c'.isLoaded = true → c'.Congruent args

section Step

variable {used : ℕ} {st : FileCursor} {c : Chunk}

theorem Good.step_start (hst : st.Good args used)
    (hroom : used + c.room args < args.fileLimit) (hpaged : c.Paged args) :
    Step args (used + c.room args) st (start args (st.close args) c).1
      (start args (st.close args) c).2 := by
  have hle := hst.close_le (by omega)
  rcases @start_cases args c (st.close args) (by omega) with
    ⟨halloc, off, hoff, hend, heq⟩ | ⟨halloc, hnobits, heq⟩ |
    ⟨hloaded, off, hoff, hend, hsmall, hlarge, heq⟩
  · have hloaded : ¬ c.isLoaded = true := by
      rw [Chunk.isLoaded, halloc]
      exact Bool.false_ne_true
    rw [heq]
    exact {
      good := ⟨Nat.le_trans hend (by omega), fun _ _ h => nomatch h⟩
      above := fun _ => hoff
      close := fun _ => rfl
      nobits := fun _ => Nat.le_add_right_of_le hoff
      congruent := fun h => absurd h hloaded }
  · have hbits : ¬ c.isNobits = false := by
      rw [hnobits]
      exact Bool.noConfusion
    rw [heq]
    exact {
      good := ⟨Nat.le_add_right_of_le hle, fun _ _ h => nomatch h⟩
      above := fun h => absurd h hbits
      close := fun h => absurd h hbits
      nobits := fun _ => Nat.le_refl _
      congruent := fun h => by
        rw [not_isNobits_of_isLoaded h] at hnobits
        cases hnobits }
  · have hcong : off % args.page = c.addr % args.page := by
      by_cases hpage : args.page < c.align
      · rw [Nat.mod_eq_zero_of_dvd (hlarge hpage)]
        exact (Nat.mod_eq_zero_of_dvd (hpaged hloaded hpage)).symm
      · exact hsmall hpage
    rw [heq]
    exact {
      good := by
        refine ⟨Nat.le_trans (Nat.le_of_add_right_le hend) (by omega), ?_⟩
        intro first prev hrun
        obtain ⟨rfl, rfl⟩ := Prod.mk.inj (Option.some.inj hrun)
        exact ⟨Nat.le_refl _, rfl, Nat.le_trans hend (by omega), hcong⟩
      above := fun _ => hoff
      close := fun _ => word_of_lt (by simp only; omega)
      nobits := fun h =>
        absurd ((not_isNobits_of_isLoaded hloaded).symm.trans h) Bool.false_ne_true
      congruent := fun _ => hcong }

theorem Good.step (hst : st.Good args used) (hroom : used + c.room args < args.fileLimit)
    (hfits : Fits args st.run c) :
    Step args (used + c.room args) st (st.place args c).1 (st.place args c).2 := by
  rcases place_cases args st c with ⟨first, prev, hrun, hgoes, off, hoff, heq⟩ | ⟨hgoes, heq⟩
  · have hclose := hst.close_eq (by omega) hrun
    obtain ⟨hfirst, hprev, hend, hmod⟩ := hst.run first prev hrun
    obtain ⟨hloaded, hle⟩ := isLoaded_of_continues hgoes
    have hnobits := not_isNobits_of_isLoaded hloaded
    have hsize : c.room args = c.size + max c.align args.page := room_of_isLoaded hloaded
    have hpage : args.page ≤ max c.align args.page := Nat.le_max_right _ _
    have hlimit : args.fileLimit ≤ 2 ^ 63 := fileLimit_le
    obtain ⟨hnear, hfar⟩ : prev.endAddr ≤ c.addr ∧ c.addr < prev.endAddr + args.page := by
      rw [hrun] at hfits
      exact (fits_of_continues hgoes).mp hfits
    simp only [Chunk.endAddr] at hnear hfar
    have hplace : off + first.addr = st.fileoff + c.addr := by
      have hu64 : u64 (st.fileoff + c.addr + 2 ^ 64 - first.addr) =
          st.fileoff + c.addr - first.addr := by
        unfold u64
        omega
      rw [hoff, hu64, word_of_lt (by omega)]
      omega
    have hcong : off % args.page = c.addr % args.page := by
      have heqmod : off + first.addr ≡ c.addr + first.addr [MOD args.page] := by
        rw [hplace, Nat.add_comm c.addr]
        exact Nat.ModEq.add_right _ hmod
      exact Nat.ModEq.add_right_cancel' _ heqmod
    rw [heq]
    exact {
      good := by
        refine ⟨Nat.le_add_right_of_le hst.fileoff, fun first' prev' hrun' => ?_⟩
        obtain ⟨rfl, rfl⟩ := Prod.mk.inj (Option.some.inj hrun')
        exact ⟨hle, hplace, by simp only; omega, hmod⟩
      above := fun _ => by
        rw [hclose]
        simp only
        omega
      close := fun _ => word_of_lt (by simp only; omega)
      nobits := fun h => absurd (hnobits.symm.trans h) Bool.false_ne_true
      congruent := fun _ => hcong }
  · rw [heq]
    exact hst.step_start hroom ((fits_of_not_continues hgoes).mp hfits)

/-- A chunk fits if it is above the one before it and has an offset that is not negative. -/
theorem Good.fits (hst : st.Good args used) (hroom : used + c.room args < args.fileLimit)
    (hword : args.wordBits = 32 ∨ args.wordBits = 64) (haddr : c.addr < 2 ^ args.wordBits)
    (habove : ∀ first prev, st.run = some (first, prev) → c.isNobits = false →
      prev.offset + prev.size ≤ (st.place args c).1.offset)
    (hlt : c.isNobits = false → (st.place args c).1.offset < 2 ^ 63)
    (hcong : c.isLoaded = true → (st.place args c).1.Congruent args) :
    Fits args st.run c := by
  rcases place_cases args st c with ⟨first, prev, hrun, hgoes, off, hoff, heq⟩ | ⟨hgoes, heq⟩
  · obtain ⟨hfirst, hprev, hend, -⟩ := hst.run first prev hrun
    obtain ⟨hloaded, hle⟩ := isLoaded_of_continues hgoes
    have hnobits := not_isNobits_of_isLoaded hloaded
    have hlimit : args.fileLimit ≤ 2 ^ 63 := fileLimit_le
    have habove : prev.offset + prev.size ≤ off := by
      have h := habove first prev hrun hnobits
      rwa [heq] at h
    have hlt : off < 2 ^ 63 := by
      have h := hlt hnobits
      rwa [heq] at h
    rw [hrun]
    refine (fits_of_continues hgoes).mpr ?_
    -- the place in the file is that of memory as long as no offset is cut
    have hexact (h : st.fileoff + c.addr < args.fileLimit + first.addr) :
        off + first.addr = st.fileoff + c.addr := by
      have hu64 : u64 (st.fileoff + c.addr + 2 ^ 64 - first.addr) =
          st.fileoff + c.addr - first.addr := by
        unfold u64
        omega
      rw [hoff, hu64, word_of_lt (by omega)]
      omega
    have hback : prev.endAddr ≤ c.addr := by
      by_contra hback
      simp only [Chunk.endAddr] at hback
      have hplace := hexact (by omega)
      omega
    refine ⟨hback, ?_⟩
    rcases near_or_far hword hgoes hback haddr with hnear | ⟨hbits, hfar⟩
    · exact hnear
    · simp only [Chunk.endAddr] at hfar
      have hoff64 : off = u64 (st.fileoff + c.addr + 2 ^ 64 - first.addr) := by
        rw [hoff, Args.word, hbits]
        exact Nat.mod_mod _ _
      rw [hbits] at haddr
      unfold u64 at hoff64
      omega
  · rw [heq] at hcong
    refine (fits_of_not_continues hgoes).mpr fun hloaded hpage => ?_
    have hle := hst.close_le (by omega)
    rcases @start_cases args c (st.close args) (by omega) with
      ⟨halloc, -⟩ | ⟨-, hnobits, -⟩ | ⟨-, off, -, -, -, hlarge, heq⟩
    · rw [Chunk.isLoaded, halloc] at hloaded
      cases hloaded
    · rw [not_isNobits_of_isLoaded hloaded] at hnobits
      cases hnobits
    · have hmod : off % args.page = c.addr % args.page := by
        have h := hcong hloaded
        rwa [heq] at h
      exact Nat.dvd_of_mod_eq_zero (hmod.symm.trans (Nat.mod_eq_zero_of_dvd (hlarge hpage)))

end Step

end FileCursor

theorem of_nextRun {run : Option (Chunk × Chunk)}
    (h : nextRun args run c = some (first, prev)) : prev = c ∧ c.isLoaded = true := by
  have hstart (h : (if c.isLoaded then some (c, c) else none) = some (first, prev)) :
      prev = c ∧ c.isLoaded = true := by
    split at h
    · exact ⟨(Prod.mk.inj (Option.some.inj h)).2.symm, ‹_›⟩
    · cases h
  cases run with
  | none => exact hstart h
  | some run =>
    rw [nextRun] at h
    split at h
    case isTrue hgoes =>
      exact ⟨(Prod.mk.inj (Option.some.inj h)).2.symm, (FileCursor.isLoaded_of_continues hgoes).1⟩
    case isFalse => exact hstart h

/-! ## All chunks -/

structure InFile (args : Args) (chunks : List Chunk) (filesize : ℤ) : Prop where
  congruent : ∀ c ∈ chunks, c.isLoaded = true → c.Congruent args
  ascending : chunks.Pairwise fun c d =>
    c.isNobits = false → d.isNobits = false → c.offset + c.size ≤ d.offset
  covered : ∀ c ∈ chunks, c.isNobits = false → ((c.offset + c.size : ℕ) : ℤ) ≤ filesize

open FileCursor

theorem inFile_of_runsFit {st : FileCursor} {used : ℕ} (hst : st.Good args used) (l : List Chunk)
    (hroom : used + (l.map (Chunk.room args)).sum < args.fileLimit)
    (h : RunsFit args st.run (placeInFile args st l).1) :
    InFile args (placeInFile args st l).1 (placeInFile args st l).2 ∧
      (placeInFile args st l).2 < args.fileLimit ∧
      st.close args ≤ (placeInFile args st l).2 ∧
      ∀ c ∈ (placeInFile args st l).1, c.isNobits = false → st.close args ≤ c.offset := by
  induction l generalizing st used with
  | nil =>
    have hlt : st.close args < args.fileLimit :=
      Nat.lt_of_le_of_lt (hst.close_le (Nat.lt_of_add_right_lt hroom))
        (Nat.lt_of_add_right_lt hroom)
    exact ⟨⟨fun c hc => absurd hc List.not_mem_nil, List.Pairwise.nil,
      fun c hc => absurd hc List.not_mem_nil⟩, hlt, Nat.le_refl _,
      fun c hc => absurd hc List.not_mem_nil⟩
  | cons c l ih =>
    rw [List.map_cons, List.sum_cons] at hroom
    rw [placeInFile] at h ⊢
    obtain ⟨off, hplace, hrun⟩ := place_eq args st c
    obtain ⟨hfits, hrest⟩ := h
    rw [hplace] at hfits hrest
    have hstep := hst.step (c := c) (by omega) hfits
    rw [← hrun] at hrest
    obtain ⟨⟨hcongs, hasc, hcov⟩, hlt, hsize, habove⟩ := ih hstep.good (by omega) hrest
    have hclose : st.close args ≤ (st.place args c).2.close args := by
      cases hnobits : (st.place args c).1.isNobits with
      | true => exact hstep.nobits hnobits
      | false =>
        rw [hstep.close hnobits]
        exact Nat.le_add_right_of_le (hstep.above hnobits)
    refine ⟨⟨List.forall_mem_cons.mpr ⟨hstep.congruent, hcongs⟩,
      List.pairwise_cons.mpr ⟨fun d hd hc hnobits => ?_, hasc⟩,
      List.forall_mem_cons.mpr ⟨fun hc => ?_, hcov⟩⟩, hlt, Nat.le_trans hclose hsize,
      List.forall_mem_cons.mpr ⟨hstep.above, fun d hd hnobits => ?_⟩⟩
    · rw [← hstep.close hc]
      exact habove d hd hnobits
    · rw [← hstep.close hc]
      exact Int.ofNat_le.mpr hsize
    · exact Nat.le_trans hclose (habove d hd hnobits)

theorem runsFit_of_inFile {st : FileCursor} {used : ℕ} {size : ℤ} (hst : st.Good args used)
    (l : List Chunk) (hroom : used + (l.map (Chunk.room args)).sum < args.fileLimit)
    (hword : args.wordBits = 32 ∨ args.wordBits = 64)
    (haddr : ∀ c ∈ l, c.addr < 2 ^ args.wordBits) (hsize : size < 2 ^ 63)
    (hprev : ∀ first prev, st.run = some (first, prev) →
      ∀ c ∈ (placeInFile args st l).1, c.isNobits = false → prev.offset + prev.size ≤ c.offset)
    (h : InFile args (placeInFile args st l).1 size) :
    RunsFit args st.run (placeInFile args st l).1 := by
  induction l generalizing st used with
  | nil => exact trivial
  | cons c l ih =>
    rw [List.map_cons, List.sum_cons] at hroom
    rw [placeInFile] at h hprev ⊢
    obtain ⟨hcong, hasc, hcov⟩ := h
    obtain ⟨hcong, hcongs⟩ := List.forall_mem_cons.mp hcong
    obtain ⟨hnext, hasc⟩ := List.pairwise_cons.mp hasc
    obtain ⟨hcov, hcovs⟩ := List.forall_mem_cons.mp hcov
    obtain ⟨off, hplace, hrun⟩ := place_eq args st c
    have hnobits : (st.place args c).1.isNobits = c.isNobits := by rw [hplace]; rfl
    have hloaded : (st.place args c).1.isLoaded = c.isLoaded := by rw [hplace]; rfl
    have hfits : Fits args st.run c := by
      refine hst.fits (by omega) hword (haddr c List.mem_cons_self)
        (fun first prev hrun hc => hprev first prev hrun _ List.mem_cons_self (hnobits.trans hc))
        (fun hc => ?_) fun hc => hcong (hloaded.trans hc)
      have hle := hcov (hnobits.trans hc)
      omega
    have hstep := hst.step (by omega) hfits
    refine ⟨by rw [hplace]; exact hfits, ?_⟩
    rw [hplace, ← hrun]
    refine ih hstep.good (by omega) (fun d hd => haddr d (List.mem_cons_of_mem _ hd))
      (fun first prev hrun' d hd hd' => ?_) ⟨hcongs, hasc, hcovs⟩
    rw [hrun, ← hplace] at hrun'
    obtain ⟨rfl, hc⟩ := of_nextRun hrun'
    exact hnext d hd (not_isNobits_of_isLoaded hc) hd'

def Chunk.inMemory (c : Chunk) : Chunk := { c with offset := 0 }

theorem nextRun_inMemory (run : Option (Chunk × Chunk)) (c : Chunk) :
    nextRun args (run.map (Prod.map Chunk.inMemory Chunk.inMemory)) c.inMemory =
      (nextRun args run c).map (Prod.map Chunk.inMemory Chunk.inMemory) := by
  have hstart : (if c.inMemory.isLoaded then some (c.inMemory, c.inMemory) else none) =
      (if c.isLoaded then some (c, c) else none).map (Prod.map Chunk.inMemory Chunk.inMemory) := by
    have hloaded : c.inMemory.isLoaded = c.isLoaded := rfl
    rw [hloaded]
    split <;> rfl
  cases run with
  | none => exact hstart
  | some run =>
    obtain ⟨first, prev⟩ := run
    have hgoes : continuesRun args first.inMemory prev.inMemory c.inMemory =
        continuesRun args first prev c := rfl
    rw [Option.map_some, Prod.map_apply, nextRun, nextRun, hgoes]
    split
    · rfl
    · exact hstart

theorem fits_inMemory (run : Option (Chunk × Chunk)) (c : Chunk) :
    Fits args (run.map (Prod.map Chunk.inMemory Chunk.inMemory)) c.inMemory ↔ Fits args run c := by
  cases run <;> exact Iff.rfl

theorem runsFit_inMemory (run : Option (Chunk × Chunk)) (l : List Chunk) :
    RunsFit args (run.map (Prod.map Chunk.inMemory Chunk.inMemory)) (l.map Chunk.inMemory) ↔
      RunsFit args run l := by
  induction l generalizing run with
  | nil => exact Iff.rfl
  | cons c l ih =>
    rw [List.map_cons, RunsFit, RunsFit, fits_inMemory, nextRun_inMemory, ih]

theorem inMemory_placeInFile (st : FileCursor) (l : List Chunk) :
    (placeInFile args st l).1.map Chunk.inMemory = l.map Chunk.inMemory := by
  induction l generalizing st with
  | nil => rfl
  | cons c l ih =>
    obtain ⟨off, hplace, -⟩ := place_eq args st c
    rw [placeInFile, List.map_cons, List.map_cons, ih, hplace]
    rfl

theorem inFile_iff (hword : args.wordBits = 32 ∨ args.wordBits = 64) {chunks : List Chunk}
    (hroom : (chunks.map (Chunk.room args)).sum < args.fileLimit)
    (haddr : ∀ c ∈ chunks, c.addr < 2 ^ args.wordBits) :
    InFile args (setFileOffsets args chunks).1 (setFileOffsets args chunks).2 ↔
      RunsFit args none chunks := by
  have hst : FileCursor.Good args 0 {} := ⟨Nat.le_refl 0, fun _ _ h => nomatch h⟩
  have hroom : 0 + (chunks.map (Chunk.room args)).sum < args.fileLimit := by
    rwa [Nat.zero_add]
  have hfit : RunsFit args none (placeInFile args {} chunks).1 ↔ RunsFit args none chunks := by
    rw [← runsFit_inMemory none, inMemory_placeInFile]
    exact runsFit_inMemory none chunks
  rw [← hfit, setFileOffsets]
  constructor
  · exact runsFit_of_inFile hst chunks hroom hword haddr (toI64_lt _) fun _ _ h => (nomatch h)
  · intro h
    obtain ⟨hfile, hlt, -, -⟩ := inFile_of_runsFit hst chunks hroom h
    rwa [toI64_of_lt (Nat.lt_of_lt_of_le hlt fileLimit_le)]

end Mold.Elf.Layout
