import Mold.Lib.LittleEndian
import Mold.MachO.Arm64Stubs

/-!
# The address pairs of ARM64 compute their targets

Each pair of the synthetic code is one of two shapes.  An `adrp` and an `add`
always make the target.  An `adrp` and an `ldr` read the slot when the pages
were counted from the page of the `adrp` and the immediate, scaled by the size
of the load, is the place of the slot in its page.
-/

namespace Mold.MachO.Arm64

open Mold.Lib Mold.Lib.A64 Mold.Lib.BitField

theorem bits_eq (val hi lo : ℕ) : bits val hi lo = val / 2 ^ lo % 2 ^ (hi - lo + 1) := by
  rw [bits, Nat.and_two_pow_sub_one_eq_mod, Nat.shiftRight_eq_div_pow]

theorem page_eq {val : ℕ} (h : val < 2 ^ 64) : page val = val / 4096 * 4096 := by
  have hmask : (0xffff_ffff_ffff_f000 : ℕ) = (2 ^ 52 - 1) <<< 12 := by decide
  rw [page, hmask, and_shiftLeft_mask]
  omega

theorem pageOffset_eq {hi lo : ℕ} (hhi : hi < 2 ^ 64) (hlo : lo < 2 ^ 64) :
    pageOffset hi lo = (pagesFrom hi lo % 4) <<< 29 ||| (pagesFrom hi lo / 4) <<< 5 := by
  have hpages : pagesFrom hi lo = (page hi + 2 ^ 64 - page lo) % 2 ^ 64 / 2 ^ 12 % 2 ^ 21 := by
    rw [page_eq hhi, page_eq hlo, pagesFrom]
    omega
  have hlow : bits ((page hi + 2 ^ 64 - page lo) % 2 ^ 64) 13 12 = pagesFrom hi lo % 4 := by
    rw [bits_eq, hpages]
    omega
  have hhigh : bits ((page hi + 2 ^ 64 - page lo) % 2 ^ 64) 32 14 = pagesFrom hi lo / 4 := by
    rw [bits_eq, hpages]
    omega
  simp only [pageOffset, hlow, hhigh]

theorem decode_or_pageOffset {rd hi lo : ℕ} (hrd : rd < 31) (hhi : hi < 2 ^ 64)
    (hlo : lo < 2 ^ 64) :
    decode ((0x9000_0000 + rd) ||| pageOffset hi lo) =
      some (.adrp rd (toSigned 21 (pagesFrom hi lo))) := by
  have hlt := pagesFrom_lt hi lo
  have hdiv : pagesFrom hi lo / 4 < 2 ^ 19 := by omega
  have hmod : pagesFrom hi lo % 4 < 2 ^ 2 := by omega
  rw [pageOffset_eq hhi hlo, ← Nat.or_assoc,
    or_shiftLeft_eq_add 1 (0x1000_0000 + rd) (by omega) (by omega) hmod,
    or_shiftLeft_eq_add (0x90 + pagesFrom hi lo % 4 * 2 ^ 5) rd (by omega) (by omega) hdiv,
    decode_adrp hrd hdiv hmod, Nat.div_add_mod']

theorem decode_add_or {r imm : ℕ} (hr : r < 31) (himm : imm < 2 ^ 12) :
    decode ((0x9100_0000 + r + r * 2 ^ 5) ||| imm <<< 10) = some (.addImm r r imm) := by
  rw [or_shiftLeft_eq_add 0x244 (r + r * 2 ^ 5) (by omega) (by omega) himm,
    decode_addImm hr hr himm]

theorem decode_ldr_or {r size imm : ℕ} (hr : r < 31) (hsize : size = 2 ∨ size = 3)
    (himm : imm < 2 ^ 12) :
    decode ((0x3940_0000 + size * 2 ^ 30 + r + r * 2 ^ 5) ||| imm <<< 10) =
      some (.ldrImm r r size imm) := by
  rw [or_shiftLeft_eq_add (0xE5 + size * 2 ^ 8) (r + r * 2 ^ 5) (by omega) (by omega) himm,
    decode_ldrImm hr hr hsize himm]

/-! ## The two shapes of a pair -/

variable {ctx : Context} {addr k r : ℕ} {words : List ℕ}

theorem leaves_address {wordSize v w target : ℕ} (hpair : (words.drop k).take 2 = [v, w])
    (hv : v = (0x9000_0000 + r) ||| pageOffset target (addr + 4 * k))
    (hw : w = (0x9100_0000 + r + r * 2 ^ 5) ||| bits target 11 0 <<< 10)
    (hr : r < 31) (h : Near (addr + 4 * k) target) :
    Leaves wordSize addr words k r (.address target) := by
  intro load s hpc
  have hbits : bits target 11 0 = target % 4096 := by
    rw [bits_eq]
    omega
  have hadrp := decode_or_pageOffset hr h.target_lt h.pc_lt
  have hadd := decode_add_or hr (show bits target 11 0 < 2 ^ 12 by omega)
  have haddr : pageAddr s.pc (toSigned 21 (pagesFrom target (addr + 4 * k)))
      (bits target 11 0) = target := by
    rw [hpc]
    exact (pageAddr_same_page h rfl (by omega)).mpr hbits
  rw [hpair, hv, hw, run_adrp_addImm load hadrp hadd, haddr]
  rfl

theorem Context.wordSize_eq (ctx : Context) :
    ctx.wordSize = 2 ^ (if ctx.isArm64_32 then 2 else 3) := by
  unfold Context.wordSize
  split <;> rfl

theorem Context.to32_ldr (ctx : Context) (hr : r < 31) :
    ctx.to32 (0xf940_0000 + r + r * 2 ^ 5) =
      0x3940_0000 + (if ctx.isArm64_32 then 2 else 3) * 2 ^ 30 + r + r * 2 ^ 5 := by
  unfold Context.to32
  split
  · have hmask : (0x3fff_ffff : ℕ) = (2 ^ 30 - 1) <<< 0 := by decide
    have hbit : (0x8000_0000 : ℕ) = 2 <<< 30 := by decide
    rw [hmask, and_shiftLeft_mask, hbit,
      or_shiftLeft_eq_add (n := 2) 0 (0x3940_0000 + r + r * 2 ^ 5) (by omega) (by omega)
        (by decide)]
    omega
  · omega

theorem leaves_slot_iff {v w slot base imm : ℕ} (hpair : (words.drop k).take 2 = [v, w])
    (hv : v = (0x9000_0000 + r) ||| pageOffset slot base)
    (hw : w = ctx.to32 (0xf940_0000 + r + r * 2 ^ 5) ||| imm <<< 10)
    (hr : r < 31) (himm : imm < 2 ^ 12) (hslot : slot < 2 ^ 64) (hbase : base < 2 ^ 64) :
    Leaves ctx.wordSize addr words k r (.slot slot) ↔
      pageAddr (addr + 4 * k) (toSigned 21 (pagesFrom slot base)) (imm * ctx.wordSize) =
        slot := by
  have hadrp := decode_or_pageOffset hr hslot hbase
  have hsize : (if ctx.isArm64_32 then 2 else 3) = 2 ∨
      (if ctx.isArm64_32 then 2 else 3) = 3 := by split <;> simp
  have hldr := decode_ldr_or hr hsize himm
  rw [← ctx.to32_ldr hr] at hldr
  have hrun (load : ℕ → ℕ → ℕ) (s : State) (hpc : s.pc = addr + 4 * k) :
      run load s ((words.drop k).take 2) = some ⟨s.pc + 8, Function.update s.reg r
        (load ctx.wordSize (pageAddr (addr + 4 * k) (toSigned 21 (pagesFrom slot base))
          (imm * ctx.wordSize)))⟩ := by
    rw [hpair, hv, hw, run_adrp_ldrImm load hadrp hldr, hpc, ctx.wordSize_eq]
  constructor
  · intro h
    -- a memory that tells the slot from every other address
    let load : ℕ → ℕ → ℕ := fun _ a => if a = slot then 1 else 0
    let s : State := ⟨addr + 4 * k, fun _ => 0⟩
    have hstate := (hrun load s rfl).symm.trans (h load s rfl)
    have hreg := congrFun (State.mk.inj (Option.some.inj hstate)).2 r
    simp only [Function.update_self, Target.value, load, if_true] at hreg
    by_contra hne
    rw [if_neg hne] at hreg
    exact absurd hreg (by decide)
  · intro h load s hpc
    rw [hrun load s hpc, h]
    rfl

theorem leaves_slot_scaled_iff {v w slot : ℕ} (hpair : (words.drop k).take 2 = [v, w])
    (hv : v = (0x9000_0000 + r) ||| pageOffset slot (addr + 4 * k))
    (hw : w = ctx.to32 (0xf940_0000 + r + r * 2 ^ 5) ||| bits slot 11 3 <<< 10)
    (hr : r < 31) (h : Near (addr + 4 * k) slot) (halign : ctx.wordSize ∣ slot) :
    Leaves ctx.wordSize addr words k r (.slot slot) ↔ (ctx.isArm64_32 = true → 4096 ∣ slot) := by
  have hbits : bits slot 11 3 = slot / 8 % 512 := bits_eq slot 11 3
  have himm : bits slot 11 3 < 2 ^ 12 := by omega
  rw [leaves_slot_iff hpair hv hw hr himm h.target_lt h.pc_lt]
  unfold Context.wordSize at halign ⊢
  by_cases h32 : ctx.isArm64_32 = true
  · rw [if_pos h32] at halign ⊢
    rw [pageAddr_same_page h rfl (by omega), hbits]
    constructor
    · intro heq _
      omega
    · intro hdvd
      have := hdvd h32
      omega
  · rw [if_neg h32] at halign ⊢
    rw [pageAddr_same_page h rfl (by omega), hbits]
    constructor
    · intro _ h32'
      exact absurd h32' h32
    · intro _
      omega

namespace Context

theorem wordSize_dvd_eight (ctx : Context) : ctx.wordSize ∣ 8 := by
  unfold wordSize
  split <;> decide

theorem Placed.dvd_getGotAddr (h : ctx.Placed) (sym : Symbol) :
    ctx.wordSize ∣ ctx.getGotAddr sym :=
  Nat.dvd_add (ctx.wordSize_dvd_eight.trans h.got) (Nat.dvd_mul_left _ _)

theorem Placed.dvd_ptrAddr (h : ctx.Placed) (i : ℕ) (sym : Symbol) :
    ctx.wordSize ∣ ctx.ptrAddr i sym := by
  unfold ptrAddr
  cases hlazy : ctx.lazySymbolPtr with
  | none => exact h.dvd_getGotAddr sym
  | some addr =>
    exact Nat.dvd_add (ctx.wordSize_dvd_eight.trans (h.lazySymbolPtr addr hlazy))
      (Nat.dvd_mul_right _ _)

/-! ## The pairs of each section -/

theorem getElem?_zipIdx_of {α : Type*} {l : List α} {i : ℕ} {x : α} (h : l[i]? = some x) :
    l.zipIdx[i]? = some (x, i) := by
  rw [List.getElem?_zipIdx, h, Option.map_some, Nat.zero_add]

theorem Placed.leaves_stub_iff (h : ctx.Placed) {i : ℕ} {sym : Symbol}
    (hsym : ctx.stubSyms[i]? = some sym) :
    Leaves ctx.wordSize ctx.stubs ctx.stubsCopyBuf (3 * i) 16 (.slot (ctx.ptrAddr i sym)) ↔
      (ctx.isArm64_32 = true → 4096 ∣ ctx.ptrAddr i sym) := by
  have haddr : ctx.stubs + 4 * (3 * i) = ctx.stubs + 12 * i := by omega
  have hnear := h.stub i sym hsym
  rw [← haddr] at hnear
  have hpair : (ctx.stubsCopyBuf.drop (3 * i)).take 2 = (ctx.stubEntry (sym, i)).take 2 :=
    take_drop_record (f := ctx.stubEntry) (n := 3) (fun _ => rfl)
      (getElem?_zipIdx_of hsym) (j := 0) (by decide)
  refine leaves_slot_scaled_iff hpair ?_ rfl (by decide) hnear (h.dvd_ptrAddr i sym)
  rw [haddr]

theorem Placed.leaves_dyldPrivate (h : ctx.Placed) (haddr : ctx.stubHelper = some addr) :
    Leaves ctx.wordSize addr (ctx.stubHelperCopyBuf addr) 0 17 (.address ctx.dyldPrivate.addr) :=
  leaves_address rfl rfl rfl (by decide) (h.dyldPrivate addr haddr)

theorem subAddr_page (ctx : Context) (halign : 16 ∣ addr)
    (h32 : ctx.isArm64_32 = true → addr < 2 ^ 32) (hlt : addr < 2 ^ 64) :
    ctx.subAddr addr 12 < 2 ^ 64 ∧
      (¬4096 ∣ addr → ctx.subAddr addr 12 / 4096 = (addr + 12) / 4096) ∧
      (4096 ∣ addr → (ctx.subAddr addr 12 / 4096 + 1) % 2 ^ 20 = (addr + 12) / 4096 % 2 ^ 20) := by
  by_cases harm : ctx.isArm64_32 = true
  · have hlt32 := h32 harm
    have hsub : ctx.subAddr addr 12 = (addr + 2 ^ 32 - 12) % 2 ^ 32 := by
      simp only [subAddr, harm, if_true]
    rw [hsub]
    refine ⟨?_, ?_, ?_⟩ <;> omega
  · have hsub : ctx.subAddr addr 12 = (addr + 2 ^ 64 - 12) % 2 ^ 64 := by
      simp [subAddr, harm]
    rw [hsub]
    refine ⟨?_, ?_, ?_⟩ <;> omega

theorem Placed.leaves_stubBinder_iff (h : ctx.Placed) (haddr : ctx.stubHelper = some addr) :
    Leaves ctx.wordSize addr (ctx.stubHelperCopyBuf addr) 3 16
        (.slot (ctx.getGotAddr ctx.dyldStubBinder)) ↔
      ¬4096 ∣ addr ∧ 4096 ∣ ctx.getGotAddr ctx.dyldStubBinder := by
  obtain ⟨halign, h32⟩ := h.stubHelper addr haddr
  have hnear : Near (addr + 4 * 3) (ctx.getGotAddr ctx.dyldStubBinder) :=
    h.stubBinder addr haddr
  obtain ⟨hbase, hsame, hnext⟩ := ctx.subAddr_page halign h32 (by have := hnear.pc_lt; omega)
  have hbits : bits (ctx.getGotAddr ctx.dyldStubBinder) 11 0 =
      ctx.getGotAddr ctx.dyldStubBinder % 4096 := by
    rw [bits_eq]
    omega
  have hscale : ctx.wordSize = 4 ∨ ctx.wordSize = 8 := by
    unfold wordSize
    split <;> simp
  have hoffset : bits (ctx.getGotAddr ctx.dyldStubBinder) 11 0 * ctx.wordSize < 2 ^ 15 := by
    rcases hscale with hscale | hscale <;> rw [hscale] <;> omega
  rw [leaves_slot_iff rfl rfl rfl (by decide) (by omega) hnear.target_lt hbase]
  by_cases hstart : 4096 ∣ addr
  · obtain ⟨k, hk, hlow, hhigh⟩ :=
      toSigned_pagesFrom (ctx.getGotAddr ctx.dyldStubBinder) (ctx.subAddr addr 12)
    have hpage := hnext hstart
    rw [pageAddr_eq_iff hnear hlow hhigh hoffset, hbits]
    constructor
    · intro heq
      exfalso
      obtain ⟨hpc, htarget, hbelow, habove⟩ := hnear
      rcases hscale with hscale | hscale <;> rw [hscale] at heq <;> omega
    · intro hsafe
      exact absurd hstart hsafe.1
  · rw [pageAddr_same_page hnear (hsame hstart) hoffset, hbits]
    constructor
    · intro heq
      refine ⟨hstart, ?_⟩
      rcases hscale with hscale | hscale <;> rw [hscale] at heq <;> omega
    · intro hsafe
      have hdvd := hsafe.2
      rcases hscale with hscale | hscale <;> rw [hscale] <;> omega

theorem Placed.leaves_selector_iff (h : ctx.Placed) {i sel : ℕ}
    (hsel : ctx.selrefs[i]? = some sel) :
    Leaves ctx.wordSize ctx.objcStubs ctx.objcStubsCopyBuf (8 * i) 1 (.slot sel) ↔
      (ctx.isArm64_32 = true → 4096 ∣ sel) := by
  have haddr : ctx.objcStubs + 4 * (8 * i) = ctx.objcStubs + 32 * i := by omega
  have hnear := h.selector i sel hsel
  rw [← haddr] at hnear
  have hpair : (ctx.objcStubsCopyBuf.drop (8 * i)).take 2 = (ctx.objcStubEntry (sel, i)).take 2 :=
    take_drop_record (f := ctx.objcStubEntry) (n := 8) (fun _ => rfl)
      (getElem?_zipIdx_of hsel) (j := 0) (by decide)
  refine leaves_slot_scaled_iff hpair ?_ rfl (by decide) hnear
    (h.selrefs sel (List.mem_of_getElem? hsel))
  rw [haddr]

theorem Placed.leaves_msgSend_iff (h : ctx.Placed) {i sel : ℕ}
    (hsel : ctx.selrefs[i]? = some sel) :
    Leaves ctx.wordSize ctx.objcStubs ctx.objcStubsCopyBuf (8 * i + 2) 16
        (.slot (ctx.getGotAddr ctx.objcMsgSend)) ↔
      (ctx.isArm64_32 = true → 4096 ∣ ctx.getGotAddr ctx.objcMsgSend) := by
  have haddr : ctx.objcStubs + 4 * (8 * i + 2) = ctx.objcStubs + 32 * i + 8 := by omega
  have hnear := h.msgSend i sel hsel
  rw [← haddr] at hnear
  have hpair : (ctx.objcStubsCopyBuf.drop (8 * i + 2)).take 2 =
      ((ctx.objcStubEntry (sel, i)).drop 2).take 2 :=
    take_drop_record (f := ctx.objcStubEntry) (n := 8) (fun _ => rfl)
      (getElem?_zipIdx_of hsel) (by decide)
  refine leaves_slot_scaled_iff hpair ?_ rfl (by decide) hnear (h.dvd_getGotAddr _)
  rw [haddr]

theorem Placed.leaves_thunk (h : ctx.Placed) {thunk : RangeExtensionThunk}
    (hthunk : thunk ∈ ctx.thunks) {i target : ℕ} (htarget : thunk.symbols[i]? = some target) :
    Leaves ctx.wordSize thunk.addr thunk.copyBuf (3 * i) 16 (.address target) := by
  have haddr : thunk.addr + 4 * (3 * i) = thunk.addr + i * 12 := by omega
  have hnear := h.thunk thunk hthunk i target htarget
  rw [← haddr] at hnear
  have hpair : (thunk.copyBuf.drop (3 * i)).take 2 = (thunk.entry (target, i)).take 2 :=
    take_drop_record (f := thunk.entry) (n := 3) (fun _ => rfl)
      (getElem?_zipIdx_of htarget) (j := 0) (by decide)
  refine leaves_address hpair ?_ rfl (by decide) hnear
  rw [haddr]
  rfl

/-- Which placements the synthetic code is right for. -/
theorem materialises_iff (h : ctx.Placed) : ctx.Materialises ↔ ctx.Safe := by
  constructor
  · intro hmat
    refine ⟨?_, ?_, ?_⟩
    · intro addr haddr
      exact (h.leaves_stubBinder_iff haddr).mp (hmat.stubBinder addr haddr)
    · intro h32 i sym hsym
      exact (h.leaves_stub_iff hsym).mp (hmat.stub i sym hsym) h32
    · intro h32 sel hsel
      obtain ⟨i, hi⟩ := List.mem_iff_getElem?.mp hsel
      exact ⟨(h.leaves_selector_iff hi).mp (hmat.selector i sel hi) h32,
        (h.leaves_msgSend_iff hi).mp (hmat.msgSend i sel hi) h32⟩
  · intro hsafe
    refine ⟨?_, ?_, ?_, ?_, ?_, ?_⟩
    · intro i sym hsym
      exact (h.leaves_stub_iff hsym).mpr fun h32 => hsafe.stub h32 i sym hsym
    · intro addr haddr
      exact h.leaves_dyldPrivate haddr
    · intro addr haddr
      exact (h.leaves_stubBinder_iff haddr).mpr (hsafe.stubHelper addr haddr)
    · intro i sel hsel
      exact (h.leaves_selector_iff hsel).mpr fun h32 =>
        (hsafe.objcStub h32 sel (List.mem_of_getElem? hsel)).1
    · intro i sel hsel
      exact (h.leaves_msgSend_iff hsel).mpr fun h32 =>
        (hsafe.objcStub h32 sel (List.mem_of_getElem? hsel)).2
    · intro thunk hthunk i addr haddr
      exact h.leaves_thunk hthunk haddr

end Context

/-- One lazy stub and a slot of `dyld_stub_binder` at the given address. -/
def oneLazyStub (got : ℕ) : Context :=
  { isArm64_32 := false, got := got, lazySymbolPtr := some 0xc000, stubs := 0x4000,
    stubSyms := [⟨0x9000, 1⟩], stubHelper := some 0x4010, bindOffsets := [0],
    dyldPrivate := ⟨0xc008, 0⟩, dyldStubBinder := ⟨0, 0⟩, objcStubs := 0, selrefs := [],
    objcMsgSend := ⟨0, 0⟩, thunks := [] }

theorem placed_oneLazyStub {got : ℕ} (halign : 8 ∣ got) (hlow : 0x8000 ≤ got)
    (hhigh : got < 0xc000) : (oneLazyStub got).Placed := by
  have hsym {i : ℕ} {sym : Symbol} (h : (oneLazyStub got).stubSyms[i]? = some sym) : i = 0 := by
    have hlt := (List.getElem?_eq_some_iff.mp h).1
    exact Nat.lt_one_iff.mp hlt
  refine
    { got := halign
      lazySymbolPtr := ?_
      stubHelper := ?_
      selrefs := ?_
      stub := ?_
      dyldPrivate := ?_
      stubBinder := ?_
      selector := ?_
      msgSend := ?_
      thunk := ?_ }
  · rintro addr ⟨⟩
    decide
  · rintro addr ⟨⟩
    exact ⟨by decide, fun _ => by decide⟩
  · intro sel hsel
    cases hsel
  · intro i sym h
    cases hsym h
    have hnear : Near 0x4000 0xc000 := ⟨by decide, by decide, by decide, by decide⟩
    exact hnear
  · rintro addr ⟨⟩
    have hnear : Near 0x4010 0xc008 := ⟨by decide, by decide, by decide, by decide⟩
    exact hnear
  · rintro addr ⟨⟩
    have hslot : (oneLazyStub got).getGotAddr (oneLazyStub got).dyldStubBinder = got :=
      Nat.add_zero got
    rw [hslot]
    exact ⟨by omega, by omega, by omega, by omega⟩
  · intro i sel h
    cases h
  · intro i sel h
    cases h
  · intro thunk hthunk
    cases hthunk

/-- A slot at the start of a page is found. -/
theorem materialises_oneLazyStub_page : (oneLazyStub 0x8000).Materialises :=
  (Context.materialises_iff (placed_oneLazyStub (by decide) (by decide) (by decide))).mpr
    { stubHelper := by
        rintro addr ⟨⟩
        decide
      stub := by
        intro h
        cases h
      objcStub := by
        intro h
        cases h }

/-- The next slot is not: the header loads from eight times its offset. -/
theorem not_materialises_oneLazyStub :
    (oneLazyStub 0x8008).Placed ∧ ¬(oneLazyStub 0x8008).Materialises := by
  have hplaced : (oneLazyStub 0x8008).Placed :=
    placed_oneLazyStub (by decide) (by decide) (by decide)
  refine ⟨hplaced, ?_⟩
  intro hmat
  have hslot := (hplaced.leaves_stubBinder_iff rfl).mp (hmat.stubBinder 0x4010 rfl)
  exact absurd hslot.2 (by decide)

end Mold.MachO.Arm64
