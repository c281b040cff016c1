import Mold.Elf.Arm32Addends
import Mold.Lib.Ppc64

/-!
# Calls of 64-bit PowerPC

`R_PPC64_REL24` and `R_PPC64_REL24_NOTOC` of `arch-ppc64v2.cc`: the branch, the word behind it,
and the thunk that the branch may go through.

A function that uses the TOC has two entries.  The local one needs the TOC pointer in `r2`, and
the global one needs its own address in `r12`.  A call with the first type has the TOC pointer,
and one with the second has none.  A function that needs no TOC pointer is called with neither.
-/

namespace Mold.Elf.Ppc64Calls

open Mold.Lib Mold.Lib.BitField Mold.Lib.BitScatter Mold.Lib.Ppc64
open Mold.Elf.Riscv (bits)
open Mold.Elf.Arm32 (bits_eq_div)

/-! ## Relocations -/

inductive RelType where
  | rel24
  | rel24Notoc
  deriving DecidableEq

structure Symbol where
  hasPlt : Bool
  ppcLocalEntry : Fin 8
  /-- `sym.get_addr(ctx)` -/
  addr : BitVec 64
  /-- `get_got_addr` or `get_gotplt_addr`, where the address is loaded from. -/
  gotAddr : BitVec 64

def Symbol.preservesR2 (sym : Symbol) : Bool := sym.ppcLocalEntry.val != 1

def Symbol.usesToc (sym : Symbol) : Bool := decide (1 < sym.ppcLocalEntry.val)

/-- `get_local_entry_offset`, which fails on the reserved number. -/
def Symbol.localEntryOffset (sym : Symbol) : Option (BitVec 64) :=
  if sym.ppcLocalEntry.val = 7 then none
  else if sym.ppcLocalEntry.val = 0 ∨ sym.ppcLocalEntry.val = 1 then some 0
  else some (1 <<< sym.ppcLocalEntry.val)

/-- A call: its relocation, and the thunk that `range_extn` names for it. -/
structure Call where
  type : RelType
  sym : Symbol
  A : BitVec 64
  P : BitVec 64
  TOC : BitVec 64
  thunk : Option (BitVec 64)

/-- `is_reachable`: the section of the symbol is in the same output section, it has an address,
and a branch reaches the symbol. -/
def Call.isReachable (c : Call) (sameSection hasOffset : Bool) : Bool :=
  sameSection && !c.sym.hasPlt && hasOffset && !(c.type == .rel24 && !c.sym.preservesR2) &&
    !(c.type == .rel24Notoc && c.sym.usesToc) &&
    decide (-2 ^ 25 ≤ (c.sym.addr + c.A - c.P).toInt) &&
    decide ((c.sym.addr + c.A - c.P).toInt < 2 ^ 25)

/-- `r2save_thunk_addr` and `no_r2save_thunk_addr`, which need a thunk. -/
def Call.r2saveThunkAddr (c : Call) : Option (BitVec 64) := c.thunk

def Call.noR2saveThunkAddr (c : Call) : Option (BitVec 64) := c.thunk.map (· + 4)

/-- The thunk saves `r2`, and the word behind the call restores it. -/
def Call.savesR2 (c : Call) : Bool :=
  c.type == .rel24 && (c.sym.hasPlt || !c.sym.preservesR2)

/-- The distance `val` to a place if it can be reached without a thunk, or to the thunk. -/
def Call.direct (c : Call) (dest : BitVec 64) : Option (BitVec 64) :=
  let val := dest + c.A - c.P
  if signExtend val 25 ≠ val then c.noR2saveThunkAddr.map (· + c.A - c.P) else some val

/-- The distance `val` that the branch goes. -/
def Call.val (c : Call) : Option (BitVec 64) :=
  match c.type with
  | .rel24 =>
    if c.sym.hasPlt || !c.sym.preservesR2 then c.r2saveThunkAddr.map (· + c.A - c.P)
    else c.sym.localEntryOffset.bind fun offset => c.direct (c.sym.addr + offset)
  | .rel24Notoc =>
    if c.sym.hasPlt || c.sym.usesToc then c.noR2saveThunkAddr.map (· + c.A - c.P)
    else c.direct c.sym.addr

/-- `*(ul32 *)loc = x` -/
def set32 (mem : Memory) (loc : BitVec 64) (x : ℕ) : Memory :=
  storeField .little 4 mem loc.toNat x

/-- The two cases of `apply_reloc_alloc`, on a memory with the places of the addresses. -/
def Call.apply (c : Call) (mem : Memory) : Option Memory :=
  c.val.map fun val =>
    let mem := set32 mem c.P (fetch mem c.P ||| bits val.toNat 25 2 <<< 2)
    if c.savesR2 ∧ fetch mem (c.P + 4) = 0x60000000 then set32 mem (c.P + 4) 0xe8410018 else mem

def higha (x : BitVec 64) : ℕ := (x + 0x8000).toNat >>> 16 &&& 0xffff

def lo (x : BitVec 64) : ℕ := x.toNat &&& 0xffff

def prefix34 (x : BitVec 64) : ℕ := bits x.toNat 33 16 ||| bits x.toNat 15 0 <<< 32

/-- An instruction with a prefix, whose two words are changed as one number. -/
def orPrefix34 (p w : ℕ) (x : BitVec 64) : List ℕ :=
  let d := (p ||| w <<< 32) ||| prefix34 x
  [d % 2 ^ 32, d / 2 ^ 32]

/-- `copy_buf` of one symbol: the words of the thunk at an address. -/
def thunkWords (isPower10 : Bool) (TOC : BitVec 64) (sym : Symbol) (addr : BitVec 64) : List ℕ :=
  let dest := if sym.hasPlt then sym.gotAddr else sym.addr
  0xf8410018 ::
    ((if isPower10 then
        if sym.hasPlt then orPrefix34 0x04100000 0xe5800000 (dest - addr - 4)
        else orPrefix34 0x06100000 0x39800000 (dest - addr - 4)
      else
        let val := dest - TOC
        [0x3d820000 ||| higha val,
          if sym.hasPlt then 0xe98c0000 ||| lo val else 0x398c0000 ||| lo val]) ++
      [0x7d8903a6, 0x4e800420])

/-! ## Where calls go -/

def Symbol.target (sym : Symbol) (mem : Memory) : BitVec 64 :=
  if sym.hasPlt then load64 mem sym.gotAddr else sym.addr

/-- What the thunk reads or computes is in its reach.  A prefix may not be at the end of a block
of 64 bytes. -/
def ThunkFits (isPower10 : Bool) (TOC : BitVec 64) (sym : Symbol) (addr : BitVec 64) : Prop :=
  let dest := if sym.hasPlt then sym.gotAddr else sym.addr
  if isPower10 then
    (addr + 4).toNat % 64 ≠ 60 ∧ -2 ^ 33 ≤ (dest - addr - 4).toInt ∧
      (dest - addr - 4).toInt < 2 ^ 33
  else
    (-2 ^ 31 - 2 ^ 15 ≤ (dest - TOC).toInt ∧ (dest - TOC).toInt < 2 ^ 31 - 2 ^ 15) ∧
      (sym.hasPlt = true → (dest - TOC).toNat % 4 = 0)

def InReach (d : BitVec 64) : Prop :=
  (-2 ^ 25 ≤ d.toInt ∧ d.toInt < 2 ^ 25) ∧ d.toNat % 4 = 0

instance instDecidableInReach (d : BitVec 64) : Decidable (InReach d) :=
  inferInstanceAs (Decidable (_ ∧ _))

/-- A call as `scan_relocations` and `scan_rels` leave it, in a section from `start` to `stop`. -/
structure Call.Valid (c : Call) (isPower10 sameSection hasOffset : Bool) (mem : Memory)
    (start stop : ℕ) : Prop where
  word : fetch mem c.P = 0x48000001
  inside : start ≤ c.P.toNat ∧ c.P.toNat + 4 ≤ stop
  space : c.P.toNat + 8 ≤ 2 ^ 64
  addend : c.A = 0
  entry : c.sym.ppcLocalEntry.val ≠ 7
  power10 : c.type = .rel24Notoc → isPower10 = true
  thunk : c.thunk = none → c.isReachable sameSection hasOffset = true
  thunk_reach : ∀ t, c.thunk = some t → InReach (t - c.P) ∧ InReach (t + 4 - c.P)
  thunk_fits : ∀ t, c.thunk = some t → ThunkFits isPower10 c.TOC c.sym t
  aligned : ∀ offset, c.sym.localEntryOffset = some offset →
    (c.sym.addr + offset - c.P).toNat % 4 = 0
  local_reach : c.isReachable sameSection hasOffset = true →
    ∀ offset, c.sym.localEntryOffset = some offset → InReach (c.sym.addr + offset - c.P)

/-- How a call enters the function.  A function without a TOC pointer has one entry, which a
call without one may enter directly. -/
structure Call.Entered (c : Call) (s s' : State) : Prop where
  entry : (∃ offset, c.sym.localEntryOffset = some offset ∧ s'.pc = c.sym.addr + offset ∧
      s'.gpr 2 = c.TOC) ∨
    (s'.pc = c.sym.target s'.mem ∧ s'.gpr 12 = s'.pc) ∨
    (c.type = .rel24Notoc ∧ c.sym.usesToc = false ∧ c.sym.hasPlt = false ∧ s'.pc = c.sym.addr)
  lr : s'.lr = c.P + 4
  stack : s'.gpr 1 = s.gpr 1
  toc : s'.gpr 2 = s.gpr 2

/-- A call enters the function, and `r2` is in its slot where it has to be restored. -/
def Call.Enters (c : Call) (code : Memory) : Prop :=
  ∀ s : State, s.pc = c.P → (c.type = .rel24 → s.gpr 2 = c.TOC) →
    ∃ s', Runs code s s' ∧ c.Entered s s' ∧
      (c.savesR2 = true → load64 s'.mem (s.gpr 1 + 24) = s.gpr 2)

/-- The instruction that a call returns to loads `r2` from the slot. -/
def Call.Restores (c : Call) (code : Memory) : Prop :=
  ∀ s : State, s.pc = c.P + 4 → ∃ s', step code s = some s' ∧ s'.pc = c.P + 8 ∧
    s'.gpr = Function.update s.gpr 2 (load64 s.mem (s.gpr 1 + 24)) ∧ s'.mem = s.mem

section Thunk

variable {code : Memory} {isPower10 : Bool} {TOC : BitVec 64} {sym : Symbol} {t : BitVec 64}

theorem orPrefix34_eq {p : ℕ} (hp : p < 2 ^ 32) (w : ℕ) (x : BitVec 64) :
    orPrefix34 p w x = [p ||| bits x.toNat 33 16, w ||| bits x.toNat 15 0] := by
  have hhigh : bits x.toNat 33 16 < 2 ^ 32 := by
    rw [bits_eq_div]
    omega
  have hlow : bits x.toNat 15 0 < 2 ^ 32 := by
    rw [bits_eq_div]
    omega
  have hsum : (p ||| w <<< 32) ||| prefix34 x =
      (p ||| bits x.toNat 33 16) ||| (w ||| bits x.toNat 15 0) <<< 32 := by
    rw [prefix34, Nat.shiftLeft_or_distrib, Nat.or_assoc, Nat.or_assoc, Nat.or_left_comm (w <<< 32)]
  have hp' : p ||| bits x.toNat 33 16 < 2 ^ 32 := Nat.or_lt_two_pow hp hhigh
  have hadd : (p ||| bits x.toNat 33 16) ||| (w ||| bits x.toNat 15 0) <<< 32 =
      (w ||| bits x.toNat 15 0) * 2 ^ 32 + (p ||| bits x.toNat 33 16) := by
    rw [Nat.or_comm, Nat.shiftLeft_eq]
    exact or_low (Nat.mul_mod_left _ _) hp'
  simp only [orPrefix34, hsum, hadd]
  congr 1
  · omega
  · congr 1
    omega

theorem higha_eq (x : BitVec 64) : higha x = (x.toNat + 0x8000) % 2 ^ 64 / 2 ^ 16 % 2 ^ 16 := by
  rw [higha, Nat.shiftRight_eq_div_pow, BitVec.toNat_add]
  exact Nat.and_two_pow_sub_one_eq_mod _ 16

theorem lo_eq (x : BitVec 64) : lo x = x.toNat % 2 ^ 16 := Nat.and_two_pow_sub_one_eq_mod _ 16

theorem signExtend_prefix34 {x : BitVec 64} (hlow : -2 ^ 33 ≤ x.toInt) (hhigh : x.toInt < 2 ^ 33) :
    signExtend (BitVec.ofNat 64 (bits x.toNat 33 16 * 2 ^ 16 + bits x.toNat 15 0)) 33 = x := by
  have hint : x.toInt = if 2 * x.toNat < 2 ^ 64 then (x.toNat : ℤ) else x.toNat - 2 ^ 64 := by
    rw [BitVec.toInt_eq_toNat_cond]
    rfl
  have hmod : bits x.toNat 33 16 * 2 ^ 16 + bits x.toNat 15 0 = x.toNat % 2 ^ 34 := by
    rw [bits_eq_div, bits_eq_div]
    omega
  have hext := signExtend_eq_ofInt (n := x.toNat % 2 ^ 34) (show 33 ≤ 63 by decide) hlow hhigh
    (by split at hint <;> omega)
  rw [hmod, hext, BitVec.ofInt_toInt]

theorem add_sub_self (a b : BitVec 64) : a + (b - a) = b := by
  rw [BitVec.add_comm, BitVec.sub_add_cancel]

theorem add_zero_sub (a b : BitVec 64) : a + 0 - b = a - b := by
  have hzero : a + 0 = a := BitVec.add_zero a
  rw [hzero]

theorem add_four_add (a : BitVec 64) (n : BitVec 64) : a + 4 + n = a + (4 + n) :=
  BitVec.add_assoc a 4 n

theorem bits_low_lt (v : ℕ) : bits v 15 0 < 2 ^ 16 := by
  rw [bits_eq_div]
  exact Nat.mod_lt _ (by decide)

theorem bits_high_lt (v : ℕ) : bits v 33 16 < 2 ^ 18 := by
  rw [bits_eq_div]
  exact Nat.mod_lt _ (by decide)

theorem runs_middle_toc {s : State} (hwords : HasWords code t (thunkWords false TOC sym t))
    (hfits : ThunkFits false TOC sym t) (hpc : s.pc = t + 4) (htoc : s.gpr 2 = TOC) :
    ∃ s', Runs code s s' ∧ s'.pc = t + 12 ∧
      s'.gpr = Function.update s.gpr 12 (sym.target s.mem) ∧ s'.lr = s.lr ∧ s'.mem = s.mem := by
  obtain ⟨⟨hlow, hhigh⟩, hfour⟩ := hfits
  have hhi := fun x => (higha_eq x).trans_lt (Nat.mod_lt _ (by decide : 0 < 2 ^ 16))
  have hlo := fun x => (lo_eq x).trans_lt (Nat.mod_lt _ (by decide : 0 < 2 ^ 16))
  have hpc' : t + 4 + 4 = t + 8 := add_four_add t 4
  have hpc'' : t + 8 + 4 = t + 12 := BitVec.add_assoc t 8 4
  have hbase : s.base 2 = TOC := htoc
  cases hplt : sym.hasPlt with
  | true =>
    simp only [hplt, if_true] at hlow hhigh hfour
    have hfetch₁ : fetch code (t + 4) = 0x3d820000 ||| higha (sym.gotAddr - TOC) :=
      hwords 1 _ (by simp only [thunkWords, hplt]; rfl)
    have hfetch₂ : fetch code (t + 8) = 0xe98c0000 ||| lo (sym.gotAddr - TOC) :=
      hwords 2 _ (by simp only [thunkWords, hplt]; rfl)
    have hlofour : lo (sym.gotAddr - TOC) % 4 = 0 := by
      have hmod := hfour trivial
      rw [lo_eq]
      omega
    have hsum := @add_high_low _ TOC hlow hhigh _ _ (higha_eq _) (lo_eq _)
    rw [add_sub_self] at hsum
    have hstep₁ : step code s = some (exec s _) :=
      step_of_decode (hpc.symm ▸ hfetch₁.symm ▸ decode_addis_r12_r2 (hhi _))
    refine ⟨_, .tail (.single hstep₁) (step_of_decode (s := exec s _)
      (i := .ld 12 12 (signExtend (BitVec.ofNat 64 (lo (sym.gotAddr - TOC))) 15)) ?_), ?_, ?_,
      rfl, rfl⟩
    · change decode (fetch code (s.pc + 4)) = _
      rw [hpc, hpc', hfetch₂]
      exact decode_ld_r12_r12 (hlo _) hlofour
    · change s.pc + 4 + 4 = t + 12
      rw [hpc, hpc', hpc'']
    · change Function.update (Function.update s.gpr 12 _) 12 (load64 s.mem (Function.update s.gpr 12
        (s.base 2 + signExtend (BitVec.ofNat 64 (higha (sym.gotAddr - TOC))) 15 <<< 16) 12 +
          signExtend (BitVec.ofNat 64 (lo (sym.gotAddr - TOC))) 15)) = _
      rw [Function.update_idem, Function.update_self, hbase, hsum, Symbol.target, hplt, if_pos rfl]
  | false =>
    simp only [hplt, Bool.false_eq_true, if_false] at hlow hhigh
    have hfetch₁ : fetch code (t + 4) = 0x3d820000 ||| higha (sym.addr - TOC) :=
      hwords 1 _ (by simp only [thunkWords, hplt]; rfl)
    have hfetch₂ : fetch code (t + 8) = 0x398c0000 ||| lo (sym.addr - TOC) :=
      hwords 2 _ (by simp only [thunkWords, hplt]; rfl)
    have hsum := @add_high_low _ TOC hlow hhigh _ _ (higha_eq _) (lo_eq _)
    rw [add_sub_self] at hsum
    have hstep₁ : step code s = some (exec s _) :=
      step_of_decode (hpc.symm ▸ hfetch₁.symm ▸ decode_addis_r12_r2 (hhi _))
    refine ⟨_, .tail (.single hstep₁) (step_of_decode (s := exec s _)
      (i := .addi 12 12 (signExtend (BitVec.ofNat 64 (lo (sym.addr - TOC))) 15)) ?_), ?_, ?_,
      rfl, rfl⟩
    · change decode (fetch code (s.pc + 4)) = _
      rw [hpc, hpc', hfetch₂]
      exact decode_addi_r12_r12 (hlo _)
    · change s.pc + 4 + 4 = t + 12
      rw [hpc, hpc', hpc'']
    · change Function.update (Function.update s.gpr 12 _) 12 (Function.update s.gpr 12
        (s.base 2 + signExtend (BitVec.ofNat 64 (higha (sym.addr - TOC))) 15 <<< 16) 12 +
          signExtend (BitVec.ofNat 64 (lo (sym.addr - TOC))) 15) = _
      rw [Function.update_idem, Function.update_self, hbase, hsum, Symbol.target, hplt,
        if_neg Bool.false_ne_true]

theorem runs_middle_power10 {s : State} (hwords : HasWords code t (thunkWords true TOC sym t))
    (hfits : ThunkFits true TOC sym t) (hpc : s.pc = t + 4) :
    ∃ s', Runs code s s' ∧ s'.pc = t + 12 ∧
      s'.gpr = Function.update s.gpr 12 (sym.target s.mem) ∧ s'.lr = s.lr ∧ s'.mem = s.mem := by
  obtain ⟨halign, hlow, hhigh⟩ := hfits
  have hpc' : t + 4 + 4 = t + 8 := add_four_add t 4
  have hpc'' : t + 4 + 8 = t + 12 := add_four_add t 8
  have hdest (dest : BitVec 64) : t + 4 + (dest - t - 4) = dest := by
    rw [BitVec.sub_sub, add_sub_self]
  cases hplt : sym.hasPlt with
  | true =>
    simp only [hplt, if_true] at hlow hhigh
    have hwords' : HasWords code t (thunkWords true TOC sym t) := hwords
    simp only [thunkWords, hplt, if_true, orPrefix34_eq (by decide : 0x04100000 < 2 ^ 32)]
      at hwords'
    have hfetch₁ : fetch code (t + 4) = _ := hwords' 1 _ rfl
    have hfetch₂ : fetch code (t + 8) = _ := hwords' 2 _ rfl
    have hdecode : decodePrefixed (fetch code s.pc) (fetch code (s.pc + 4)) =
        some (.pld 12 (sym.gotAddr - t - 4)) := by
      rw [hpc, hpc', hfetch₁, hfetch₂, decodePrefixed_pld_r12 (bits_high_lt _) (bits_low_lt _),
        signExtend_prefix34 hlow hhigh]
    refine ⟨_, .single (step_of_decodePrefixed (hpc.symm ▸ halign) hdecode), ?_, ?_, rfl, rfl⟩
    · change s.pc + 8 = t + 12
      rw [hpc, hpc'']
    · change Function.update s.gpr 12 (load64 s.mem (s.pc + (sym.gotAddr - t - 4))) = _
      rw [hpc, hdest, Symbol.target, hplt, if_pos rfl]
  | false =>
    simp only [hplt, Bool.false_eq_true, if_false] at hlow hhigh
    have hwords' : HasWords code t (thunkWords true TOC sym t) := hwords
    simp only [thunkWords, hplt, if_true, Bool.false_eq_true, if_false,
      orPrefix34_eq (by decide : 0x06100000 < 2 ^ 32)] at hwords'
    have hfetch₁ : fetch code (t + 4) = _ := hwords' 1 _ rfl
    have hfetch₂ : fetch code (t + 8) = _ := hwords' 2 _ rfl
    have hdecode : decodePrefixed (fetch code s.pc) (fetch code (s.pc + 4)) =
        some (.pla 12 (sym.addr - t - 4)) := by
      rw [hpc, hpc', hfetch₁, hfetch₂, decodePrefixed_pla_r12 (bits_high_lt _) (bits_low_lt _),
        signExtend_prefix34 hlow hhigh]
    refine ⟨_, .single (step_of_decodePrefixed (hpc.symm ▸ halign) hdecode), ?_, ?_, rfl, rfl⟩
    · change s.pc + 8 = t + 12
      rw [hpc, hpc'']
    · change Function.update s.gpr 12 (s.pc + (sym.addr - t - 4)) = _
      rw [hpc, hdest, Symbol.target, hplt, if_neg Bool.false_ne_true]

theorem fetch_tail (hwords : HasWords code t (thunkWords isPower10 TOC sym t)) :
    fetch code (t + 12) = 0x7d8903a6 ∧ fetch code (t + 16) = 0x4e800420 := by
  constructor
  · refine hwords 3 _ ?_
    cases isPower10 <;> cases hplt : sym.hasPlt <;> simp only [thunkWords, hplt] <;> rfl
  · refine hwords 4 _ ?_
    cases isPower10 <;> cases hplt : sym.hasPlt <;> simp only [thunkWords, hplt] <;> rfl

theorem runs_thunk {s : State} (hwords : HasWords code t (thunkWords isPower10 TOC sym t))
    (hfits : ThunkFits isPower10 TOC sym t) (hpc : s.pc = t + 4)
    (htoc : isPower10 = false → s.gpr 2 = TOC) :
    ∃ s', Runs code s s' ∧ s'.pc = sym.target s.mem ∧
      s'.gpr = Function.update s.gpr 12 (sym.target s.mem) ∧ s'.lr = s.lr ∧ s'.mem = s.mem := by
  obtain ⟨s₁, hruns, hpc₁, hgpr, hlr, hmem⟩ : ∃ s', Runs code s s' ∧ s'.pc = t + 12 ∧
      s'.gpr = Function.update s.gpr 12 (sym.target s.mem) ∧ s'.lr = s.lr ∧ s'.mem = s.mem := by
    cases isPower10 with
    | true => exact runs_middle_power10 hwords hfits hpc
    | false => exact runs_middle_toc hwords hfits hpc (htoc rfl)
  obtain ⟨hfetch₃, hfetch₄⟩ := fetch_tail hwords
  have hmtctr : decode (fetch code s₁.pc) = some (.mtctr 12) := by
    rw [hpc₁, hfetch₃]
    rfl
  have hbctr : decode (fetch code (exec s₁ (.mtctr 12)).pc) = some .bctr := by
    have hpc₂ : t + 12 + 4 = t + 16 := BitVec.add_assoc t 12 4
    change decode (fetch code (s₁.pc + 4)) = _
    rw [hpc₁, hpc₂, hfetch₄]
    rfl
  refine ⟨_, (hruns.tail (step_of_decode hmtctr)).tail (step_of_decode hbctr), ?_, hgpr, hlr, hmem⟩
  change s₁.gpr 12 = _
  rw [hgpr, Function.update_self]

end Thunk

section Branch

variable {mem code : Memory} {P : BitVec 64}

theorem toNat_add_four (h : P.toNat + 8 ≤ 2 ^ 64) : (P + 4).toNat = P.toNat + 4 := by
  rw [BitVec.toNat_add]
  change (P.toNat + 4) % 2 ^ 64 = _
  omega

theorem fetch_congr {a : BitVec 64} (h : ∀ k, a.toNat ≤ k → k < a.toNat + 4 → code k = mem k) :
    fetch code a = fetch mem a := by
  rw [fetch, fetch, loadField, loadField]
  congr 1
  apply List.map_congr_left
  intro i hi
  have hlt := List.mem_range.mp hi
  exact h _ (Nat.le_add_right _ _) (Nat.add_lt_add_left hlt _)

theorem fetch_set32_self {x : ℕ} (hx : x < 2 ^ 32) : fetch (set32 mem P x) P = x := by
  rw [fetch, set32, loadField_storeField]
  exact Nat.mod_eq_of_lt hx

theorem fetch_set32_next (h : P.toNat + 8 ≤ 2 ^ 64) (x : ℕ) :
    fetch (set32 mem P x) (P + 4) = fetch mem (P + 4) := by
  rw [fetch, fetch, set32, toNat_add_four h]
  exact loadField_storeField_of_apart x (.inl (Nat.le_refl _))

theorem fetch_set32_prev (h : P.toNat + 8 ≤ 2 ^ 64) (x : ℕ) :
    fetch (set32 mem (P + 4) x) P = fetch mem P := by
  rw [fetch, fetch, set32, toNat_add_four h]
  exact loadField_storeField_of_apart x (.inr (Nat.le_refl _))

theorem decode_patched {val : BitVec 64} (h : InReach val) :
    0x48000001 ||| bits val.toNat 25 2 <<< 2 < 2 ^ 32 ∧
      decode (0x48000001 ||| bits val.toNat 25 2 <<< 2) = some (.bl val) := by
  obtain ⟨⟨hlow, hhigh⟩, hfour⟩ := h
  have hint : val.toInt = if 2 * val.toNat < 2 ^ 64 then (val.toNat : ℤ) else val.toNat - 2 ^ 64 := by
    rw [BitVec.toInt_eq_toNat_cond]
    rfl
  have hx : bits val.toNat 25 2 <<< 2 = val.toNat % 2 ^ 26 := by
    rw [bits_eq_div, Nat.shiftLeft_eq]
    omega
  have hlt : val.toNat % 2 ^ 26 < 2 ^ 26 := Nat.mod_lt _ (by decide)
  have hext := signExtend_eq_ofInt (n := val.toNat % 2 ^ 26) (show 25 ≤ 63 by decide) hlow hhigh
    (by split at hint <;> omega)
  rw [hx, decode_bl hlt (by omega), hext, BitVec.ofInt_toInt]
  exact ⟨Nat.or_lt_two_pow (by decide) (by omega), rfl⟩

end Branch

section Call

variable {c : Call} {isPower10 sameSection hasOffset : Bool} {mem : Memory} {start stop : ℕ}

theorem Call.direct_eq {dest : BitVec 64} (hA : c.A = 0) (hfour : (dest - c.P).toNat % 4 = 0)
    (hthunk : c.thunk = none → InReach (dest - c.P)) :
    (c.direct dest = some (dest - c.P) ∧ InReach (dest - c.P)) ∨
      ∃ t, c.thunk = some t ∧ c.direct dest = some (t + 4 - c.P) := by
  have hdest : dest + c.A - c.P = dest - c.P := by rw [hA, add_zero_sub]
  by_cases hext : signExtend (dest - c.P) 25 = dest - c.P
  · refine .inl ⟨?_, (signExtend_eq_iff (by decide)).mp hext, hfour⟩
    simp only [Call.direct, hdest, ne_eq, hext, not_true_eq_false, if_false]
  · obtain ⟨t, ht⟩ : ∃ t, c.thunk = some t := by
      rw [← Option.ne_none_iff_exists']
      intro hnone
      exact hext ((signExtend_eq_iff (by decide)).mpr (hthunk hnone).1)
    refine .inr ⟨t, ht, ?_⟩
    simp only [Call.direct, ne_eq, hext, not_false_eq_true, if_true, Call.noR2saveThunkAddr,
      ht, Option.map_some, hA, add_zero_sub]

theorem Call.Valid.exists_thunk (h : c.Valid isPower10 sameSection hasOffset mem start stop)
    (hreach : c.isReachable sameSection hasOffset = false) : ∃ t, c.thunk = some t := by
  rw [← Option.ne_none_iff_exists']
  intro hnone
  exact Bool.false_ne_true (hreach.symm.trans (h.thunk hnone))

theorem Call.isReachable_eq_false (h : c.sym.hasPlt = true ∨
      (c.type = .rel24 ∧ c.sym.preservesR2 = false) ∨
        (c.type = .rel24Notoc ∧ c.sym.usesToc = true)) (sameSection hasOffset : Bool) :
    c.isReachable sameSection hasOffset = false := by
  rw [Call.isReachable]
  rcases h with h | ⟨htype, h⟩ | ⟨htype, h⟩
  · rw [h, Bool.not_true, Bool.and_false]
    simp only [Bool.false_and]
  · rw [htype, h]
    simp
  · rw [htype, h]
    simp

theorem localEntryOffset_isSome (h : c.sym.ppcLocalEntry.val ≠ 7) :
    ∃ offset, c.sym.localEntryOffset = some offset := by
  rw [Symbol.localEntryOffset, if_neg h]
  split
  · exact ⟨_, rfl⟩
  · exact ⟨_, rfl⟩

theorem localEntryOffset_of_not_usesToc (h : c.sym.usesToc = false) :
    c.sym.localEntryOffset = some 0 := by
  rw [Symbol.usesToc, decide_eq_false_iff_not] at h
  rw [Symbol.localEntryOffset, if_neg (by omega), if_pos (by omega)]

inductive Call.Goes (c : Call) (val : BitVec 64) : Prop where
  | saving (t : BitVec 64) (hthunk : c.thunk = some t) (hsaves : c.savesR2 = true)
      (hdest : c.P + val = t)
  | thunk (t : BitVec 64) (hthunk : c.thunk = some t) (hsaves : c.savesR2 = false)
      (hdest : c.P + val = t + 4)
  | local (offset : BitVec 64) (hoffset : c.sym.localEntryOffset = some offset)
      (htype : c.type = .rel24) (hsaves : c.savesR2 = false)
      (hdest : c.P + val = c.sym.addr + offset)
  | only (htype : c.type = .rel24Notoc) (hplt : c.sym.hasPlt = false)
      (htoc : c.sym.usesToc = false) (hsaves : c.savesR2 = false)
      (hdest : c.P + val = c.sym.addr)

theorem Call.Valid.exists_val (h : c.Valid isPower10 sameSection hasOffset mem start stop) :
    ∃ val, c.val = some val ∧ InReach val ∧ c.Goes val := by
  have hA := h.addend
  cases htype : c.type with
  | rel24 =>
    cases hsaves : c.sym.hasPlt || !c.sym.preservesR2 with
    | true =>
      have hthunk := h.exists_thunk (Call.isReachable_eq_false (by
        rcases (Bool.or_eq_true _ _).mp hsaves with hplt | hr2
        · exact .inl hplt
        · exact .inr (.inl ⟨htype, (Bool.not_eq_true' _).mp hr2⟩)) _ _)
      obtain ⟨t, ht⟩ := hthunk
      have hsaves' : c.savesR2 = true := by
        rw [Call.savesR2, htype, hsaves]
        rfl
      refine ⟨t - c.P, ?_, (h.thunk_reach t ht).1, .saving t ht hsaves' (add_sub_self _ _)⟩
      simp only [Call.val, htype, hsaves, if_true, Call.r2saveThunkAddr, ht, Option.map_some,
        hA, add_zero_sub]
    | false =>
      have hsaves' : c.savesR2 = false := by
        rw [Call.savesR2, hsaves, Bool.and_false]
      obtain ⟨offset, hoffset⟩ := localEntryOffset_isSome h.entry
      have hval : c.val = c.direct (c.sym.addr + offset) := by
        simp only [Call.val, htype, hsaves, Bool.false_eq_true, if_false, hoffset,
          Option.bind_some]
      rcases Call.direct_eq hA (h.aligned offset hoffset)
        (fun hnone => h.local_reach (h.thunk hnone) offset hoffset) with
        ⟨hdirect, hreach⟩ | ⟨t, ht, hdirect⟩
      · exact ⟨_, hval.trans hdirect, hreach,
          .local offset hoffset htype hsaves' (add_sub_self _ _)⟩
      · exact ⟨_, hval.trans hdirect, (h.thunk_reach t ht).2,
          .thunk t ht hsaves' (add_sub_self _ _)⟩
  | rel24Notoc =>
    have hsaves' : c.savesR2 = false := by
      rw [Call.savesR2, htype]
      rfl
    cases huses : c.sym.hasPlt || c.sym.usesToc with
    | true =>
      obtain ⟨t, ht⟩ := h.exists_thunk (Call.isReachable_eq_false (by
        rcases (Bool.or_eq_true _ _).mp huses with hplt | htoc
        · exact .inl hplt
        · exact .inr (.inr ⟨htype, htoc⟩)) _ _)
      refine ⟨t + 4 - c.P, ?_, (h.thunk_reach t ht).2, .thunk t ht hsaves' (add_sub_self _ _)⟩
      simp only [Call.val, htype, huses, if_true, Call.noR2saveThunkAddr, ht, Option.map_some,
        hA, add_zero_sub]
    | false =>
      obtain ⟨hplt, htoc⟩ := Bool.or_eq_false_iff.mp huses
      have hoffset := localEntryOffset_of_not_usesToc htoc
      have hzero : c.sym.addr + 0 = c.sym.addr := BitVec.add_zero _
      have hval : c.val = c.direct c.sym.addr := by
        simp only [Call.val, htype, huses, Bool.false_eq_true, if_false]
      rcases Call.direct_eq hA (hzero ▸ h.aligned 0 hoffset)
        (fun hnone => hzero ▸ h.local_reach (h.thunk hnone) 0 hoffset) with
        ⟨hdirect, hreach⟩ | ⟨t, ht, hdirect⟩
      · exact ⟨_, hval.trans hdirect, hreach, .only htype hplt htoc hsaves' (add_sub_self _ _)⟩
      · exact ⟨_, hval.trans hdirect, (h.thunk_reach t ht).2,
          .thunk t ht hsaves' (add_sub_self _ _)⟩

section Contract

variable {val : BitVec 64} {mem' code : Memory}

theorem Call.apply_eq (hval : c.val = some val) :
    c.apply mem = some (if c.savesR2 ∧
        fetch (set32 mem c.P (fetch mem c.P ||| bits val.toNat 25 2 <<< 2)) (c.P + 4) = 0x60000000
      then set32 (set32 mem c.P (fetch mem c.P ||| bits val.toNat 25 2 <<< 2)) (c.P + 4) 0xe8410018
      else set32 mem c.P (fetch mem c.P ||| bits val.toNat 25 2 <<< 2)) := by
  rw [Call.apply, hval, Option.map_some]

theorem fetch_apply (h : c.Valid isPower10 sameSection hasOffset mem start stop)
    (hval : c.val = some val) (hreach : InReach val) (happly : c.apply mem = some mem') :
    decode (fetch mem' c.P) = some (.bl val) := by
  obtain ⟨hlt, hdecode⟩ := decode_patched hreach
  rw [Call.apply_eq hval, h.word, Option.some_inj] at happly
  split at happly
  · rw [← happly, fetch_set32_prev h.space, fetch_set32_self hlt, hdecode]
  · rw [← happly, fetch_set32_self hlt, hdecode]

theorem fetch_apply_next (h : c.Valid isPower10 sameSection hasOffset mem start stop)
    (hval : c.val = some val) (happly : c.apply mem = some mem') (hsaves : c.savesR2 = true)
    (hnop : fetch mem (c.P + 4) = 0x60000000) : fetch mem' (c.P + 4) = 0xe8410018 := by
  rw [Call.apply_eq hval, h.word, Option.some_inj, fetch_set32_next h.space,
    if_pos ⟨hsaves, hnop⟩] at happly
  rw [← happly, fetch_set32_self (by decide)]

theorem apply_of_not_mem (h : c.Valid isPower10 sameSection hasOffset mem start stop)
    (hval : c.val = some val) (happly : c.apply mem = some mem')
    (hinside : c.savesR2 = false ∨ c.P.toNat + 8 ≤ stop ∨ fetch mem (c.P + 4) ≠ 0x60000000)
    {k : ℕ} (hk : k < start ∨ stop ≤ k) : mem' k = mem k := by
  obtain ⟨hstart, hstop⟩ := h.inside
  have hword (x : ℕ) : set32 mem c.P x k = mem k := storeField_of_not_mem (by omega)
  rw [Call.apply_eq hval, Option.some_inj, fetch_set32_next h.space] at happly
  split at happly
  case isFalse => rw [← happly, hword]
  case isTrue hpatch =>
    have hspace : c.P.toNat + 8 ≤ stop := by
      rcases hinside with hsaves | hspace | hnop
      · exact absurd (hsaves.symm.trans hpatch.1) Bool.false_ne_true
      · exact hspace
      · exact absurd hpatch.2 hnop
    rw [← happly, set32, storeField_of_not_mem (by rw [toNat_add_four h.space]; omega), hword]

variable {t : BitVec 64}

theorem runs_save {s : State}
    (hwords : HasWords code t (thunkWords isPower10 c.TOC c.sym t)) (hpc : s.pc = t) :
    step code s = some (exec s (.std 2 1 24)) := by
  have hzero : t + BitVec.ofNat 64 (4 * 0) = t := BitVec.add_zero t
  have hfetch := hwords 0 0xf8410018 rfl
  rw [hzero] at hfetch
  refine step_of_decode ?_
  rw [hpc, hfetch]
  rfl

theorem Call.entered_of_thunk {s s₁ : State}
    (hwords : HasWords code t (thunkWords isPower10 c.TOC c.sym t))
    (hfits : ThunkFits isPower10 c.TOC c.sym t) (hpc : s₁.pc = t + 4) (hgpr : s₁.gpr = s.gpr)
    (hlr : s₁.lr = c.P + 4) (htoc : isPower10 = false → s.gpr 2 = c.TOC) :
    ∃ s', Runs code s₁ s' ∧ c.Entered s s' ∧ s'.mem = s₁.mem := by
  obtain ⟨s', hruns, hpc', hgpr', hlr', hmem'⟩ :=
    runs_thunk hwords hfits hpc fun hpower10 => by rw [hgpr, htoc hpower10]
  refine ⟨s', hruns, ⟨.inr (.inl ⟨?_, ?_⟩), hlr'.trans hlr, ?_, ?_⟩, hmem'⟩
  · rw [hpc', hmem']
  · rw [hgpr', hpc', Function.update_self]
  · rw [hgpr', Function.update_of_ne (by decide), hgpr]
  · rw [hgpr', Function.update_of_ne (by decide), hgpr]

theorem Call.entered_of_saving {s s₁ : State}
    (hwords : HasWords code t (thunkWords isPower10 c.TOC c.sym t))
    (hfits : ThunkFits isPower10 c.TOC c.sym t) (hpc : s₁.pc = t) (hgpr : s₁.gpr = s.gpr)
    (hlr : s₁.lr = c.P + 4) (htoc : isPower10 = false → s.gpr 2 = c.TOC) :
    ∃ s', Runs code s₁ s' ∧ c.Entered s s' ∧ load64 s'.mem (s.gpr 1 + 24) = s.gpr 2 := by
  obtain ⟨s₂, hs₂⟩ : ∃ s₂, s₂ = exec s₁ (.std 2 1 24) := ⟨_, rfl⟩
  have hpc₂ : s₂.pc = t + 4 := by rw [hs₂, ← hpc]; rfl
  have hgpr₂ : s₂.gpr = s.gpr := by rw [hs₂, ← hgpr]; rfl
  have hlr₂ : s₂.lr = c.P + 4 := by rw [hs₂, ← hlr]; rfl
  have hmem₂ : s₂.mem = store64 s₁.mem (s.gpr 1 + 24) (s.gpr 2) := by rw [hs₂, ← hgpr]; rfl
  obtain ⟨s', hruns, hentered, hmem'⟩ :=
    Call.entered_of_thunk hwords hfits hpc₂ hgpr₂ hlr₂ htoc
  refine ⟨s', .head (hs₂ ▸ runs_save hwords hpc) hruns, hentered, ?_⟩
  rw [hmem', hmem₂, Ppc64.load64_store64]

theorem Call.Goes.enters (h : c.Valid isPower10 sameSection hasOffset mem start stop)
    (hgoes : c.Goes val) (hcode : decode (fetch code c.P) = some (.bl val))
    (hwords : ∀ t, c.thunk = some t → HasWords code t (thunkWords isPower10 c.TOC c.sym t)) :
    c.Enters code := by
  intro s hpc htoc
  obtain ⟨s₁, hs₁⟩ : ∃ s₁, s₁ = exec s (.bl val) := ⟨_, rfl⟩
  have hbl : step code s = some s₁ := hs₁ ▸ step_of_decode (hpc.symm ▸ hcode)
  have hpc₁ : s₁.pc = c.P + val := by rw [hs₁, ← hpc]; rfl
  have hlr₁ : s₁.lr = c.P + 4 := by rw [hs₁, ← hpc]; rfl
  have hgpr₁ : s₁.gpr = s.gpr := by rw [hs₁]; rfl
  have htoc' : isPower10 = false → s.gpr 2 = c.TOC := by
    intro hpower10
    cases htype : c.type with
    | rel24 => exact htoc htype
    | rel24Notoc => exact absurd (hpower10.symm.trans (h.power10 htype)) Bool.false_ne_true
  cases hgoes with
  | saving t hthunk hsaves hdest =>
    obtain ⟨s', hruns, hentered, hslot⟩ := Call.entered_of_saving (hwords t hthunk)
      (h.thunk_fits t hthunk) (hpc₁.trans hdest) hgpr₁ hlr₁ htoc'
    exact ⟨s', .head hbl hruns, hentered, fun _ => hslot⟩
  | thunk t hthunk hsaves hdest =>
    obtain ⟨s', hruns, hentered, _⟩ := Call.entered_of_thunk (hwords t hthunk)
      (h.thunk_fits t hthunk) (hpc₁.trans hdest) hgpr₁ hlr₁ htoc'
    exact ⟨s', .head hbl hruns, hentered, fun htrue =>
      absurd (hsaves.symm.trans htrue) Bool.false_ne_true⟩
  | «local» offset hoffset htype hsaves hdest =>
    refine ⟨s₁, .single hbl, ⟨.inl ⟨offset, hoffset, hpc₁.trans hdest, ?_⟩, hlr₁, ?_, ?_⟩,
      fun htrue => absurd (hsaves.symm.trans htrue) Bool.false_ne_true⟩
    · rw [hgpr₁, htoc htype]
    · rw [hgpr₁]
    · rw [hgpr₁]
  | only htype hplt husesToc hsaves hdest =>
    refine ⟨s₁, .single hbl,
      ⟨.inr (.inr ⟨htype, husesToc, hplt, hpc₁.trans hdest⟩), hlr₁, ?_, ?_⟩,
      fun htrue => absurd (hsaves.symm.trans htrue) Bool.false_ne_true⟩
    · rw [hgpr₁]
    · rw [hgpr₁]

theorem Call.restores_of_fetch (hcode : fetch code (c.P + 4) = 0xe8410018) : c.Restores code := by
  intro s hpc
  have hdecode : decode (fetch code s.pc) = some (.ld 2 1 24) := by
    rw [hpc, hcode]
    rfl
  refine ⟨_, step_of_decode hdecode, ?_, rfl, rfl⟩
  change s.pc + 4 = c.P + 8
  rw [hpc]
  exact add_four_add c.P 4

/-- Every call that is left to be patched keeps the contract: it enters the function with what
its entry needs, `r2` is restored, and no byte of another section changes. -/
theorem call_keeps_contract (h : c.Valid isPower10 sameSection hasOffset mem start stop) :
    ∃ mem', c.apply mem = some mem' ∧
      (c.savesR2 = false ∨ c.P.toNat + 8 ≤ stop ∨ fetch mem (c.P + 4) ≠ 0x60000000 →
        ∀ k, k < start ∨ stop ≤ k → mem' k = mem k) ∧
      ∀ code : Memory, (∀ k, start ≤ k → k < stop → code k = mem' k) →
        (∀ t, c.thunk = some t → HasWords code t (thunkWords isPower10 c.TOC c.sym t)) →
        c.Enters code ∧
          (c.savesR2 = true → fetch mem (c.P + 4) = 0x60000000 → c.P.toNat + 8 ≤ stop →
            c.Restores code) := by
  obtain ⟨val, hval, hreach, hgoes⟩ := h.exists_val
  obtain ⟨hstart, hstop⟩ := h.inside
  refine ⟨_, Call.apply_eq hval, fun hinside k hk =>
    apply_of_not_mem h hval (Call.apply_eq hval) hinside hk, fun code hcode hwords => ⟨?_, ?_⟩⟩
  · refine hgoes.enters h ?_ hwords
    rw [fetch_congr fun k hlow hhigh => hcode k (hstart.trans hlow) (hhigh.trans_le hstop)]
    exact fetch_apply h hval hreach (Call.apply_eq hval)
  · intro hsaves hnop hspace
    refine Call.restores_of_fetch ?_
    rw [fetch_congr fun k hlow hhigh => hcode k ?_ ?_]
    · exact fetch_apply_next h hval (Call.apply_eq hval) hsaves hnop
    · rw [toNat_add_four h.space] at hlow
      omega
    · rw [toNat_add_four h.space] at hhigh
      omega

end Contract

end Call

section Example

local instance instNeZeroEight : NeZero 8 := ⟨by decide⟩

/-- A call of an imported function, which goes through a thunk. -/
def callImported : Call where
  type := .rel24
  sym := ⟨true, 0, 0, 0x9000⟩
  A := 0
  P := 0x100
  TOC := 0x8000
  thunk := some 0x2000

/-- The branch before it is patched, and a NOP behind it. -/
def memImported : Memory := set32 (set32 (fun _ => 0) 0x100 0x48000001) 0x104 0x60000000

theorem valid_callImported : callImported.Valid false false false memImported 0x100 0x108 where
  word := by decide
  inside := by decide
  space := by decide
  addend := rfl
  entry := by decide
  power10 := fun h => by cases h
  thunk := fun h => by cases h
  thunk_reach := fun t ht => by
    obtain rfl := Option.some_inj.mp ht
    decide
  thunk_fits := fun t ht => by
    obtain rfl := Option.some_inj.mp ht
    exact ⟨by decide, fun _ => by decide⟩
  aligned := by
    intro offset hoffset
    obtain rfl : 0 = offset := Option.some_inj.mp hoffset
    decide
  local_reach := fun h => by cases h

/-- The thunk saves `r2`, and the NOP becomes a load of it. -/
theorem contract_callImported : ∃ mem', callImported.apply memImported = some mem' ∧
    ∀ code : Memory, (∀ k, 0x100 ≤ k → k < 0x108 → code k = mem' k) →
      HasWords code 0x2000 (thunkWords false 0x8000 callImported.sym 0x2000) →
        callImported.Enters code ∧ callImported.Restores code := by
  obtain ⟨mem', happly, -, hcontract⟩ := call_keeps_contract valid_callImported
  refine ⟨mem', happly, fun code hcode hwords => ?_⟩
  obtain ⟨henters, hrestores⟩ := hcontract code hcode fun t ht => by
    obtain rfl := Option.some_inj.mp ht
    exact hwords
  exact ⟨henters, hrestores rfl (by decide) (by decide)⟩

/-- A call of a function without a TOC pointer. -/
def callTocFree : Call where
  type := .rel24Notoc
  sym := ⟨false, 0, 0x1000, 0⟩
  A := 0
  P := 0x100
  TOC := 0x8000
  thunk := none

/-- The branch before it is patched, which is all of its section. -/
def memTocFree : Memory := set32 (fun _ => 0) 0x100 0x48000001

theorem valid_callTocFree : callTocFree.Valid true true true memTocFree 0x100 0x104 where
  word := by decide
  inside := by decide
  space := by decide
  addend := rfl
  entry := by decide
  power10 := fun _ => rfl
  thunk := fun _ => by decide
  thunk_reach := fun t ht => by cases ht
  thunk_fits := fun t ht => by cases ht
  aligned := by
    intro offset hoffset
    obtain rfl : 0 = offset := Option.some_inj.mp hoffset
    decide
  local_reach := by
    intro _ offset hoffset
    obtain rfl : 0 = offset := Option.some_inj.mp hoffset
    decide

/-- The call without a TOC pointer enters the function with neither of the two registers. -/
theorem not_enters_with_register : ¬∀ (c : Call) (isPower10 sameSection hasOffset : Bool)
    (mem mem' : Memory) (start stop : ℕ),
      c.Valid isPower10 sameSection hasOffset mem start stop → c.apply mem = some mem' →
        (∀ t, c.thunk = some t → HasWords mem' t (thunkWords isPower10 c.TOC c.sym t)) →
          ∀ s : State, s.pc = c.P → (c.type = .rel24 → s.gpr 2 = c.TOC) →
            ∃ s', Runs mem' s s' ∧
              ((∃ offset, c.sym.localEntryOffset = some offset ∧
                  s'.pc = c.sym.addr + offset ∧ s'.gpr 2 = c.TOC) ∨
                (s'.pc = c.sym.target s'.mem ∧ s'.gpr 12 = s'.pc)) := by
  intro h
  have hval : callTocFree.val = some 0xf00 := by decide
  obtain ⟨mem', happly⟩ : ∃ mem', callTocFree.apply memTocFree = some mem' :=
    ⟨_, Call.apply_eq hval⟩
  obtain ⟨s, hs⟩ : ∃ s : State, s = ⟨0x100, fun _ => 0, 0, 0, fun _ => 0⟩ := ⟨_, rfl⟩
  obtain ⟨s₁, hs₁⟩ : ∃ s₁, s₁ = exec s (.bl 0xf00) := ⟨_, rfl⟩
  have hbl : step mem' s = some s₁ := by
    rw [hs₁]
    refine step_of_decode ?_
    rw [hs]
    exact fetch_apply valid_callTocFree hval (by decide) happly
  have hend : step mem' s₁ = none := by
    have hpc : s₁.pc = 0x1000 := by
      rw [hs₁, hs]
      rfl
    have hzero : fetch mem' 0x1000 = 0 := by
      rw [fetch_congr fun k hlow _ => apply_of_not_mem valid_callTocFree hval happly (.inl rfl)
        (.inr (le_trans (by decide) hlow))]
      decide
    rw [step, hpc, hzero]
    rfl
  obtain ⟨s', hruns, hentry⟩ := h callTocFree true true true memTocFree mem' 0x100 0x104
    valid_callTocFree happly (fun t ht => by cases ht) s (by rw [hs]; rfl) fun htype => by cases htype
  have hstate : s' = s ∨ s' = s₁ := by
    rcases hruns.cases_head with heq | ⟨s₂, hstep, hruns'⟩
    · exact .inl heq.symm
    · obtain rfl : s₁ = s₂ := Option.some_inj.mp (hbl.symm.trans hstep)
      rcases hruns'.cases_head with heq | ⟨s₃, hstep', _⟩
      · exact .inr heq.symm
      · exact absurd (hend.symm.trans hstep') (by simp)
  have hgpr : s'.gpr = fun _ => 0 := by
    rcases hstate with rfl | rfl
    · rw [hs]
    · rw [hs₁, hs]
      rfl
  rcases hentry with ⟨_, _, _, hr2⟩ | ⟨_, hr12⟩
  · rw [hgpr] at hr2
    exact absurd hr2 (by decide)
  · have hpc : s'.pc ≠ 0 := by
      rcases hstate with rfl | rfl
      · rw [hs]
        decide
      · rw [hs₁, hs]
        decide
    rw [hgpr] at hr12
    exact hpc hr12.symm

end Example

end Mold.Elf.Ppc64Calls
