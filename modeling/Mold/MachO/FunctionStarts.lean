import Mathlib.Data.List.Sort
import Mold.Common.Leb128
import Mold.Lib.DeltaCode

/-!
# Function starts

`LC_FUNCTION_STARTS` lists the addresses of functions as differences in ULEB128.
`FunctionStartsSection::compute_size` makes room for five bytes a function before it
writes them, and cuts off what is left.

The offset of a section in its file and the offset of a subsection in its section have 32
bits, so all symbols of an image are within less than 32 GiB, and five bytes hold each
difference.
-/

namespace Mold.MachO.FunctionStarts

open Mold.Lib Mold.Common

/-! ## Symbols -/

/-- What is read of a subsection. `inText` says that its section goes to `ctx.text`. -/
structure Subsection where
  inText : Bool
  isAlive : Bool
  outputOffset : ℕ
  inputSize : ℕ
  outputOffset_lt : outputOffset < 2 ^ 32
  inputSize_lt : inputSize < 2 ^ 32

/-- A symbol with the number of the file that defines it.  A symbol of a subsection is in
the subsection or at its end. -/
structure Symbol where
  file : Option ℕ
  subsec : Option Subsection
  value : ℕ
  stubIdx : Option ℕ
  value_le : ∀ s ∈ subsec, value ≤ s.inputSize
  stubIdx_lt : ∀ idx ∈ stubIdx, idx < 2 ^ 31

/-- Is a symbol that is read in the file `i` a live one of `ctx.text`? -/
def Symbol.isFunction (i : ℕ) (sym : Symbol) : Bool :=
  sym.file == some i && sym.subsec.any fun s => s.isAlive && s.inText

/-- The symbol tables of the object files, and the addresses of the Mach header, of the
stubs and of `ctx.text`.  The header is the first section of the image; a section that
nothing is in has no place. -/
structure Context where
  objs : List (List (Option Symbol))
  machHdr : ℕ
  text : ℕ
  stubs : ℕ
  stubSize : ℕ
  stubSize_le : stubSize ≤ 12
  text_mem : (∃ i, ∃ syms ∈ objs, ∃ sym, some sym ∈ syms ∧ sym.isFunction i = true) →
    machHdr < text ∧ text < machHdr + 2 ^ 32
  stubs_mem : (∃ syms ∈ objs, ∃ sym, some sym ∈ syms ∧ sym.stubIdx ≠ none) →
    machHdr < stubs ∧ stubs < machHdr + 2 ^ 32
  fits : machHdr + 2 ^ 35 ≤ 2 ^ 64

namespace Context

variable (ctx : Context)

/-- `Symbol::get_addr` of a symbol of `ctx.text`. -/
def getAddr (sym : Symbol) : ℕ :=
  match sym.stubIdx with
  | some idx => (ctx.stubs + idx * ctx.stubSize) % 2 ^ 64
  | none =>
    match sym.subsec with
    | some s => (ctx.text + s.outputOffset + sym.value) % 2 ^ 64
    | none => sym.value

def functions (i : ℕ) (syms : List (Option Symbol)) : List Symbol :=
  (syms.filterMap id).filter (Symbol.isFunction i)

def allFunctions : List Symbol :=
  ctx.objs.zipIdx.flatMap fun file => functions file.2 file.1

/-- `addrs`: sorted, and without duplicates. -/
def addrs : List ℕ :=
  ((ctx.allFunctions.map ctx.getAddr).mergeSort (· ≤ ·)).destutter (· ≠ ·)

end Context

def alignToEight (val : ℕ) : ℕ := (val + 7) / 8 * 8

/-- A write into a buffer.  There is none beyond the end of it. -/
def write (contents : List Byte) (p : ℕ) (bytes : List Byte) : Option (List Byte) :=
  if p + bytes.length ≤ contents.length then
    some (contents.take p ++ bytes ++ contents.drop (p + bytes.length))
  else
    none

/-- The loop over the addresses: the buffer and the position behind the last byte. -/
def writeAddrs (contents : List Byte) (p last : ℕ) : List ℕ → Option (List Byte × ℕ)
  | [] => some (contents, p)
  | val :: vals => do
      let bytes := writeUleb ((val + 2 ^ 64 - last) % 2 ^ 64)
      let contents ← write contents p bytes
      writeAddrs contents (p + bytes.length) val vals

/-- `FunctionStartsSection::compute_size`: the contents, whose length is the size. -/
def Context.computeSize (ctx : Context) : Option (List Byte) := do
  let contents := List.replicate (alignToEight (ctx.addrs.length * 5 + 1)) (0 : Byte)
  let (contents, p) ← writeAddrs contents 0 ctx.machHdr ctx.addrs
  let bytes := writeUleb 0
  let contents ← write contents p bytes
  return contents.take (alignToEight (p + bytes.length))

namespace Context

variable {ctx : Context}

theorem getAddr_mem {syms : List (Option Symbol)} {sym : Symbol} {i : ℕ}
    (hsyms : syms ∈ ctx.objs) (hsym : some sym ∈ syms) (hfun : sym.isFunction i = true) :
    ctx.machHdr < ctx.getAddr sym ∧ ctx.getAddr sym < ctx.machHdr + 2 ^ 35 := by
  have hfits := ctx.fits
  cases hidx : sym.stubIdx with
  | some idx =>
    obtain ⟨hlow, hhigh⟩ := ctx.stubs_mem ⟨syms, hsyms, sym, hsym, by rw [hidx]; simp⟩
    have hlt := sym.stubIdx_lt idx hidx
    have hsize : idx * ctx.stubSize ≤ 2 ^ 31 * 12 :=
      Nat.mul_le_mul hlt.le ctx.stubSize_le
    have haddr : ctx.getAddr sym = ctx.stubs + idx * ctx.stubSize := by
      rw [getAddr, hidx]
      exact Nat.mod_eq_of_lt (by omega)
    omega
  | none =>
    cases hsubsec : sym.subsec with
    | none => simp [Symbol.isFunction, hsubsec] at hfun
    | some s =>
      have hvalue := sym.value_le s hsubsec
      have hsize := s.inputSize_lt
      have hoffset := s.outputOffset_lt
      obtain ⟨hlow, hhigh⟩ := ctx.text_mem ⟨i, syms, hsyms, sym, hsym, hfun⟩
      have haddr : ctx.getAddr sym = ctx.text + s.outputOffset + sym.value := by
        rw [getAddr, hidx, hsubsec]
        exact Nat.mod_eq_of_lt (by omega)
      omega

theorem mem_allFunctions {sym : Symbol} :
    sym ∈ ctx.allFunctions ↔
      ∃ i syms, ctx.objs[i]? = some syms ∧ some sym ∈ syms ∧ sym.isFunction i = true := by
  simp only [allFunctions, functions, List.mem_flatMap, List.mem_filter, List.mem_filterMap,
    id_eq, Prod.exists, List.mem_zipIdx_iff_getElem?]
  constructor
  · rintro ⟨syms, i, hsyms, ⟨_, hsym, rfl⟩, hfun⟩
    exact ⟨i, syms, hsyms, hsym, hfun⟩
  · rintro ⟨i, syms, hsyms, hsym, hfun⟩
    exact ⟨syms, i, hsyms, ⟨_, hsym, rfl⟩, hfun⟩

theorem mem_addrs {addr : ℕ} :
    addr ∈ ctx.addrs ↔ ∃ sym ∈ ctx.allFunctions, ctx.getAddr sym = addr := by
  rw [addrs, mem_destutter, List.mem_mergeSort, List.mem_map]

theorem pairwise_addrs : ctx.addrs.Pairwise (· < ·) := by
  apply pairwise_lt_destutter
  have hsorted := @List.pairwise_mergeSort _ (fun a b : ℕ => decide (a ≤ b))
    (by simpa using fun a b c => Nat.le_trans (n := a) (m := b) (k := c))
    (by simpa using Nat.le_total) (ctx.allFunctions.map ctx.getAddr)
  exact hsorted.imp of_decide_eq_true

theorem addrs_mem {addr : ℕ} (h : addr ∈ ctx.addrs) :
    ctx.machHdr < addr ∧ addr < ctx.machHdr + 2 ^ 35 := by
  obtain ⟨sym, hsym, rfl⟩ := mem_addrs.mp h
  obtain ⟨i, syms, hsyms, hmem, hfun⟩ := mem_allFunctions.mp hsym
  exact getAddr_mem (List.mem_of_getElem? hsyms) hmem hfun

theorem pairwise_machHdr_addrs : (ctx.machHdr :: ctx.addrs).Pairwise (· < ·) :=
  List.pairwise_cons.mpr ⟨fun _ h => (addrs_mem h).1, pairwise_addrs⟩

end Context

theorem write_append (written rest bytes : List Byte) (h : bytes.length ≤ rest.length) :
    write (written ++ rest) written.length bytes =
      some (written ++ bytes ++ rest.drop bytes.length) := by
  rw [write, List.length_append, if_pos (by omega), List.take_left, ← List.drop_drop,
    List.drop_left]

theorem writeAddrs_append {base last : ℕ} {vals : List ℕ} (written rest : List Byte)
    (hbase : base ≤ last) (hsorted : (last :: vals).Pairwise (· < ·))
    (hnear : ∀ val ∈ vals, val < base + 2 ^ 35 ∧ val < 2 ^ 64)
    (hroom : 5 * vals.length ≤ rest.length) :
    ∃ codes, codes = DeltaCode.encodeSteps (DeltaCode.steps last vals) ∧
      codes.length ≤ 5 * vals.length ∧
      writeAddrs (written ++ rest) written.length last vals =
        some (written ++ codes ++ rest.drop codes.length, (written ++ codes).length) := by
  induction vals generalizing last written rest with
  | nil => exact ⟨[], rfl, Nat.zero_le _, by simp [writeAddrs]⟩
  | cons val vals ih =>
    obtain ⟨hlast, hvals⟩ := List.pairwise_cons.mp hsorted
    obtain ⟨hval, hnear⟩ := List.forall_mem_cons.mp hnear
    have hlt := hlast val List.mem_cons_self
    have hdelta : (val + 2 ^ 64 - last) % 2 ^ 64 = val - last := by omega
    have hlen : (writeUleb (val - last)).length ≤ 5 :=
      (Uleb.length_encode_le_iff 4 _).mpr (by omega)
    rw [List.length_cons] at hroom
    obtain ⟨codes, hcodes, hle, hwrite⟩ := ih (written ++ writeUleb (val - last))
      (rest.drop (writeUleb (val - last)).length) (by omega) hvals hnear
      (by rw [List.length_drop]; omega)
    refine ⟨writeUleb (val - last) ++ codes, ?_, ?_, ?_⟩
    · rw [DeltaCode.steps, DeltaCode.encodeSteps, List.flatMap_cons, hcodes]
      rfl
    · rw [List.length_append, List.length_cons]
      omega
    · rw [writeAddrs, hdelta, write_append _ _ _ (by omega)]
      simp only [Option.bind_eq_bind, Option.bind_some]
      rw [← List.length_append, hwrite, List.drop_drop, ← List.length_append, ← List.append_assoc]

theorem le_alignToEight (val : ℕ) : val ≤ alignToEight val := by
  rw [alignToEight]
  omega

theorem alignToEight_mono {m n : ℕ} (h : m ≤ n) : alignToEight m ≤ alignToEight n :=
  Nat.mul_le_mul_right 8 (Nat.div_le_div_right (by omega))

/-- For every image the buffer has room for the codes.  They are those of steps other than
zero, and with zero bytes behind them they fill a multiple of eight bytes, from which
exactly the addresses of the live functions are read back, each one once and in order. -/
theorem computeSize_roundTrip (ctx : Context) :
    ∃ contents, ctx.computeSize = some contents ∧ 8 ∣ contents.length ∧
      (∃ deltas n, (∀ delta ∈ deltas, delta ≠ 0) ∧
        contents = DeltaCode.encodeSteps deltas ++ List.replicate (n + 1) 0) ∧
      ∃ addrs, DeltaCode.decode ctx.machHdr contents = some addrs ∧ addrs.Pairwise (· < ·) ∧
        ∀ addr, addr ∈ addrs ↔ ∃ sym i syms, ctx.objs[i]? = some syms ∧ some sym ∈ syms ∧
          sym.isFunction i = true ∧ ctx.getAddr sym = addr := by
  have hfits := ctx.fits
  have hsorted := @Context.pairwise_machHdr_addrs ctx
  have hsize := le_alignToEight (ctx.addrs.length * 5 + 1)
  obtain ⟨codes, hcodes, hle, hwrite⟩ := @writeAddrs_append ctx.machHdr _ _ []
    (List.replicate (alignToEight (ctx.addrs.length * 5 + 1)) 0) le_rfl hsorted
    (fun val hval => by have hmem := Context.addrs_mem hval; omega)
    (by rw [List.length_replicate]; omega)
  rw [List.nil_append, List.nil_append, List.length_nil, List.drop_replicate] at hwrite
  have hzero : writeUleb 0 = [0] := Uleb.encode_of_lt (by decide)
  -- The buffer after the loop still has room for the terminator, which is a zero byte.
  have hwrite' := write_append codes
    (List.replicate (alignToEight (ctx.addrs.length * 5 + 1) - codes.length) 0) (writeUleb 0)
    (by rw [hzero, List.length_singleton, List.length_replicate]; omega)
  obtain ⟨n, hn⟩ : ∃ n, alignToEight (codes.length + 1) = codes.length + (n + 1) :=
    ⟨alignToEight (codes.length + 1) - codes.length - 1, by
      have h := le_alignToEight (codes.length + 1)
      omega⟩
  have hmono : alignToEight (codes.length + 1) ≤ alignToEight (ctx.addrs.length * 5 + 1) :=
    alignToEight_mono (by omega)
  have hcontents : ctx.computeSize = some (codes ++ List.replicate (n + 1) 0) := by
    rw [Context.computeSize]
    simp only [Option.bind_eq_bind, hwrite, Option.bind_some, hwrite', Option.pure_def]
    rw [hzero, List.length_singleton, hn, List.append_assoc, List.take_length_add_append,
      List.drop_replicate, List.singleton_append, ← List.replicate_succ, List.take_replicate]
    congr 3
    omega
  refine ⟨_, hcontents, ?_, ⟨_, n, DeltaCode.ne_zero_of_mem_steps hsorted, ?_⟩, ctx.addrs,
    ?_, Context.pairwise_addrs, ?_⟩
  · rw [List.length_append, List.length_replicate, ← hn]
    exact Nat.dvd_mul_left _ _
  · rw [hcodes]
  · rw [hcodes, List.replicate_succ]
    exact DeltaCode.decode_encodeSteps hsorted _
  · intro addr
    rw [Context.mem_addrs]
    simp only [Context.mem_allFunctions]
    constructor
    · rintro ⟨sym, ⟨i, syms, hsyms, hsym, hfun⟩, haddr⟩
      exact ⟨sym, i, syms, hsyms, hsym, hfun, haddr⟩
    · rintro ⟨sym, i, syms, hsyms, hsym, hfun, haddr⟩
      exact ⟨sym, ⟨i, syms, hsyms, hsym, hfun⟩, haddr⟩

def functionAt (value : ℕ) (h : value ≤ 64) : Symbol where
  file := some 0
  subsec := some ⟨true, true, 16, 64, by decide, by decide⟩
  value := value
  stubIdx := none
  value_le := fun s hs => by cases hs; exact h
  stubIdx_lt := fun _ h => by cases h

/-- Two functions of a subsection at `0x100001010`. -/
def twoFunctions : Context where
  objs := [[some (functionAt 48 (by decide)), none, some (functionAt 0 (by decide))]]
  machHdr := 2 ^ 32
  text := 2 ^ 32 + 0x1000
  stubs := 2 ^ 32 + 0x2000
  stubSize := 6
  stubSize_le := by decide
  text_mem _ := by decide
  stubs_mem _ := by decide
  fits := by decide

theorem computeSize_twoFunctions : ∃ contents addrs, twoFunctions.computeSize = some contents ∧
    DeltaCode.decode (2 ^ 32) contents = some addrs ∧ addrs.Pairwise (· < ·) ∧
      ∀ addr, addr ∈ addrs ↔ addr = 0x100001010 ∨ addr = 0x100001040 := by
  obtain ⟨contents, hsize, -, -, addrs, hdecode, hsorted, hmem⟩ := computeSize_roundTrip twoFunctions
  refine ⟨contents, addrs, hsize, hdecode, hsorted, fun addr => (hmem addr).trans ?_⟩
  constructor
  · rintro ⟨sym, i, syms, hsyms, hsym, -, rfl⟩
    obtain ⟨rfl, rfl⟩ : i = 0 ∧ _ = syms := by
      cases i with
      | zero => exact ⟨rfl, Option.some.inj hsyms⟩
      | succ i => cases hsyms
    simp only [List.mem_cons, Option.some.injEq, reduceCtorEq, List.not_mem_nil, or_false,
      false_or] at hsym
    rcases hsym with rfl | rfl
    · exact .inr rfl
    · exact .inl rfl
  · rintro (rfl | rfl)
    · exact ⟨functionAt 0 (by decide), 0, _, rfl, by simp, rfl, rfl⟩
    · exact ⟨functionAt 48 (by decide), 0, _, rfl, by simp, rfl, rfl⟩

end Mold.MachO.FunctionStarts
