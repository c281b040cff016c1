import Mold.Elf.Dynsym
import Mold.Lib.StableSort
import Mathlib.Data.Nat.Size

/-!
# Lookup in the dynamic symbol table

A loader finds a name with the words of one hash table only.  The lookups below
read the tables as a loader does and have no result where a read leaves its
table.  The entries of every name are found, because the symbols of a bucket
follow on one another in the order that `finalize` chooses.
-/

namespace Mold.Elf

/-- The hash function of a loader for `.gnu.hash`. -/
def gnuHash (name : List UInt8) : UInt32 :=
  name.foldl (fun h c => h * 33 + c.toUInt32) 5381

def HashSection.lookup (sec : HashSection) (name : List UInt8) : Option (List ℕ) := do
  let first ← sec.table.buckets[(elfHash name).toNat % sec.nbucket]?
  Lib.ChainTable.walk sec.table.chains sec.nchain first

/-- The low bit of a hash table word ends a chain. -/
def isLast (value : UInt32) : Bool := value &&& 1 != 0

/-- The entries whose names are compared with a name: the filter bits are
tested, and the entries of the bucket with the hash value of the name, up to its
low bit, are taken. -/
def GnuHashSection.lookup (word : WordSize) (sec : GnuHashSection)
    (name : List UInt8) : Option (List ℕ) := do
  let h := gnuHash name
  let maybe ← Lib.bloomTest sec.bloom
    { word := (h.toNat / word.bits) &&& (sec.numBloom - 1)
      bit₁ := h.toNat % word.bits
      bit₂ := (h.toNat >>> sec.bloomShift) % word.bits }
  if maybe then
    let head ← sec.buckets[h.toNat % sec.numBuckets]?
    if head = 0 then
      return []
    else if head < sec.exportedOffset then
      none
    else
      let run ← Lib.walkRun isLast (sec.table.drop (head - sec.exportedOffset)) head
      return (run.filter fun e => (e.2 ^^^ h) >>> 1 == 0).map Prod.fst
  else
    return []

theorem djbHash_eq_gnuHash (name : List UInt8) : djbHash name = gnuHash name := by
  have hstep : (fun (h : UInt32) (c : UInt8) => (h <<< 5) + h + c.toUInt32) =
      fun h c => h * 33 + c.toUInt32 := by
    funext h c
    have hshift : h <<< 5 = h * 32 := by
      apply UInt32.toNat_inj.mp
      rw [UInt32.toNat_shiftLeft, UInt32.toNat_mul, Nat.shiftLeft_eq]
      rfl
    rw [hshift, show (33 : UInt32) = 32 + 1 from rfl, UInt32.mul_add, UInt32.mul_one]
  rw [djbHash, gnuHash, hstep]

theorem isLast_chainValue (last : Bool) (sym : DynSymbol) :
    isLast (GnuHashSection.chainValue last sym) = last := by
  unfold isLast
  cases last with
  | true =>
    have habsorb : ∀ a b : Bool, ((a || b) && b) = b := by decide
    have hone : (sym.djbHash ||| 1) &&& 1 = 1 := by
      apply UInt32.toBitVec_inj.mp
      rw [UInt32.toBitVec_and, UInt32.toBitVec_or]
      ext i hi
      rw [BitVec.getElem_and, BitVec.getElem_or, habsorb]
    rw [GnuHashSection.chainValue, if_pos rfl, hone]
    rfl
  | false =>
    rw [GnuHashSection.chainValue, if_neg Bool.false_ne_true, UInt32.and_assoc,
      show (~~~1 : UInt32) &&& 1 = 0 from rfl, UInt32.and_zero]
    rfl

theorem chainValue_xor_shiftRight (last : Bool) (sym : DynSymbol) :
    (GnuHashSection.chainValue last sym ^^^ sym.djbHash) >>> 1 = 0 := by
  have hbits : GnuHashSection.chainValue last sym >>> 1 = sym.djbHash >>> 1 := by
    cases last with
    | true =>
      rw [GnuHashSection.chainValue, if_pos rfl, UInt32.shiftRight_or,
        show (1 : UInt32) >>> 1 = 0 from rfl, UInt32.or_zero]
    | false =>
      rw [GnuHashSection.chainValue, if_neg Bool.false_ne_true, UInt32.shiftRight_and,
        show (~~~1 : UInt32) >>> 1 = (-1 : UInt32) >>> 1 from rfl, ← UInt32.shiftRight_and,
        UInt32.and_neg_one]
  rw [UInt32.shiftRight_xor, hbits, UInt32.xor_self]

theorem bitCeil_eq_two_pow (val : ℕ) : ∃ k, bitCeil val = 2 ^ k := by
  unfold bitCeil
  split
  next h => exact ⟨Nat.log2 val, by simpa [hasSingleBit] using h⟩
  next => exact ⟨val.size, Nat.one_shiftLeft _⟩

/-! ## Numbering -/

namespace DynSymbol

variable (sym : DynSymbol) (idx : ℕ)

@[simp] theorem isExported_setDynsymIdx : (sym.setDynsymIdx idx).isExported = sym.isExported := rfl

@[simp] theorem isLocal_setDynsymIdx : (sym.setDynsymIdx idx).isLocal = sym.isLocal := rfl

@[simp] theorem isLocal_setDjbHash : sym.setDjbHash.isLocal = sym.isLocal := rfl

theorem isLocal_eq_false_of_isExported {sym : DynSymbol} (h : sym.isExported = true) :
    sym.isLocal = false := by
  rw [isLocal, h, Bool.not_true, Bool.and_false]

end DynSymbol

theorem getElem?_setDynsymIdx (first : ℕ) (symbols : List DynSymbol) (i : ℕ) :
    (setDynsymIdx first symbols)[i]? =
      symbols[i]?.map fun sym => sym.setDynsymIdx (first + i) := by
  rw [setDynsymIdx, List.getElem?_map, List.getElem?_zipIdx, Option.map_map]
  rfl

theorem map_setDynsymIdx {β : Type*} {f : DynSymbol → β}
    (hf : ∀ sym idx, f (sym.setDynsymIdx idx) = f sym) (first : ℕ)
    (symbols : List DynSymbol) : (setDynsymIdx first symbols).map f = symbols.map f := by
  apply List.ext_getElem?
  intro i
  rw [List.getElem?_map, getElem?_setDynsymIdx, Option.map_map, List.getElem?_map]
  congr 1
  funext sym
  exact hf sym _

/-! ## The order of the symbols -/

namespace DynsymSection

theorem less_trans (numBuckets : ℕ) (a b c : DynSymbol)
    (hab : (!less numBuckets b a) = true) (hbc : (!less numBuckets c b) = true) :
    (!less numBuckets c a) = true := by
  cases ha : a.isExported <;> cases hb : b.isExported <;> cases hc : c.isExported <;>
    simp [less, ha, hb, hc] at hab hbc ⊢ <;> omega

theorem less_total (numBuckets : ℕ) (a b : DynSymbol) :
    ((!less numBuckets b a) || !less numBuckets a b) = true := by
  cases ha : a.isExported <;> cases hb : b.isExported <;> simp [less, ha, hb]
  all_goals omega

theorem perm_sortGlobals (numBuckets firstGlobal : ℕ) (globals : List DynSymbol) :
    (sortGlobals numBuckets firstGlobal globals).Perm
      ((setDynsymIdx firstGlobal globals).map DynSymbol.setDjbHash) :=
  List.mergeSort_perm _ _

theorem pairwise_sortGlobals (numBuckets firstGlobal : ℕ) (globals : List DynSymbol) :
    (sortGlobals numBuckets firstGlobal globals).Pairwise fun a b =>
      less numBuckets b a = false :=
  (List.pairwise_mergeSort (less_trans numBuckets) (less_total numBuckets) _).imp
    fun h => by simpa using h

def finalGlobals (gnuHash : Bool) (symbols : List DynSymbol) : List DynSymbol :=
  let globals := symbols.filter fun sym => !sym.isLocal
  if gnuHash then
    sortGlobals (symbols.countP (fun sym => sym.isExported) / loadFactor + 1)
      ((symbols.filter fun sym => sym.isLocal).length + 1) globals
  else
    globals

variable (gnuHash : Bool) (symbols : List DynSymbol)

theorem symbols_finalize : (finalize gnuHash symbols).symbols =
    setDynsymIdx 1 ((symbols.filter fun sym => sym.isLocal) ++ finalGlobals gnuHash symbols) := rfl

theorem shInfo_finalize : (finalize gnuHash symbols).shInfo =
    (symbols.filter fun sym => sym.isLocal).length + 1 := rfl

theorem numBuckets_finalize_pos : 0 < (finalize gnuHash symbols).numBuckets := by
  cases gnuHash with
  | false =>
    change 0 < 2 ^ 32 - 1
    decide
  | true => exact Nat.succ_pos _

theorem exists_of_mem_finalGlobals {gnuHash : Bool} {symbols : List DynSymbol}
    {sym : DynSymbol} (h : sym ∈ finalGlobals gnuHash symbols) :
    sym.isLocal = false ∧ (gnuHash = true → sym.djbHash = Elf.djbHash sym.name) := by
  unfold finalGlobals at h
  cases gnuHash with
  | false =>
    refine ⟨?_, fun htrue => absurd htrue Bool.false_ne_true⟩
    simpa using (List.mem_filter.mp h).2
  | true =>
    rw [if_pos rfl, (perm_sortGlobals _ _ _).mem_iff] at h
    obtain ⟨sym', hsym', rfl⟩ := List.mem_map.mp h
    obtain ⟨e, he, rfl⟩ := List.mem_map.mp hsym'
    have hmem := List.mem_filter.mp (List.fst_mem_of_mem_zipIdx he)
    exact ⟨by simpa using hmem.2, fun _ => rfl⟩

theorem perm_finalize : ((finalize gnuHash symbols).symbols.map fun sym =>
    (sym.name, sym.isImported, sym.isExported)).Perm
      (symbols.map fun sym => (sym.name, sym.isImported, sym.isExported)) := by
  rw [symbols_finalize, map_setDynsymIdx (fun _ _ => rfl), List.map_append]
  have hglobals : ((finalGlobals gnuHash symbols).map fun sym =>
      (sym.name, sym.isImported, sym.isExported)).Perm
        ((symbols.filter fun sym => !sym.isLocal).map fun sym =>
          (sym.name, sym.isImported, sym.isExported)) := by
    unfold finalGlobals
    cases gnuHash with
    | false => rfl
    | true =>
      refine ((perm_sortGlobals _ _ _).map _).trans ?_
      rw [List.map_map, map_setDynsymIdx fun _ _ => rfl]
      rfl
  refine (hglobals.append_left _).trans ?_
  rw [← List.map_append]
  exact (List.filter_append_perm _ _).map _

variable {gnuHash symbols}

theorem dynsymIdx_of_entry {i : ℕ} {sym : DynSymbol}
    (h : (finalize gnuHash symbols).entry i = some sym) : sym.dynsymIdx = i := by
  cases i with
  | zero => cases h
  | succ i =>
    rw [entry, symbols_finalize, getElem?_setDynsymIdx] at h
    obtain ⟨sym', -, rfl⟩ := Option.map_eq_some_iff.mp h
    rw [Nat.add_comm]
    rfl

theorem isLocal_iff_lt_shInfo {i : ℕ} {sym : DynSymbol}
    (h : (finalize gnuHash symbols).entry i = some sym) :
    sym.isLocal = true ↔ i < (finalize gnuHash symbols).shInfo := by
  cases i with
  | zero => cases h
  | succ i =>
    rw [entry, symbols_finalize, getElem?_setDynsymIdx] at h
    obtain ⟨sym', hget, rfl⟩ := Option.map_eq_some_iff.mp h
    rw [DynSymbol.isLocal_setDynsymIdx, shInfo_finalize, Nat.add_lt_add_iff_right]
    by_cases hlt : i < (symbols.filter fun sym => sym.isLocal).length
    · rw [List.getElem?_append_left hlt] at hget
      exact iff_of_true (List.mem_filter.mp (List.mem_of_getElem? hget)).2 hlt
    · rw [List.getElem?_append_right (not_lt.mp hlt)] at hget
      have hglobal := (exists_of_mem_finalGlobals (List.mem_of_getElem? hget)).1
      exact iff_of_false (by simp [hglobal]) hlt

theorem djbHash_of_mem {sym : DynSymbol} (h : sym ∈ (finalize true symbols).symbols)
    (hexp : sym.isExported = true) : sym.djbHash = Elf.djbHash sym.name := by
  obtain ⟨i, hi⟩ := List.getElem?_of_mem h
  rw [symbols_finalize, getElem?_setDynsymIdx] at hi
  obtain ⟨sym', hget, rfl⟩ := Option.map_eq_some_iff.mp hi
  rcases List.mem_append.mp (List.mem_of_getElem? hget) with hmem | hmem
  · have hlocal := (List.mem_filter.mp hmem).2
    rw [DynSymbol.isExported_setDynsymIdx] at hexp
    rw [DynSymbol.isLocal_eq_false_of_isExported hexp] at hlocal
    cases hlocal
  · exact (exists_of_mem_finalGlobals hmem).2 rfl

def sortKey (sym : DynSymbol) : Bool × UInt32 := (sym.isExported, sym.djbHash)

theorem pairwise_symbols : (finalize true symbols).symbols.Pairwise fun a b =>
    a.isExported ≤ b.isExported ∧ (a.isExported = true →
      GnuHashSection.bucketOf (finalize true symbols).numBuckets a ≤
        GnuHashSection.bucketOf (finalize true symbols).numBuckets b) := by
  let R : Bool × UInt32 → Bool × UInt32 → Prop := fun a b =>
    a.1 ≤ b.1 ∧ (a.1 = true → a.2.toNat % (finalize true symbols).numBuckets ≤
      b.2.toNat % (finalize true symbols).numBuckets)
  have hkeys : ((finalize true symbols).symbols.map sortKey).Pairwise R := by
    rw [symbols_finalize, map_setDynsymIdx (fun _ _ => rfl), List.pairwise_map]
    have hlocal (sym : DynSymbol) (h : sym ∈ symbols.filter fun sym => sym.isLocal) :
        sym.isExported = false := by
      by_contra hexp
      have := DynSymbol.isLocal_eq_false_of_isExported (Bool.eq_true_of_not_eq_false hexp)
      rw [(List.mem_filter.mp h).2] at this
      cases this
    rw [List.pairwise_append]
    refine ⟨List.pairwise_of_forall_mem_list fun a ha b _ => ?_, ?_, fun a ha b _ => ?_⟩
    · exact ⟨by simp [sortKey, hlocal a ha], fun h => by simp [sortKey, hlocal a ha] at h⟩
    · refine (pairwise_sortGlobals _ _ _).imp fun {a b} h => ?_
      cases hea : a.isExported <;> cases heb : b.isExported <;>
        simp [less, sortKey, R, hea, heb, finalize] at h ⊢
      omega
    · exact ⟨by simp [sortKey, hlocal a ha], fun h => by simp [sortKey, hlocal a ha] at h⟩
  exact List.pairwise_map.mp hkeys

theorem getExportedSymbols_finalize :
    GnuHashSection.getExportedSymbols (finalize true symbols) =
      (finalize true symbols).symbols.filter fun sym => sym.isExported := by
  have hsorted := pairwise_symbols.imp (S := fun a b : DynSymbol =>
    a.isExported ≤ b.isExported) (l := (finalize true symbols).symbols) fun h => h.1
  have hdrop := Lib.dropWhile_lt_eq_filter DynSymbol.isExported hsorted true
  have hlt : (fun sym : DynSymbol => !sym.isExported) =
      fun sym => decide (sym.isExported < true) := by
    funext sym
    cases sym.isExported <;> rfl
  have hle : (fun sym : DynSymbol => sym.isExported) =
      fun sym => decide (true ≤ sym.isExported) := by
    funext sym
    cases sym.isExported <;> rfl
  rw [GnuHashSection.getExportedSymbols, hlt, hdrop, hle]

theorem exists_append_getExportedSymbols : ∃ front : List DynSymbol,
    (finalize true symbols).symbols =
      front ++ GnuHashSection.getExportedSymbols (finalize true symbols) ∧
        ∀ sym ∈ front, sym.isExported = false := by
  refine ⟨(finalize true symbols).symbols.takeWhile fun sym => !sym.isExported,
    List.takeWhile_append_dropWhile.symm, fun sym hsym => ?_⟩
  simpa using List.mem_takeWhile_imp hsym

theorem pairwise_getExportedSymbols :
    (GnuHashSection.getExportedSymbols (finalize true symbols)).Pairwise fun a b =>
      GnuHashSection.bucketOf (finalize true symbols).numBuckets a ≤
        GnuHashSection.bucketOf (finalize true symbols).numBuckets b := by
  rw [getExportedSymbols_finalize, List.pairwise_filter]
  exact pairwise_symbols.imp fun h ha _ => h.2 ha

end DynsymSection

/-! ## Lookup in `.gnu.hash` -/

namespace GnuHashSection

variable (word : WordSize) (symbols : List DynSymbol)

theorem size_copyBuf (d : DynsymSection) : (copyBuf word d).size word = shSize word d := by
  simp [size, shSize, copyBuf]

theorem exists_numBloomOf (d : DynsymSection) : ∃ k, numBloomOf word d = 2 ^ k := by
  unfold numBloomOf
  dsimp only
  split
  · exact bitCeil_eq_two_pow _
  · exact ⟨0, rfl⟩

theorem bloomKey_eq (d : DynsymSection) {sym : DynSymbol}
    (hhash : sym.djbHash = gnuHash sym.name) :
    bloomKey word (numBloomOf word d) sym =
      { word := ((gnuHash sym.name).toNat / word.bits) &&& ((copyBuf word d).numBloom - 1)
        bit₁ := (gnuHash sym.name).toNat % word.bits
        bit₂ := ((gnuHash sym.name).toNat >>> (copyBuf word d).bloomShift) % word.bits } := by
  obtain ⟨k, hk⟩ := exists_numBloomOf word d
  have hnum : (copyBuf word d).numBloom = 2 ^ k := hk
  rw [hnum, Nat.and_two_pow_sub_one_eq_mod, bloomKey, hhash, hk]
  rfl

theorem bloomTest_copyBuf_isSome (d : DynsymSection) (n b₁ b₂ : ℕ) :
    (Lib.bloomTest (copyBuf word d).bloom
      { word := n &&& ((copyBuf word d).numBloom - 1), bit₁ := b₁, bit₂ := b₂ }).isSome := by
  obtain ⟨k, hk⟩ := exists_numBloomOf word d
  have hnum : (copyBuf word d).numBloom = 2 ^ k := hk
  have hlen : (copyBuf word d).bloom.length = 2 ^ k := by
    simp [copyBuf, hk]
  apply Lib.bloomTest_isSome
  rw [hnum, hlen, Nat.and_two_pow_sub_one_eq_mod]
  exact Nat.mod_lt _ (Nat.two_pow_pos k)

theorem bloomTest_copyBuf_of_mem (d : DynsymSection) {sym : DynSymbol}
    (hmem : sym ∈ getExportedSymbols d) (hhash : sym.djbHash = gnuHash sym.name) :
    Lib.bloomTest (copyBuf word d).bloom
      { word := ((gnuHash sym.name).toNat / word.bits) &&& ((copyBuf word d).numBloom - 1)
        bit₁ := (gnuHash sym.name).toNat % word.bits
        bit₂ := ((gnuHash sym.name).toNat >>> (copyBuf word d).bloomShift) %
          word.bits } = some true := by
  obtain ⟨k, hk⟩ := exists_numBloomOf word d
  rw [← bloomKey_eq word d hhash]
  apply Lib.bloomTest_of_mem (List.mem_map.mpr ⟨sym, hmem, rfl⟩)
  rw [List.length_replicate, bloomKey, hk]
  exact Nat.mod_lt _ (Nat.two_pow_pos k)

theorem getElem?_buckets (d : DynsymSection) (hpos : 0 < d.numBuckets) (n : ℕ) :
    (copyBuf word d).buckets[n % (copyBuf word d).numBuckets]? =
      some ((copyBuf word d).buckets.getD (n % (copyBuf word d).numBuckets) 0) := by
  have hlt : n % (copyBuf word d).numBuckets < (copyBuf word d).buckets.length := by
    rw [copyBuf, Lib.length_runHeads]
    exact Nat.mod_lt _ hpos
  rw [List.getD_eq_getElem?_getD, List.getElem?_eq_getElem hlt, Option.getD_some]

theorem walkRun_table_isSome (d : DynsymSection) {b : ℕ}
    (hne : (copyBuf word d).buckets.getD b 0 ≠ 0) :
    (copyBuf word d).exportedOffset ≤ (copyBuf word d).buckets.getD b 0 ∧ ∀ i,
      (Lib.walkRun isLast ((copyBuf word d).table.drop
        ((copyBuf word d).buckets.getD b 0 - (copyBuf word d).exportedOffset)) i).isSome :=
  Lib.walkRun_runHeads_isSome isLast_chainValue hne

theorem lookup_isSome (d : DynsymSection) (hpos : 0 < d.numBuckets)
    (name : List UInt8) : ((copyBuf word d).lookup word name).isSome := by
  obtain ⟨maybe, hmaybe⟩ := Option.isSome_iff_exists.mp
    (bloomTest_copyBuf_isSome word d ((gnuHash name).toNat / word.bits)
      ((gnuHash name).toNat % word.bits)
      (((gnuHash name).toNat >>> (copyBuf word d).bloomShift) % word.bits))
  simp only [lookup, hmaybe, getElem?_buckets word d hpos, Option.bind_eq_bind, Option.bind_some]
  split
  · split
    · rfl
    next hne =>
      obtain ⟨hle, hsome⟩ := walkRun_table_isSome word d hne
      obtain ⟨run, hrun⟩ := Option.isSome_iff_exists.mp (hsome
        ((copyBuf word d).buckets.getD ((gnuHash name).toNat % (copyBuf word d).numBuckets) 0))
      rw [if_neg (Nat.not_lt.mpr hle)]
      exact Option.isSome_iff_exists.mpr ⟨_, Option.bind_eq_some_iff.mpr ⟨run, hrun, rfl⟩⟩
  · rfl

theorem exists_getElem?_getExportedSymbols {i : ℕ} {sym : DynSymbol}
    (h : (DynsymSection.finalize true symbols).entry i = some sym)
    (hexp : sym.isExported = true) :
    ∃ k, i = (copyBuf word (DynsymSection.finalize true symbols)).exportedOffset + k ∧
      (getExportedSymbols (DynsymSection.finalize true symbols))[k]? = some sym := by
  obtain ⟨front, hsplit, hfront⟩ :=
    @DynsymSection.exists_append_getExportedSymbols symbols
  have hoffset : (copyBuf word (DynsymSection.finalize true symbols)).exportedOffset =
      front.length + 1 := by
    have hlen := congrArg List.length hsplit
    rw [List.length_append] at hlen
    change (DynsymSection.finalize true symbols).symbols.length + 1 - _ = _
    omega
  cases i with
  | zero => cases h
  | succ i =>
    rw [DynsymSection.entry, hsplit] at h
    by_cases hlt : i < front.length
    · rw [List.getElem?_append_left hlt] at h
      rw [hfront sym (List.mem_of_getElem? h)] at hexp
      cases hexp
    · rw [List.getElem?_append_right (not_lt.mp hlt)] at h
      exact ⟨i - front.length, by omega, h⟩

theorem exportedOffset_ne_zero (d : DynsymSection) : (copyBuf word d).exportedOffset ≠ 0 := by
  have hle : (getExportedSymbols d).length ≤ d.symbols.length :=
    List.length_dropWhile_le _ _
  change d.symbols.length + 1 - (getExportedSymbols d).length ≠ 0
  omega

theorem exists_mem_lookup {i : ℕ} {sym : DynSymbol}
    (h : (DynsymSection.finalize true symbols).entry i = some sym)
    (hexp : sym.isExported = true) :
    ∃ visited, (copyBuf word (DynsymSection.finalize true symbols)).lookup word
      sym.name = some visited ∧ i ∈ visited := by
  obtain ⟨k, hi, hk⟩ := exists_getElem?_getExportedSymbols word symbols h hexp
  have hpos := DynsymSection.numBuckets_finalize_pos true symbols
  have hsorted := @DynsymSection.pairwise_getExportedSymbols symbols
  have hmem := List.mem_of_getElem? hk
  have hhash : sym.djbHash = gnuHash sym.name := by
    rw [DynsymSection.djbHash_of_mem ((List.dropWhile_sublist _).subset hmem) hexp,
      djbHash_eq_gnuHash]
  generalize DynsymSection.finalize true symbols = d at *
  obtain ⟨head, run, m, hhead, hne, hwalk, hrun⟩ :=
    Lib.exists_mem_walkRun_runHeads isLast_chainValue hsorted hk (Nat.mod_lt _ hpos)
      (exportedOffset_ne_zero word d)
  have hbucket : (copyBuf word d).buckets.getD
      ((gnuHash sym.name).toNat % (copyBuf word d).numBuckets) 0 = head := by
    rw [← hhash]
    exact hhead
  have hle : (copyBuf word d).exportedOffset ≤ head :=
    hbucket ▸ (walkRun_table_isSome word d (hbucket ▸ hne)).1
  refine ⟨(run.filter fun e : ℕ × UInt32 =>
    (e.2 ^^^ gnuHash sym.name) >>> 1 == 0).map Prod.fst, ?_, ?_⟩
  · simp only [lookup, bloomTest_copyBuf_of_mem word d hmem hhash,
      getElem?_buckets word d hpos, hbucket, Option.bind_eq_bind, Option.bind_some,
      if_pos, if_neg hne, if_neg (Nat.not_lt.mpr hle)]
    exact Option.bind_eq_some_iff.mpr ⟨run, hwalk, rfl⟩
  · rw [hi]
    refine List.mem_map.mpr ⟨_, List.mem_filter.mpr ⟨hrun, ?_⟩, rfl⟩
    rw [← hhash, chainValue_xor_shiftRight]
    rfl

end GnuHashSection

namespace HashSection

theorem size_copyBuf (d : DynsymSection) : (copyBuf d).size = shSize d := by
  simp [size, shSize, copyBuf, Lib.ChainTable.empty]
  omega

def entries (d : DynsymSection) : List (ℕ × ℕ) :=
  d.symbols.map fun sym => ((elfHash sym.name).toNat % d.size, sym.dynsymIdx.toNat)

variable (gnuHash : Bool) (symbols : List DynSymbol)

theorem map_snd_entries :
    (entries (DynsymSection.finalize gnuHash symbols)).map Prod.snd =
      List.range' 1 (DynsymSection.finalize gnuHash symbols).symbols.length := by
  apply List.ext_getElem?
  intro i
  rw [entries, List.map_map, List.getElem?_map]
  by_cases hi : i < (DynsymSection.finalize gnuHash symbols).symbols.length
  · obtain ⟨sym, hsym⟩ : ∃ sym, (DynsymSection.finalize gnuHash symbols).symbols[i]? = some sym :=
      ⟨_, List.getElem?_eq_getElem hi⟩
    have hidx := DynsymSection.dynsymIdx_of_entry (i := i + 1) hsym
    rw [hsym, List.getElem?_range' hi]
    simp [hidx]
    omega
  · rw [List.getElem?_eq_none (not_lt.mp hi), List.getElem?_eq_none (by simpa using hi)]
    rfl

theorem length_buckets_copyBuf (d : DynsymSection) :
    (copyBuf d).table.buckets.length = d.size := by
  rw [copyBuf, Lib.ChainTable.length_buckets_foldl_insert, Lib.ChainTable.empty,
    List.length_replicate]

theorem holds_copyBuf : (copyBuf (DynsymSection.finalize gnuHash symbols)).table.Holds
    (entries (DynsymSection.finalize gnuHash symbols)) := by
  have hnumbers := map_snd_entries gnuHash symbols
  generalize DynsymSection.finalize gnuHash symbols = d at *
  have hempty := Lib.ChainTable.holds_empty d.size d.size
  refine @Lib.ChainTable.Holds.foldl_insert _ [] (entries d) hempty (fun e he => ?_) ?_
  · have hsnd := List.mem_map_of_mem (f := Prod.snd) he
    rw [hnumbers, List.mem_range'_1] at hsnd
    obtain ⟨sym, hsym, rfl⟩ := List.mem_map.mp he
    simp only [Lib.ChainTable.empty, List.length_replicate]
    refine ⟨Nat.mod_lt _ (Nat.succ_pos _), ?_, by omega⟩
    rw [DynsymSection.size]
    omega
  · rw [List.nil_append, hnumbers]
    exact List.nodup_range'

theorem exists_lookup (name : List UInt8) :
    ∃ visited, (copyBuf (DynsymSection.finalize gnuHash symbols)).lookup name =
      some visited ∧ ∀ i sym,
        (DynsymSection.finalize gnuHash symbols).entry i = some sym →
          sym.name = name → i ∈ visited := by
  have hidx := fun i sym => @DynsymSection.dynsymIdx_of_entry gnuHash symbols i sym
  have hholds := holds_copyBuf gnuHash symbols
  generalize DynsymSection.finalize gnuHash symbols = d at *
  have hchain := hholds ((elfHash name).toNat % d.size)
  have hlen : (Lib.ChainTable.bucketEntries (entries d)
      ((elfHash name).toNat % d.size)).length ≤ d.size :=
    (Lib.ChainTable.length_bucketEntries_le _ _).trans (by
      rw [entries, List.length_map, DynsymSection.size]
      exact Nat.le_succ _)
  have hlt : (elfHash name).toNat % d.size < (copyBuf d).table.buckets.length := by
    rw [length_buckets_copyBuf]
    exact Nat.mod_lt _ (Nat.succ_pos _)
  rw [Lib.ChainTable.head, List.getD_eq_getElem?_getD, List.getElem?_eq_getElem hlt,
    Option.getD_some] at hchain
  refine ⟨_, Option.bind_eq_some_iff.mpr ⟨_, List.getElem?_eq_getElem hlt,
    hchain.walk_eq hlen⟩, fun i sym hsym hname => ?_⟩
  rw [Lib.ChainTable.mem_bucketEntries]
  have hnum := hidx i sym hsym
  cases i with
  | zero => cases hsym
  | succ i =>
    refine List.mem_map.mpr ⟨sym, List.mem_of_getElem? hsym, ?_⟩
    rw [hname, hnum, Int.toNat_natCast]

end HashSection

/-- The dynamic symbol table has the symbols of the list, local symbols first,
and every hash table that is present fills its section and leads from a name to
the entries with that name. -/
structure LookupComplete (word : WordSize) (symbols : List DynSymbol)
    (tables : DynamicTables) : Prop where
  perm : (tables.dynsym.symbols.map fun sym =>
    (sym.name, sym.isImported, sym.isExported)).Perm
      (symbols.map fun sym => (sym.name, sym.isImported, sym.isExported))
  numbered : ∀ i sym, tables.dynsym.entry i = some sym → sym.dynsymIdx = i
  locals_first : ∀ i sym, tables.dynsym.entry i = some sym →
    (sym.isLocal = true ↔ i < tables.dynsym.shInfo)
  gnuHash_size : ∀ sec ∈ tables.gnuHash, sec.size word = GnuHashSection.shSize word tables.dynsym
  gnuHash_total : ∀ sec ∈ tables.gnuHash, ∀ name, (sec.lookup word name).isSome
  gnuHash_found : ∀ sec ∈ tables.gnuHash, ∀ i sym,
    tables.dynsym.entry i = some sym → sym.isExported = true →
      ∃ visited, sec.lookup word sym.name = some visited ∧ i ∈ visited
  hash_size : ∀ sec ∈ tables.hash, sec.size = HashSection.shSize tables.dynsym
  hash_found : ∀ sec ∈ tables.hash, ∀ name,
    ∃ visited, sec.lookup name = some visited ∧
      ∀ i sym, tables.dynsym.entry i = some sym → sym.name = name → i ∈ visited

def NonExportedFirst (d : DynsymSection) : Prop :=
  ∀ i j a b, d.entry i = some a → d.entry j = some b →
    a.isExported = false → b.isExported = true → i < j

theorem nonExportedFirst_finalize (symbols : List DynSymbol) :
    NonExportedFirst (DynsymSection.finalize true symbols) := by
  intro i j a b ha hb hea heb
  cases i with
  | zero => cases ha
  | succ i =>
    cases j with
    | zero => cases hb
    | succ j =>
      obtain ⟨hi, rfl⟩ := List.getElem?_eq_some_iff.mp ha
      obtain ⟨hj, rfl⟩ := List.getElem?_eq_some_iff.mp hb
      by_contra hle
      rcases Nat.lt_or_ge j i with hlt | hge
      · have hkey := (List.pairwise_iff_getElem.mp DynsymSection.pairwise_symbols j i hj hi hlt).1
        rw [hea, heb] at hkey
        exact absurd hkey (by decide)
      · obtain rfl : i = j := by omega
        rw [hea] at heb
        cases heb

/-- Every lookup in the hash tables of an output finds its symbols, and where
`.gnu.hash` is asked for the exported symbols come last. -/
theorem lookupComplete_dynamicTables (word : WordSize) (style : HashStyle)
    (symbols : List DynSymbol) :
    LookupComplete word symbols (dynamicTables word style symbols) ∧
      (style.gnu = true → NonExportedFirst (dynamicTables word style symbols).dynsym) := by
  have hgnu : ∀ sec ∈ (dynamicTables word style symbols).gnuHash, style.gnu = true ∧
      sec = GnuHashSection.copyBuf word (DynsymSection.finalize true symbols) := by
    intro sec hsec
    cases hstyle : style.gnu with
    | false => rw [dynamicTables, hstyle] at hsec; cases hsec
    | true =>
      rw [dynamicTables, hstyle] at hsec
      exact ⟨rfl, (Option.some.inj hsec).symm⟩
  have hhash : ∀ sec ∈ (dynamicTables word style symbols).hash,
      sec = HashSection.copyBuf (DynsymSection.finalize style.gnu symbols) := by
    intro sec hsec
    cases hstyle : style.sysv with
    | false => rw [dynamicTables, hstyle] at hsec; cases hsec
    | true =>
      rw [dynamicTables, hstyle] at hsec
      exact (Option.some.inj hsec).symm
  have hdynsym : (dynamicTables word style symbols).dynsym =
      DynsymSection.finalize style.gnu symbols := rfl
  refine ⟨⟨?_, ?_, ?_, ?_, ?_, ?_, ?_, ?_⟩, ?_⟩
  · exact DynsymSection.perm_finalize _ _
  · exact fun i sym => DynsymSection.dynsymIdx_of_entry
  · exact fun i sym => DynsymSection.isLocal_iff_lt_shInfo
  · intro sec hsec
    obtain ⟨hstyle, rfl⟩ := hgnu sec hsec
    rw [hdynsym, hstyle, GnuHashSection.size_copyBuf]
  · intro sec hsec
    obtain ⟨-, rfl⟩ := hgnu sec hsec
    exact GnuHashSection.lookup_isSome word _ (DynsymSection.numBuckets_finalize_pos true symbols)
  · intro sec hsec i sym hsym hexp
    obtain ⟨hstyle, rfl⟩ := hgnu sec hsec
    rw [hdynsym, hstyle] at hsym
    exact GnuHashSection.exists_mem_lookup word symbols hsym hexp
  · intro sec hsec
    rw [hhash sec hsec, hdynsym, HashSection.size_copyBuf]
  · intro sec hsec
    rw [hhash sec hsec]
    exact HashSection.exists_lookup style.gnu symbols
  · intro hstyle
    rw [hdynsym, hstyle]
    exact nonExportedFirst_finalize symbols

def exportedThenImported : List DynSymbol :=
  [{ name := [102], isImported := false, isExported := true },
    { name := [103], isImported := true, isExported := false }]

/-- Without `.gnu.hash` the exported symbols need not come last. -/
theorem exportedThenImported_not_nonExportedFirst :
    ¬ (LookupComplete .word64 exportedThenImported
        (dynamicTables .word64 { sysv := true, gnu := false } exportedThenImported) ∧
      NonExportedFirst
        (dynamicTables .word64 { sysv := true, gnu := false } exportedThenImported).dynsym) := by
  rintro ⟨-, hfirst⟩
  have hlt := hfirst 2 1 _ _ rfl rfl rfl rfl
  exact absurd hlt (by decide)

end Mold.Elf
