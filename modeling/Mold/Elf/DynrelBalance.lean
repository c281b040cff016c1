import Mold.Elf.DynrelSlots

/-!
# Exactly the slots that were counted are written

Whether a relocation is counted and whether an entry is written for it are the
same question about its symbol, asked at two times.  The answers differ if the symbol
becomes absolute or is no longer, by `--defsym` and the like, if it becomes imported with a copy
relocation, and for the relocations that are scanned and not applied or the other way round.
-/

namespace Mold.Elf

open Lib

namespace Link

variable {σ : Type*} (l : Link σ)

/-! ## Entries of chunks -/

/-- An entry of `.got` for the symbol needs a dynamic relocation. -/
def gotNeedsDynrel (sym : LinkSymbol) : Bool :=
  sym.isImported || l.supportsIfunc && sym.getType = .gnuIfunc ||
    l.args.pic && !sym.isAbsolute && !l.args.packDynRelocsRelr

/-- An entry of Alpha's `.got` for the symbol needs a dynamic relocation. -/
def alphaNeedsDynrel (sym : LinkSymbol) : Bool :=
  sym.isImported || l.args.pic && !sym.isAbsolute

theorem hasDynrel_gotSymEntry (snap : Snapshot σ) (p : σ × ℕ) :
    l.hasDynrel (l.gotSymEntry snap p) = l.gotNeedsDynrel (snap.syms p.1) := by
  rw [gotSymEntry, gotNeedsDynrel]
  cases (snap.syms p.1).isImported with
  | true => rfl
  | false =>
    cases hifunc : l.supportsIfunc && (snap.syms p.1).getType = .gnuIfunc with
    | true => rfl
    | false =>
      cases hpic : l.args.pic && !(snap.syms p.1).isAbsolute with
      | true => simp [hasDynrel, isRelr]
      | false => rfl

theorem countP_tlsgdEntries (snap : Snapshot σ) (p : σ × ℕ) :
    (l.tlsgdEntries snap p).countP l.hasDynrel =
      if (snap.syms p.1).isImported then 2 else if l.args.shared then 1 else 0 := by
  rw [tlsgdEntries]
  cases (snap.syms p.1).isImported <;> cases l.args.shared <;> rfl

theorem hasDynrel_gottpEntry (snap : Snapshot σ) (p : σ × ℕ) :
    l.hasDynrel (l.gottpEntry snap p) = ((snap.syms p.1).isImported || l.args.shared) := by
  rw [gottpEntry]
  cases (snap.syms p.1).isImported <;> cases l.args.shared <;> rfl

theorem length_alphaRel (snap : Snapshot σ) (P : ℕ) (entry : σ × ℤ) :
    (l.alphaRel snap P entry).length = (l.alphaNeedsDynrel (snap.syms entry.1)).toNat := by
  rw [alphaRel, alphaNeedsDynrel]
  cases (snap.syms entry.1).isImported <;>
    cases l.args.pic && !(snap.syms entry.1).isAbsolute <;> rfl

theorem mem_owners {owner : Owner σ} :
    owner ∈ l.owners ↔
      (∃ chunk ∈ l.chunks, owner = .chunk chunk) ∨ ∃ file ∈ l.objs, owner = .file file := by
  simp [owners, eq_comm]

variable [DecidableEq σ]

/-! ## Symbols at two times -/

def ownedSym (s : σ) : LinkSymbol :=
  match lastClaim l.undefs s with
  | none => l.syms s
  | some undef => claim l.args l.unresolved l.syms undef s

/-- The symbol is tied to something when the relocations are scanned: nothing claims it, and it
is tied by its file or owned by the internal one, and not untied by `--defsym`. -/
def isTied (s : σ) : Bool :=
  (lastClaim l.undefs s).isNone && (((l.syms s).hasOrigin || s ∈ l.internal) &&
    !isUntied l.internal l.syms l.defsyms.reverse s)

/-- The symbol is tied to something when the relocations are applied: it is in
`--section-order`, or the symbol that `--defsym` options lead to is tied or reserved. -/
def isTiedAtLast (s : σ) : Bool :=
  (defsymSource (fun t => (l.ownedSym t).hasFile) l.defsyms.reverse s).any
    (fun t => l.isTied t || t ∈ l.reserved) || s ∈ l.sectionOrder

def isAlias (s : σ) : Bool := s ∈ l.copyrels.flatMap l.aliases

def symAtScan (s : σ) : LinkSymbol := { l.ownedSym s with hasOrigin := l.isTied s }

def symAtCopy (s : σ) : LinkSymbol :=
  { l.ownedSym s with
    isImported := (l.ownedSym s).isImported || l.isAlias s
    hasOrigin := l.isTiedAtLast s }

def goesByOrigin (s : σ) : Bool :=
  !((l.ownedSym s).hasFile && (l.ownedSym s).isDso) && !(l.symAtCopy s).isImported

def isIfunc (s : σ) : Bool := (l.ownedSym s).getType = .gnuIfunc

def isLoosened (s : σ) : Bool := l.goesByOrigin s && l.isTied s && !l.isTiedAtLast s

def isFastened (s : σ) : Bool := l.goesByOrigin s && !l.isTied s && l.isTiedAtLast s

def becomesImported (s : σ) : Bool := l.isAlias s && !(l.ownedSym s).isImported

theorem scanSyms_eq (s : σ) : l.scanSyms s = l.symAtScan s := by
  rw [scanSyms, claimUnresolvedSymbols_apply, symAtScan, ownedSym, isTied]
  cases hclaim : lastClaim l.undefs s with
  | none => simp [addSyntheticSymbols_apply]
  | some undef =>
    have hsym := List.find?_some hclaim
    obtain rfl : undef.sym = s := of_decide_eq_true hsym
    simp [claim, addSyntheticSymbols_apply, claimsAsImported]

theorem headerSyms_eq (s : σ) :
    l.headerSyms s = { l.symAtScan s with isImported := (l.symAtCopy s).isImported } := by
  rw [headerSyms, addCopyrels_apply, scanSyms_eq]
  rfl

theorem sameButOrigin_copySyms (s : σ) : SameButOrigin (l.headerSyms s) (l.copySyms s) :=
  sameButOrigin_fixSyntheticSymbols _ _ _ _ s

theorem hasOrigin_copySyms (s : σ) : (l.copySyms s).hasOrigin = l.isTiedAtLast s := by
  rw [copySyms, hasOrigin_fixSyntheticSymbols, isTiedAtLast]
  simp only [headerSyms_eq, symAtScan]

theorem isAbsolute_copySyms (s : σ) : (l.copySyms s).isAbsolute = (l.symAtCopy s).isAbsolute := by
  have hsame := l.sameButOrigin_copySyms s
  rw [LinkSymbol.isAbsolute, hsame.hasFile, hsame.isDso, hsame.esym, hsame.isImported,
    hasOrigin_copySyms, headerSyms_eq]
  rfl

theorem getType_copySyms (s : σ) : (l.copySyms s).getType = (l.symAtCopy s).getType := by
  have hsame := l.sameButOrigin_copySyms s
  rw [LinkSymbol.getType, hsame.esym, hsame.isDso, headerSyms_eq]
  rfl

theorem isImported_copySyms (s : σ) : (l.copySyms s).isImported = (l.symAtCopy s).isImported := by
  rw [(l.sameButOrigin_copySyms s).isImported, headerSyms_eq]

theorem toSymbol_copySyms (s : σ) : (l.copySyms s).toSymbol {} = (l.symAtCopy s).toSymbol {} := by
  have hsame := l.sameButOrigin_copySyms s
  rw [LinkSymbol.toSymbol, isAbsolute_copySyms, isImported_copySyms, getType_copySyms,
    hsame.esym, headerSyms_eq]
  rfl

/-! ## The condition -/

def isReported (ref : Reference σ) : Bool := recordUndefError ref (l.symAtScan ref.sym)

def needsAtScan (isec : InputSection (Reference σ)) (rel : Rel (Reference σ)) : Bool :=
  needsDynrel l.word l.args isec ((l.symAtScan rel.rSym.sym).toSymbol {}) rel

def needsAtCopy (isec : InputSection (Reference σ)) (rel : Rel (Reference σ)) (s : σ) : Bool :=
  needsDynrel l.word l.args isec ((l.symAtCopy s).toSymbol {}) rel

def isCounted (isec : InputSection (Reference σ)) (rel : Rel (Reference σ)) : Bool :=
  rel.rType = .abs && !l.isReported rel.rSym && l.needsAtScan isec rel

theorem needsDynrel_copySyms (isec : InputSection (Reference σ)) (rel : Rel (Reference σ))
    (s : σ) (place : Addresses) :
    needsDynrel l.word l.args isec ((l.copySyms s).toSymbol place) rel =
      l.needsAtCopy isec rel s := by
  rw [needsAtCopy, ← toSymbol_copySyms]
  rfl

def wordSym (ref : Reference σ) : Option σ :=
  match ref.use with
  | .ofSymbol => some ref.sym
  | .toc => some l.toc
  | .movt => none

/-- The relocation needs an entry by what is known when chunks are copied. -/
def isFilled (isec : InputSection (Reference σ)) (rel : Rel (Reference σ)) : Bool :=
  rel.rType = .abs && (l.wordSym rel.rSym).any (l.needsAtCopy isec rel)

/-- A relocation is counted in vain: the section has no contents, or an instruction is
relocated, or `.TOC.` is used and needs no entry, or the symbol becomes absolute. -/
def isLost (isec : InputSection (Reference σ)) (rel : Rel (Reference σ)) : Bool :=
  l.isCounted isec rel && (!isec.isWritten ||
    match rel.rSym.use with
    | .movt => true
    | .toc => !l.needsAtCopy isec rel l.toc
    | .ofSymbol => !l.isIfunc rel.rSym.sym && l.isLoosened rel.rSym.sym)

/-- A relocation needs an entry that was not counted: `.TOC.` is used, or the symbol was reported
as undefined, or is no longer absolute, or is imported with a copy relocation. -/
def isGained (isec : InputSection (Reference σ)) (rel : Rel (Reference σ)) : Bool :=
  isec.isWritten && rel.rType = .abs && !l.isCounted isec rel &&
    match rel.rSym.use with
    | .movt => false
    | .toc => l.needsAtCopy isec rel l.toc
    | .ofSymbol =>
      l.needsAtCopy isec rel rel.rSym.sym && (l.isReported rel.rSym ||
        l.isFastened rel.rSym.sym || l.becomesImported rel.rSym.sym)

/-- As many entries are gained as are lost in every section and in `.got`, and a section that
needs any begins below 4 GiB in the region of its file. -/
structure Balanced : Prop where
  got : (l.args.pic && !l.args.packDynRelocsRelr) = true → ∀ got, Chunk.got got ∈ l.chunks →
      got.gotSyms.countP (fun p => !(l.supportsIfunc && l.isIfunc p.1) && l.isLoosened p.1) =
        got.gotSyms.countP fun p => !(l.supportsIfunc && l.isIfunc p.1) && l.isFastened p.1
  alphaGot : l.args.pic = true → ∀ shAddr entries, Chunk.alphaGot shAddr entries ∈ l.chunks →
    entries.countP (fun p => l.isLoosened p.1) = entries.countP fun p => l.isFastened p.1
  sections : ∀ file ∈ l.objs, ∀ sec ∈ file, sec.isScanned →
    sec.isec.rels.countP (l.isLost sec.isec) = sec.isec.rels.countP (l.isGained sec.isec)
  offsets : ∀ file ∈ l.objs, ∀ before sec after,
    file.filter FileSection.isScanned = before ++ sec :: after →
    sec.isec.isWritten → (∃ rel ∈ sec.isec.rels, l.isFilled sec.isec rel) →
    l.relSize * (before.map fun sec' =>
      sec'.isec.rels.countP (l.isCounted sec'.isec)).sum < 2 ^ 32

variable {α : Type*}

theorem countP_eq_iff (p q : α → Bool) (xs : List α) :
    xs.countP p = xs.countP q ↔
      xs.countP (fun x => p x && !q x) = xs.countP fun x => q x && !p x := by
  have hp := List.countP_eq_countP_filter_add xs p q
  have hq := List.countP_eq_countP_filter_add xs q p
  have hboth : xs.countP (fun x => p x && q x) = xs.countP fun x => q x && p x :=
    List.countP_congr fun x _ => by rw [Bool.and_comm]
  simp only [List.countP_filter] at hp hq
  omega

section Change

variable {l} {isec : InputSection (Reference σ)} {rel : Rel (Reference σ)} {s : σ}

def needsEntry (pic relr direct ifunc isAbsolute isImported : Bool) : Bool :=
  ifunc || !isAbsolute && if pic then isImported || !relr else isImported && direct

theorem needsEntry_lost (pic relr direct ifunc dso isAbs imported isAlias tied tied' : Bool)
    (h : needsEntry pic relr direct ifunc (if dso then isAbs else !imported && !tied) imported) :
    (!needsEntry pic relr direct ifunc
      (if dso then isAbs else !(imported || isAlias) && !tied') (imported || isAlias)) =
    (!ifunc && (!dso && !(imported || isAlias) && tied && !tied')) := by
  decide +revert

theorem needsEntry_gained (pic relr direct ifunc dso isAbs imported isAlias tied tied' : Bool)
    (h : needsEntry pic relr direct ifunc (if dso then isAbs else !imported && !tied) imported =
      false)
    (hneeds : needsEntry pic relr direct ifunc
      (if dso then isAbs else !(imported || isAlias) && !tied') (imported || isAlias)) :
    (!dso && !(imported || isAlias) && !tied && tied' || isAlias && !imported) = true := by
  decide +revert

theorem needsAtCopy_of_needsAtScan (h : l.needsAtScan isec rel = true) :
    (!l.needsAtCopy isec rel rel.rSym.sym) =
      (!l.isIfunc rel.rSym.sym && l.isLoosened rel.rSym.sym) :=
  needsEntry_lost _ _ _ _ _ _ _ _ _ _ h

theorem isFastened_or_becomesImported (h : l.needsAtScan isec rel = false)
    (hneeds : l.needsAtCopy isec rel rel.rSym.sym = true) :
    (l.isFastened rel.rSym.sym || l.becomesImported rel.rSym.sym) = true :=
  needsEntry_gained _ _ _ _ _ _ _ _ _ _ h hneeds

theorem isLost_eq : l.isLost isec rel =
    (l.isCounted isec rel && !(isec.isWritten && l.isFilled isec rel)) := by
  rw [isLost]
  cases hcounted : l.isCounted isec rel with
  | false => rfl
  | true =>
    rw [isCounted, Bool.and_eq_true, Bool.and_eq_true] at hcounted
    rw [isFilled, hcounted.1.1, wordSym]
    cases rel.rSym.use with
    | movt => simp
    | toc => simp
    | ofSymbol =>
      simp only [← needsAtCopy_of_needsAtScan hcounted.2]
      simp

theorem isGained_eq : l.isGained isec rel =
    ((isec.isWritten && l.isFilled isec rel) && !l.isCounted isec rel) := by
  rw [isGained]
  cases hcounted : l.isCounted isec rel with
  | true => simp
  | false =>
    rw [isFilled, wordSym]
    cases hword : (rel.rType = .abs : Bool) with
    | false => simp
    | true =>
      rw [isCounted, hword, Bool.true_and, Bool.and_eq_false_iff] at hcounted
      cases rel.rSym.use with
      | movt => simp
      | toc => simp
      | ofSymbol =>
        cases hneeds : l.needsAtCopy isec rel rel.rSym.sym with
        | false => simp [hneeds]
        | true =>
          have hreason : (l.isReported rel.rSym || l.isFastened rel.rSym.sym ||
              l.becomesImported rel.rSym.sym) = true := by
            rcases hcounted with hreported | hscan
            · rw [Bool.not_eq_false'] at hreported
              rw [hreported, Bool.true_or, Bool.true_or]
            · rw [Bool.or_assoc, isFastened_or_becomesImported hscan hneeds, Bool.or_true]
          simp [hneeds, hreason]

theorem absolute_lost (p ifunc dso isAbs imported tied tied' : Bool) :
    ((imported || ifunc || p && !(if dso then isAbs else !imported && !tied)) &&
      !(imported || ifunc || p && !(if dso then isAbs else !imported && !tied'))) =
    (p && (!ifunc && (!dso && !imported && tied && !tied'))) := by
  decide +revert

theorem countP_and_left (b : Bool) (p q : α → Bool) (xs : List α) :
    (xs.countP (fun x => b && p x) = xs.countP fun x => b && q x) ↔
      (b = true → xs.countP p = xs.countP q) := by
  cases b <;> simp

/-- Entries that are needed for imported symbols and ifuncs, and if `p` for all that are not
absolute. -/
theorem countP_entries_iff {β : Type*} (p : Bool) (ifunc : σ → Bool) (xs : List (σ × β)) :
    (xs.countP (fun x => (l.copySyms x.1).isImported || ifunc x.1 ||
        p && !(l.copySyms x.1).isAbsolute) =
      xs.countP fun x => (l.headerSyms x.1).isImported || ifunc x.1 ||
        p && !(l.headerSyms x.1).isAbsolute) ↔
    (p = true → xs.countP (fun x => !ifunc x.1 && l.isLoosened x.1) =
      xs.countP fun x => !ifunc x.1 && l.isFastened x.1) := by
  have hheader (s : σ) : (l.headerSyms s).isAbsolute =
      if (l.ownedSym s).hasFile && (l.ownedSym s).isDso then (l.ownedSym s).esym.isAbs
      else !(l.symAtCopy s).isImported && !l.isTied s := by
    rw [headerSyms_eq]
    rfl
  have hcopy (s : σ) : (l.copySyms s).isAbsolute =
      if (l.ownedSym s).hasFile && (l.ownedSym s).isDso then (l.ownedSym s).esym.isAbs
      else !(l.symAtCopy s).isImported && !l.isTiedAtLast s := l.isAbsolute_copySyms s
  have himported (s : σ) : (l.headerSyms s).isImported = (l.symAtCopy s).isImported := by
    rw [headerSyms_eq]
  rw [eq_comm, countP_eq_iff, ← countP_and_left]
  simp only [hheader, hcopy, himported, isImported_copySyms, absolute_lost, isLoosened,
    isFastened, goesByOrigin, Bool.and_assoc, Bool.and_comm (l.isTiedAtLast _)]

end Change

/-! ## Sections -/

theorem sum_map_toNat (p : α → Bool) (xs : List α) :
    (xs.map fun x => (p x).toNat).sum = xs.countP p := by
  induction xs with
  | nil => rfl
  | cons x xs ih =>
    rw [List.map_cons, List.sum_cons, ih, List.countP_cons, Nat.add_comm]
    cases p x <;> rfl

theorem scanRelocation_eq (isec : InputSection (Reference σ)) (rel : Rel (Reference σ)) :
    l.scanRelocation isec rel = (l.isCounted isec rel).toNat := by
  rw [scanRelocation, isCounted]
  cases htype : rel.rType with
  | none => rfl
  | other => simp
  | abs =>
    simp only [reduceCtorEq, decide_false, Bool.false_or, numDynrel_scanRel,
      makesDynrel_getWordAction, scanSyms_eq]
    rw [isReported, needsAtScan]
    cases recordUndefError rel.rSym (l.symAtScan rel.rSym.sym) <;> simp

theorem scanRelocations_eq (sec : FileSection σ) :
    l.scanRelocations sec = sec.isec.rels.countP (l.isCounted sec.isec) := by
  rw [← sum_map_toNat]
  exact congrArg List.sum (List.map_congr_left fun rel _ => l.scanRelocation_eq _ rel)

theorem scanRelocations_eq_fun :
    l.scanRelocations = fun sec => sec.isec.rels.countP (l.isCounted sec.isec) :=
  funext l.scanRelocations_eq

theorem length_applyRelocation (sec : FileSection σ) (rel : Rel (Reference σ)) :
    (l.applyRelocation sec rel).length = (l.isFilled sec.isec rel).toNat := by
  rw [applyRelocation, isFilled, wordSym]
  cases htype : rel.rType with
  | none => rfl
  | other => rfl
  | abs =>
    cases huse : rel.rSym.use with
    | movt => rfl
    | ofSymbol =>
      simp only [length_dynrel_applyAbsrel, makesDynrel_getWordAction, needsDynrel_copySyms]
      simp
    | toc =>
      simp only [length_dynrel_applyAbsrel, makesDynrel_getWordAction, needsDynrel_copySyms]
      simp

variable {sec : FileSection σ}

theorem length_writeTo (h : sec.isScanned) :
    (l.writeTo sec).length =
      if sec.isec.isWritten then sec.isec.rels.countP (l.isFilled sec.isec) else 0 := by
  rw [writeTo, h, Bool.and_true]
  split
  · rw [List.length_flatMap, ← sum_map_toNat]
    exact congrArg List.sum (List.map_congr_left fun rel _ => l.length_applyRelocation sec rel)
  · rfl

variable {file : List (FileSection σ)}

theorem isScanned_of_mem_scanFile
    {p : FileSection σ × ℕ} (hp : p ∈ l.scanFile file) :
    p.1 ∈ file ∧ p.1.isScanned := by
  have hmem : p.1 ∈ file.filter FileSection.isScanned := mem_of_mem_tile hp
  rwa [List.mem_filter] at hmem

/-! ## Chunks -/

/-- The entries of `.got` for thread-local symbols that need a dynamic
relocation. -/
def numTlsDynrels (snap : Snapshot σ) (got : GotSection σ) : ℕ :=
  (got.tlsgdSyms.map fun p => (l.tlsgdEntries snap p).countP l.hasDynrel).sum +
    (got.tlsdescSyms.map l.tlsdescEntry).countP l.hasDynrel +
    got.gottpSyms.countP (fun p => l.hasDynrel (l.gottpEntry snap p)) +
    (got.tlsldIdx.toList.map l.tlsldEntry).countP l.hasDynrel

theorem countP_getGotEntries (snap : Snapshot σ) (got : GotSection σ) :
    (l.getGotEntries snap got).countP l.hasDynrel =
      got.gotSyms.countP (fun p => l.gotNeedsDynrel (snap.syms p.1)) +
        l.numTlsDynrels snap got := by
  have hgot : (fun p => l.gotNeedsDynrel (snap.syms p.1)) = l.hasDynrel ∘ l.gotSymEntry snap :=
    funext fun p => (l.hasDynrel_gotSymEntry snap p).symm
  rw [hgot, ← List.countP_map, numTlsDynrels, getGotEntries]
  simp only [List.countP_append, List.countP_flatMap, List.countP_map]
  simp only [Nat.add_assoc]
  rfl

theorem numTlsDynrels_atCopy (got : GotSection σ) :
    l.numTlsDynrels l.atCopy got = l.numTlsDynrels l.atHeaders got := by
  have himported : ∀ s, (l.atCopy.syms s).isImported = (l.atHeaders.syms s).isImported :=
    fun s => (l.sameButOrigin_copySyms s).isImported
  simp only [numTlsDynrels, countP_tlsgdEntries, hasDynrel_gottpEntry, himported]

theorem length_copyBuf_alphaGot (snap : Snapshot σ) (shAddr : ℕ) (entries : List (σ × ℤ)) :
    (l.copyBuf snap (.alphaGot shAddr entries)).length =
      entries.countP fun p => l.alphaNeedsDynrel (snap.syms p.1) := by
  rw [copyBuf, List.length_flatMap, ← sum_map_toNat]
  simp only [length_alphaRel]
  rw [← List.zipIdx_map_fst 0 entries, List.map_map]
  simp only [List.zipIdx_map_fst]
  rfl

theorem length_copyBuf_opd (snap : Snapshot σ) (symbols : List (σ × ℕ)) :
    (l.copyBuf snap (.opd symbols)).length =
      if l.args.pic then symbols.length * 2 else 0 := by
  rw [copyBuf, List.length_flatMap]
  have hrels : ∀ p, (l.opdRels snap p).length = if l.args.pic then 2 else 0 := by
    intro p
    rw [opdRels]
    split <;> rfl
  simp only [hrels, List.map_const', List.sum_replicate_nat]
  split <;> simp

theorem length_copyBuf_eq_iff (chunk : Chunk σ) :
    (l.copyBuf l.atCopy chunk).length = l.getReldynSize l.atHeaders chunk ↔
      (∀ got, chunk = .got got → (l.args.pic && !l.args.packDynRelocsRelr) = true →
        got.gotSyms.countP (fun p => !(l.supportsIfunc && l.isIfunc p.1) && l.isLoosened p.1) =
          got.gotSyms.countP fun p =>
            !(l.supportsIfunc && l.isIfunc p.1) && l.isFastened p.1) ∧
      ∀ shAddr entries, chunk = .alphaGot shAddr entries → l.args.pic = true →
        entries.countP (fun p => l.isLoosened p.1) = entries.countP fun p => l.isFastened p.1 := by
  cases chunk with
  | got got =>
    have htype (s : σ) : (l.copySyms s).getType = (l.headerSyms s).getType := by
      rw [getType_copySyms, headerSyms_eq]
      rfl
    have hcount := @countP_entries_iff _ l _ _ (l.args.pic && !l.args.packDynRelocsRelr)
      (fun s => l.supportsIfunc && l.isIfunc s) got.gotSyms
    have hneeds (sym : LinkSymbol) : l.gotNeedsDynrel sym =
        (sym.isImported || (l.supportsIfunc && sym.getType = .gnuIfunc) ||
          (l.args.pic && !l.args.packDynRelocsRelr) && !sym.isAbsolute) := by
      rw [gotNeedsDynrel, Bool.and_right_comm]
    have hifunc (s : σ) : ((l.headerSyms s).getType = .gnuIfunc : Bool) = l.isIfunc s := by
      rw [headerSyms_eq]
      rfl
    rw [copyBuf, List.length_map, ← List.countP_eq_length_filter, getReldynSize,
      countP_getGotEntries, countP_getGotEntries, numTlsDynrels_atCopy, Nat.add_right_cancel_iff]
    simp only [atCopy, atHeaders, hneeds, htype, hifunc, hcount]
    simp
  | copyrel symbols => simp [copyBuf, getReldynSize]
  | alphaGot shAddr entries =>
    have hcount := @countP_entries_iff _ l _ _ l.args.pic (fun _ => false) entries
    have hpromised : l.getReldynSize l.atHeaders (.alphaGot shAddr entries) =
        entries.countP fun p => l.alphaNeedsDynrel (l.headerSyms p.1) := rfl
    simp only [Bool.or_false, Bool.not_false, Bool.true_and] at hcount
    rw [length_copyBuf_alphaGot, hpromised]
    simp only [atCopy, alphaNeedsDynrel, hcount]
    simp
  | opd symbols => simp [length_copyBuf_opd, getReldynSize]
  | other => simp [copyBuf, getReldynSize]

/-- A section writes as many entries as are counted for it if it gains as many as it loses. -/
theorem length_writeTo_eq_iff (h : sec.isScanned) :
    (l.writeTo sec).length = l.scanRelocations sec ↔
      sec.isec.rels.countP (l.isLost sec.isec) = sec.isec.rels.countP (l.isGained sec.isec) := by
  have hwritten : (l.writeTo sec).length =
      sec.isec.rels.countP fun rel => sec.isec.isWritten && l.isFilled sec.isec rel := by
    rw [length_writeTo l h]
    cases sec.isec.isWritten <;> simp
  have hlost : l.isLost sec.isec = fun rel => l.isCounted sec.isec rel &&
      !(sec.isec.isWritten && l.isFilled sec.isec rel) := funext fun _ => isLost_eq
  have hgained : l.isGained sec.isec = fun rel =>
      (sec.isec.isWritten && l.isFilled sec.isec rel) && !l.isCounted sec.isec rel :=
    funext fun _ => isGained_eq
  rw [hwritten, scanRelocations_eq, eq_comm, countP_eq_iff, hlost, hgained]

/-! ## Slots -/

theorem mem_scanFile_iff {n : ℕ} :
    (sec, n) ∈ l.scanFile file ↔
      ∃ before after, file.filter FileSection.isScanned = before ++ sec :: after ∧
        n = (before.map fun sec' =>
          sec'.isec.rels.countP (l.isCounted sec'.isec)).sum := by
  rw [scanFile, mem_tile_iff, scanRelocations_eq_fun]
  simp only [tileEnd, Nat.zero_add]

theorem writeTo_ne_nil_iff (h : sec.isScanned) :
    l.writeTo sec ≠ [] ↔ sec.isec.isWritten ∧ ∃ rel ∈ sec.isec.rels, l.isFilled sec.isec rel := by
  rw [← List.length_pos_iff, length_writeTo l h]
  by_cases hwritten : sec.isec.isWritten = true
  · rw [if_pos hwritten, List.countP_pos_iff]
    simp [hwritten]
  · simp [hwritten]

theorem writtenBy_file (start : ℕ)
    (hcount : ∀ p ∈ l.scanFile file, (l.writeTo p.1).length = l.scanRelocations p.1)
    (hstart : ∀ p ∈ l.scanFile file, l.writeTo p.1 ≠ [] → l.reldynOffset p.2 = l.relSize * p.2) :
    l.writtenBy start (.file file) = slots l.relSize start (l.numDynrel file) := by
  have hslots : ∀ p ∈ l.scanFile file,
      slots l.relSize (start + l.reldynOffset p.2) (l.writeTo p.1).length =
        slots l.relSize (start + l.relSize * p.2) (l.scanRelocations p.1) := by
    intro p hp
    by_cases hnil : l.writeTo p.1 = []
    · have hzero := hcount p hp
      rw [hnil, List.length_nil] at hzero
      rw [hnil, ← hzero]
      rfl
    · rw [hstart p hp hnil, hcount p hp]
  have htile := tile_mul l.relSize l.scanRelocations 0 (file.filter FileSection.isScanned)
  have hall := flatMap_tile_slots l.relSize l.scanRelocations start 0
    (file.filter FileSection.isScanned)
  rw [Nat.mul_zero] at htile
  rw [htile, List.flatMap_map] at hall
  calc
    l.writtenBy start (.file file) =
        (l.scanFile file).flatMap fun p =>
          slots l.relSize (start + l.relSize * p.2) (l.scanRelocations p.1) :=
      List.flatMap_congr hslots
    _ = slots l.relSize start (l.numDynrel file) := hall

theorem writtenSlots_eq
    (h : ∀ p ∈ l.updateShdr, l.writtenBy p.2 p.1 = slots l.relSize p.2 (l.promised p.1)) :
    l.writtenSlots = slots l.relSize 0 (l.owners.map l.promised).sum := by
  have hall := flatMap_tile_slots l.relSize l.promised 0 0 l.owners
  simp only [Nat.zero_add] at hall
  rw [← hall]
  exact List.flatMap_congr h

/-- The slots of `.rela.dyn` are all filled, once, exactly if as many relocations
and entries need one when they are written as when they were counted. -/
theorem slotsFilled_iff : l.SlotsFilled ↔ l.Balanced := by
  constructor
  · intro h
    refine ⟨fun hpic got hgot => ?_, fun hpic shAddr entries hentries => ?_,
      fun file hfile sec hsec hscanned => ?_,
      fun file hfile before sec after hsplit hwritten hfilled => ?_⟩
    · exact ((l.length_copyBuf_eq_iff _).mp (h.chunks _ hgot)).1 got rfl hpic
    · exact ((l.length_copyBuf_eq_iff _).mp (h.chunks _ hentries)).2 shAddr entries rfl hpic
    · have hmem : sec ∈ file.filter FileSection.isScanned :=
        List.mem_filter.mpr ⟨hsec, hscanned⟩
      obtain ⟨n, hn⟩ : ∃ n, (sec, n) ∈ l.scanFile file := exists_mem_tile hmem 0
      exact (l.length_writeTo_eq_iff hscanned).mp (h.sections file hfile _ hn)
    · have hmem := l.mem_scanFile_iff.mpr ⟨before, after, hsplit, rfl⟩
      have hscanned := (l.isScanned_of_mem_scanFile hmem).2
      have hstart := h.starts file hfile _ hmem
        ((l.writeTo_ne_nil_iff hscanned).mpr ⟨hwritten, hfilled⟩)
      exact (Nat.mod_eq_iff_lt (by decide)).mp hstart
  · intro h
    have hchunks : ∀ chunk ∈ l.chunks,
        (l.copyBuf l.atCopy chunk).length = l.getReldynSize l.atHeaders chunk := by
      intro chunk hchunk
      refine (l.length_copyBuf_eq_iff chunk).mpr
        ⟨fun got hgot hpic => ?_, fun shAddr entries hentries hpic => ?_⟩
      · exact h.got hpic got (hgot ▸ hchunk)
      · exact h.alphaGot hpic shAddr entries (hentries ▸ hchunk)
    have hsections : ∀ file ∈ l.objs, ∀ p ∈ l.scanFile file,
        (l.writeTo p.1).length = l.scanRelocations p.1 := by
      intro file hfile p hp
      obtain ⟨hmem, hscanned⟩ := l.isScanned_of_mem_scanFile hp
      exact (l.length_writeTo_eq_iff hscanned).mpr (h.sections file hfile p.1 hmem hscanned)
    have hstarts : ∀ file ∈ l.objs, ∀ p ∈ l.scanFile file,
        l.writeTo p.1 ≠ [] → l.reldynOffset p.2 = l.relSize * p.2 := by
      rintro file hfile ⟨sec, n⟩ hp hne
      have hscanned := (l.isScanned_of_mem_scanFile hp).2
      obtain ⟨hwritten, hfilled⟩ := (l.writeTo_ne_nil_iff hscanned).mp hne
      obtain ⟨before, after, hsplit, rfl⟩ := l.mem_scanFile_iff.mp hp
      exact Nat.mod_eq_of_lt (h.offsets file hfile before sec after hsplit hwritten hfilled)
    refine ⟨@pairwise_tile _ (fun owner => l.relSize * l.promised owner) 0 l.owners,
      fun b hb => exists_of_lt_tileEnd (Nat.zero_le b) hb,
      hchunks, hsections, hstarts, ?_⟩
    rw [l.writtenSlots_eq]
    rintro ⟨owner, start⟩ hp
    rcases l.mem_owners.mp (mem_of_mem_tile hp) with
      ⟨chunk, hchunk, rfl⟩ | ⟨file, hfile, rfl⟩
    · exact congrArg (slots l.relSize start) (hchunks chunk hchunk)
    · exact l.writtenBy_file start (hsections file hfile) (hstarts file hfile)

end Link

/-- A word in a writable section that refers to an alias, given by `--defsym`, of a
symbol of a shared library. -/
def aliasSection : FileSection Bool where
  isAlive := true
  osecAddr := 4096
  isec :=
    { isWritable := true, isAlloc := true, isExec := false, isNobits := false,
      shAddralign := 8, shSize := 8, offset := 0,
      rels := [⟨.abs, 0, ⟨false, some { isUndef := true }, .ofSymbol⟩, 0⟩] }

/-- A position-independent executable with that section.  `false` is the alias and
`true` the symbol of the library. -/
def importedAlias : Link Bool where
  args :=
    { shared := false, pie := true, packDynRelocsRelr := false,
      applyDynamicRelocs := false, zText := true, zCopyreloc := true,
      warnTextrel := false }
  word := .word64
  isRela := true
  supportsIfunc := true
  unresolved := { zDefs := false, zDynamicUndefinedWeak := true }
  syms := fun
    | false => { hasFile := true, esym := { isAbs := true } }
    | true => { hasFile := true, isDso := true, isImported := true }
  internal := [false]
  defsyms := [⟨false, .symbol true⟩]
  undefs := []
  copyrels := []
  aliases := fun s => [s]
  reserved := []
  sectionOrder := []
  toc := false
  tlsModuleBase := none
  chunks := []
  objs := [[aliasSection]]
  headerPlaces := fun _ => {}
  copyPlaces := fun _ => {}
  tlsBegin := 0
  tpAddr := 0
  dtpAddr := 0

/-- The alias is relative when it is scanned, so that an entry is counted, and it is
absolute when it is applied, so that none is written. -/
theorem importedAlias_not_slotsFilled :
    recordUndefError ⟨false, some { isUndef := true }, .ofSymbol⟩
        (importedAlias.scanSyms false) = false ∧
      ¬ importedAlias.SlotsFilled := by
  refine ⟨by decide, fun h => ?_⟩
  have hlength : (importedAlias.writeTo aliasSection).length =
      importedAlias.scanRelocations aliasSection :=
    h.sections [aliasSection] List.mem_cons_self (aliasSection, 0) List.mem_cons_self
  revert hlength
  decide

end Mold.Elf
