import Mold.Elf.RiscvShrink
import Mold.Lib.Excision

/-!
# Symbols of shrunk RISC-V sections

`copy_contents_riscv` leaves out the bytes that `shrink_section` has decided to delete, and
`riscv_resize_sections` moves the symbols to where their bytes go.

The symbols are visited slot by slot of the symbol table of a file, and `foo` and `foo@@V1`
are two slots with one symbol.  Its second visit starts from the value that the first one has
left.
-/

namespace Mold.Elf.RiscvSymbols

open Mold.Lib Mold.Lib.Excision Mold.Elf.RiscvShrink

/-! ## Names -/

/-- The parts of `ElfSym` that choose a symbol. -/
structure ElfSym where
  name : List Char
  isUndef : Bool

/-- Which `Symbol` a slot refers to: one of `local_syms`, or the one of a key. -/
inductive SymbolId where
  | local (idx : ℕ)
  | global (key : List Char)
  deriving DecidableEq

def parseVersion (key : List Char) : List Char × List Char :=
  let ver := key.dropWhile (· ≠ '@')
  let name := key.takeWhile (· ≠ '@')
  if ver = [] then (key, key)
  else if ver ≠ ['@'] ∧ ver ≠ ['@', '@'] ∧ ['@', '@'].isPrefixOf ver then (name, name)
  else (key, name)

/-- `insert_symbol`, with the keys for which `is_wrapped` is set -/
def insertSymbol (wrap : List (List Char)) (esym : ElfSym) (key name : List Char) : List Char :=
  if esym.isUndef ∧ "__real_".toList.isPrefixOf name ∧ name.drop 7 ∈ wrap then key.drop 7
  else if esym.isUndef ∧ key ∈ wrap then "__wrap_".toList ++ key
  else key

/-- The slots of `symbols` of a file, and what is read of the symbols they refer to. -/
structure SymbolTable where
  elfSyms : List ElfSym
  firstGlobal : ℕ
  wrap : List (List Char)
  /-- `sym->file == file` -/
  owned : SymbolId → Bool
  /-- `get_input_section` -/
  inputSection : SymbolId → Option Section
  /-- A slot is an `i32`. -/
  few : elfSyms.length < 2 ^ 31
  /-- A delta is an `i32`. -/
  small : ∀ sym isec, inputSection sym = some isec → isec.contents.length < 2 ^ 31

namespace SymbolTable

/-- The loops of `initialize_symbols`. -/
def symbolOf (table : SymbolTable) (i : ℕ) (esym : ElfSym) : SymbolId :=
  if i < table.firstGlobal then .local i
  else
    .global (insertSymbol table.wrap esym (parseVersion esym.name).1 (parseVersion esym.name).2)

def symbols (table : SymbolTable) : List SymbolId := table.elfSyms.mapIdx table.symbolOf

end SymbolTable

/-! ## Deletions -/

/-- What each relocation deletes: `r_deltas[i + 1] - r_deltas[i]` bytes at its offset. -/
def deletionsOf : List ℤ → List RiscvShrink.Rel → List (ℕ × ℤ)
  | delta :: next :: deltas, rel :: rels =>
    (rel.offset, next - delta) :: deletionsOf (next :: deltas) rels
  | _, _ => []

/-- The loop of `copy_contents_riscv`.  There is no result if an assertion fails or a copy is
not inside the section. -/
def copyFrom (contents : List Byte) : ℕ → List (ℕ × ℤ) → Option (List Byte)
  | pos, [] => if pos ≤ contents.length then some (contents.drop pos) else none
  | pos, (offset, delta) :: rest =>
    if delta = 0 then copyFrom contents pos rest
    else if delta < 0 then none
    else if pos ≤ offset ∧ offset ≤ contents.length then
      (copyFrom contents (offset + delta.toNat) rest).map (((contents.take offset).drop pos) ++ ·)
    else none

section Section

variable (ctx : RiscvShrink.Context) (isec : Section)

/-- `r_deltas`, which stays empty unless the section is resizable. -/
def deltas : List ℤ := if isResizable isec then rDeltas ctx isec else []

def deletions : List (ℕ × ℤ) := deletionsOf (deltas ctx isec) isec.rels

def copyContents : Option (List Byte) := copyFrom isec.contents 0 (deletions ctx isec)

/-- `std::lower_bound` by the offset -/
def lowerBound (rels : List RiscvShrink.Rel) (val : ℕ) : ℕ := rels.findIdx fun rel => !decide (rel.offset < val)

def visit (value : BitVec 64) : BitVec 64 :=
  value - BitVec.ofInt 64 ((deltas ctx isec).getD (lowerBound isec.rels value.toNat) 0)

def isDeleted (p : ℕ) : Bool :=
  (deletions ctx isec).any fun deletion =>
    decide (deletion.1 ≤ p ∧ (p : ℤ) < deletion.1 + deletion.2)

def deletedBefore (v : ℕ) : ℕ := (List.range v).countP (isDeleted ctx isec)

end Section

section Table

variable (ctx : RiscvShrink.Context) (table : SymbolTable)

def fixSymbol (value : SymbolId → BitVec 64) (sym : SymbolId) : SymbolId → BitVec 64 :=
  if table.owned sym then
    match table.inputSection sym with
    | none => value
    | some isec =>
      if (deltas ctx isec).isEmpty then value
      else Function.update value sym (visit ctx isec (value sym))
  else value

def fixSymbols (value : SymbolId → BitVec 64) : SymbolId → BitVec 64 :=
  table.symbols.foldl (fixSymbol ctx table) value

def IsSymbolOf (isec : Section) (sym : SymbolId) : Prop :=
  sym ∈ table.symbols ∧ table.owned sym = true ∧ table.inputSection sym = some isec

/-- Each symbol is moved down by the bytes that are deleted before it, to where its byte is
copied. -/
structure MovesTogether (isec : Section) (value : SymbolId → BitVec 64) : Prop where
  values : ∀ sym, IsSymbolOf table isec sym →
    (fixSymbols ctx table value sym).toNat =
      (value sym).toNat - deletedBefore ctx isec (value sym).toNat
  bytes : ∀ sym, IsSymbolOf table isec sym → ∃ out, copyContents ctx isec = some out ∧
    ∀ byte, isec.contents[(value sym).toNat]? = some byte →
      isDeleted ctx isec (value sym).toNat = false →
        out[(fixSymbols ctx table value sym).toNat]? = some byte

/-- Deletions are in order, without overlaps and in the section. -/
def Deletable (n : ℕ) : ℕ → List (ℕ × ℤ) → Prop
  | pos, [] => pos ≤ n
  | pos, (offset, delta) :: rest =>
    delta = 0 ∧ Deletable n pos rest ∨
      0 < delta ∧ pos ≤ offset ∧ Deletable n (offset + delta.toNat) rest

/-- The section can be copied, no symbol is inside a deletion, and a symbol that has two slots
is moved to where nothing has been deleted before. -/
def Settles (isec : Section) (value : SymbolId → BitVec 64) : Prop :=
  ∀ sym, IsSymbolOf table isec sym →
    Deletable isec.contents.length 0 (deletions ctx isec) ∧
      (∀ deletion ∈ deletions ctx isec, ¬(deletion.1 < (value sym).toNat ∧
        ((value sym).toNat : ℤ) < deletion.1 + deletion.2)) ∧
      (table.symbols.count sym = 1 ∨ ∀ deletion ∈ deletions ctx isec, 0 < deletion.2 →
        (value sym).toNat - deletedBefore ctx isec (value sym).toNat ≤ deletion.1)

end Table

/-! ## Deletions as cuts -/

def cutsOf (dels : List (ℕ × ℤ)) : List Cut :=
  dels.filterMap fun deletion =>
    if 0 < deletion.2 then some ⟨deletion.1, deletion.2.toNat⟩ else none

section Cuts

variable {n pos p : ℕ} {dels : List (ℕ × ℤ)}

theorem cutsOf_cons_of_pos {offset : ℕ} {delta : ℤ} (h : 0 < delta) :
    cutsOf ((offset, delta) :: dels) = ⟨offset, delta.toNat⟩ :: cutsOf dels := by
  apply List.filterMap_cons_some
  exact if_pos h

theorem cutsOf_cons_of_nonpos {offset : ℕ} {delta : ℤ} (h : delta ≤ 0) :
    cutsOf ((offset, delta) :: dels) = cutsOf dels := by
  apply List.filterMap_cons_none
  exact if_neg (by omega)

theorem mem_cutsOf {cut : Cut} :
    cut ∈ cutsOf dels ↔ ∃ deletion ∈ dels, 0 < deletion.2 ∧
      cut.start = deletion.1 ∧ (cut.count : ℤ) = deletion.2 := by
  rw [cutsOf, List.mem_filterMap]
  constructor
  · rintro ⟨deletion, hmem, hcut⟩
    split at hcut
    case isTrue hpos =>
      obtain rfl := Option.some.inj hcut
      exact ⟨deletion, hmem, hpos, rfl, Int.toNat_of_nonneg hpos.le⟩
    case isFalse => exact absurd hcut (by simp)
  · rintro ⟨deletion, hmem, hpos, hstart, hcount⟩
    refine ⟨deletion, hmem, ?_⟩
    obtain ⟨start, count⟩ := cut
    rw [if_pos hpos, ← hcount, Int.toNat_natCast, ← hstart]

theorem contains_cutsOf (dels : List (ℕ × ℤ)) (p : ℕ) :
    ((cutsOf dels).any fun cut => decide (cut.Contains p)) =
      dels.any fun deletion => decide (deletion.1 ≤ p ∧ (p : ℤ) < deletion.1 + deletion.2) := by
  induction dels with
  | nil => rfl
  | cons deletion dels ih =>
    obtain ⟨offset, delta⟩ := deletion
    rw [List.any_cons, ← ih]
    rcases le_or_gt delta 0 with hle | hpos
    · have hfalse : ¬(offset ≤ p ∧ (p : ℤ) < offset + delta) := by omega
      rw [cutsOf_cons_of_nonpos hle, decide_eq_false hfalse, Bool.false_or]
    · rw [cutsOf_cons_of_pos hpos, List.any_cons]
      congr 1
      apply decide_eq_decide.mpr
      unfold Cut.Contains Cut.stop
      simp only
      omega

theorem inside_cutsOf (v : ℕ) :
    Inside (cutsOf dels) v ↔
      ∃ deletion ∈ dels, deletion.1 < v ∧ (v : ℤ) < deletion.1 + deletion.2 := by
  constructor
  · rintro ⟨cut, hcut, hlow, hhigh⟩
    obtain ⟨deletion, hmem, hpos, hstart, hcount⟩ := mem_cutsOf.mp hcut
    rw [Cut.stop] at hhigh
    exact ⟨deletion, hmem, by omega, by omega⟩
  · rintro ⟨deletion, hmem, hlow, hhigh⟩
    have hpos : 0 < deletion.2 := by omega
    refine ⟨⟨deletion.1, deletion.2.toNat⟩,
      mem_cutsOf.mpr ⟨deletion, hmem, hpos, rfl, Int.toNat_of_nonneg hpos.le⟩, hlow, ?_⟩
    rw [Cut.stop]
    simp only
    omega

theorem Deletable.nonneg (h : Deletable n pos dels) : ∀ deletion ∈ dels, 0 ≤ deletion.2 := by
  induction dels generalizing pos with
  | nil => exact fun _ hmem => absurd hmem List.not_mem_nil
  | cons deletion dels ih =>
    rw [List.forall_mem_cons]
    rcases h with ⟨hzero, hrest⟩ | ⟨hpos, -, hrest⟩
    · exact ⟨hzero.ge, ih hrest⟩
    · exact ⟨hpos.le, ih hrest⟩

theorem Deletable.apart (h : Deletable n pos dels) : ApartFrom n pos (cutsOf dels) := by
  induction dels generalizing pos with
  | nil => exact h
  | cons deletion dels ih =>
    rcases h with ⟨hzero, hrest⟩ | ⟨hpos, hstart, hrest⟩
    · rw [cutsOf_cons_of_nonpos hzero.le]
      exact ih hrest
    · rw [cutsOf_cons_of_pos hpos]
      exact ⟨hstart, ih hrest⟩

variable {contents : List Byte}

theorem copyFrom_eq (h : ∀ deletion ∈ dels, 0 ≤ deletion.2) :
    copyFrom contents pos dels = exciseFrom contents pos (cutsOf dels) := by
  induction dels generalizing pos with
  | nil => rfl
  | cons deletion dels ih =>
    obtain ⟨offset, delta⟩ := deletion
    obtain ⟨hnonneg, hrest⟩ := List.forall_mem_cons.mp h
    rw [copyFrom]
    rcases hnonneg.eq_or_lt' with hzero | hpos
    · rw [if_pos hzero, cutsOf_cons_of_nonpos (le_of_eq hzero)]
      exact ih hrest
    · have hne : delta ≠ 0 := hpos.ne'
      rw [if_neg hne, if_neg (by omega), cutsOf_cons_of_pos hpos, exciseFrom, ih hrest]
      rfl

theorem deletable_of_copyFrom (h : (copyFrom contents pos dels).isSome = true) :
    Deletable contents.length pos dels := by
  induction dels generalizing pos with
  | nil =>
    rw [copyFrom] at h
    split at h
    case isTrue hpos => exact hpos
    case isFalse => exact absurd h (by simp)
  | cons deletion dels ih =>
    obtain ⟨offset, delta⟩ := deletion
    rw [copyFrom] at h
    split_ifs at h with hzero hneg hpos
    · exact Or.inl ⟨hzero, ih h⟩
    · exact absurd h (by simp)
    · rw [Option.isSome_map] at h
      exact Or.inr ⟨by omega, hpos.1, ih h⟩
    · exact absurd h (by simp)

end Cuts

theorem isDeleted_eq (ctx : RiscvShrink.Context) (isec : Section) (p : ℕ) :
    isDeleted ctx isec p = (cutsOf (deletions ctx isec)).any fun cut => decide (cut.Contains p) :=
  (contains_cutsOf _ p).symm

theorem deletedBefore_eq (ctx : RiscvShrink.Context) (isec : Section) (v : ℕ) :
    deletedBefore ctx isec v = cutBefore (cutsOf (deletions ctx isec)) v := by
  rw [deletedBefore, cutBefore]
  congr 1
  exact funext (isDeleted_eq ctx isec)

theorem exists_rel_of_mem {deltas : List ℤ} {rels : List RiscvShrink.Rel} {deletion : ℕ × ℤ}
    (h : deletion ∈ deletionsOf deltas rels) : ∃ rel ∈ rels, rel.offset = deletion.1 := by
  induction deltas, rels using deletionsOf.induct with
  | case1 delta next deltas rel rels ih =>
    rcases List.mem_cons.mp h with rfl | h
    · exact ⟨rel, List.mem_cons_self, rfl⟩
    · obtain ⟨later, hlater, hoffset⟩ := ih h
      exact ⟨later, List.mem_cons_of_mem _ hlater, hoffset⟩
  | case2 deltas rels hnot =>
    rw [deletionsOf] at h
    · exact absurd h List.not_mem_nil
    · exact hnot

theorem passed_cutsOf_cons {offset : ℕ} {delta : ℤ} (h : 0 ≤ delta) (dels : List (ℕ × ℤ))
    (v : ℕ) : (passed (cutsOf ((offset, delta) :: dels)) v : ℤ) =
      (if offset < v then delta else 0) + passed (cutsOf dels) v := by
  rcases h.eq_or_lt' with rfl | hpos
  · rw [cutsOf_cons_of_nonpos le_rfl, ite_self, zero_add]
  · rw [cutsOf_cons_of_pos hpos, passed, Nat.cast_add, Nat.cast_ite,
      Int.toNat_of_nonneg hpos.le, Nat.cast_zero]

theorem getD_lowerBound {deltas : List ℤ} {rels : List RiscvShrink.Rel}
    (hlen : deltas.length = rels.length + 1)
    (hsorted : rels.Pairwise fun r s => r.offset ≤ s.offset)
    (hnonneg : ∀ deletion ∈ deletionsOf deltas rels, 0 ≤ deletion.2) (v : ℕ) :
    deltas.getD (lowerBound rels v) 0 =
      deltas.headD 0 + passed (cutsOf (deletionsOf deltas rels)) v := by
  induction rels generalizing deltas with
  | nil =>
    obtain ⟨delta, rfl⟩ := List.length_eq_one_iff.mp hlen
    exact (add_zero delta).symm
  | cons rel rels ih =>
    obtain ⟨delta, tail, rfl⟩ := List.exists_cons_of_length_eq_add_one hlen
    have htail := Nat.succ.inj hlen
    obtain ⟨next, deltas, rfl⟩ := List.exists_cons_of_length_eq_add_one htail
    obtain ⟨hrel, hsorted⟩ := List.pairwise_cons.mp hsorted
    rw [deletionsOf] at hnonneg ⊢
    obtain ⟨hdelta, hnonneg⟩ := List.forall_mem_cons.mp hnonneg
    rw [passed_cutsOf_cons hdelta, lowerBound, List.findIdx_cons]
    by_cases hv : rel.offset < v
    · have hind := ih htail hsorted hnonneg
      rw [lowerBound] at hind
      rw [decide_eq_true hv, if_pos hv, Bool.not_true, cond_false, List.getD_cons_succ, hind,
        List.headD_cons, List.headD_cons]
      ring
    · -- The relocations behind this one are not below the value either.
      have hzero : passed (cutsOf (deletionsOf (next :: deltas) rels)) v = 0 := by
        apply passed_eq_zero_of_le
        intro cut hcut
        obtain ⟨deletion, hmem, -, hstart, -⟩ := mem_cutsOf.mp hcut
        obtain ⟨later, hlater, hoffset⟩ := exists_rel_of_mem hmem
        have hle := hrel later hlater
        omega
      rw [decide_eq_false hv, if_neg hv, hzero, Bool.not_false, cond_true, List.getD_cons_zero,
        List.headD_cons]
      exact (add_zero delta).symm

section Visit

variable {ctx : RiscvShrink.Context} {isec : Section}

theorem getD_deltas (hnonneg : ∀ deletion ∈ deletions ctx isec, 0 ≤ deletion.2) (v : ℕ) :
    (deltas ctx isec).getD (lowerBound isec.rels v) 0 =
      passed (cutsOf (deletions ctx isec)) v := by
  unfold deletions at hnonneg ⊢
  by_cases h : isResizable isec = true
  · have hdeltas : deltas ctx isec = rDeltas ctx isec := if_pos h
    rw [hdeltas] at hnonneg ⊢
    have hhead : (rDeltas ctx isec).headD 0 = 0 := by
      rw [List.headD_eq_getD]
      exact rDelta_zero
    have hlen : (rDeltas ctx isec).length = isec.rels.length + 1 := length_shrinkFrom 0 isec.rels
    rw [getD_lowerBound hlen isec.sorted hnonneg, hhead, zero_add]
  · have hdeltas : deltas ctx isec = [] := if_neg h
    rw [hdeltas]
    rfl

theorem toNat_visit (hnonneg : ∀ deletion ∈ deletions ctx isec, 0 ≤ deletion.2)
    (value : BitVec 64) :
    ((visit ctx isec value).toNat : ℤ) =
      (value.toNat - passed (cutsOf (deletions ctx isec)) value.toNat) % 2 ^ 64 := by
  rw [visit, getD_deltas hnonneg, BitVec.toNat_sub, BitVec.toNat_ofInt]
  omega

/-! ## Several visits -/

def taken (ctx : RiscvShrink.Context) (isec : Section) : ℕ → BitVec 64 → ℕ
  | 0, _ => 0
  | k + 1, value =>
    passed (cutsOf (deletions ctx isec)) value.toNat + taken ctx isec k (visit ctx isec value)

variable {value : BitVec 64} {k : ℕ}

theorem toNat_iterate_visit (hnonneg : ∀ deletion ∈ deletions ctx isec, 0 ≤ deletion.2) :
    (((visit ctx isec)^[k] value).toNat : ℤ) =
      (value.toNat - taken ctx isec k value) % 2 ^ 64 := by
  induction k generalizing value with
  | zero =>
    rw [Function.iterate_zero_apply, taken]
    omega
  | succ k ih =>
    have hvisit := toNat_visit hnonneg value
    rw [Function.iterate_succ_apply, ih, taken]
    omega

theorem taken_le {n : ℕ} (h : Deletable n 0 (deletions ctx isec)) :
    taken ctx isec k value ≤ k * n := by
  induction k generalizing value with
  | zero => exact Nat.zero_le _
  | succ k ih =>
    have hle := passed_le h.apart value.toNat
    have hrest := @ih (visit ctx isec value)
    rw [taken, Nat.succ_mul]
    omega

theorem taken_eq_zero_iff (hnonneg : ∀ deletion ∈ deletions ctx isec, 0 ≤ deletion.2) :
    taken ctx isec k value = 0 ↔ k = 0 ∨ passed (cutsOf (deletions ctx isec)) value.toNat = 0 := by
  induction k generalizing value with
  | zero => exact iff_of_true rfl (Or.inl rfl)
  | succ k ih =>
    rw [taken, Nat.add_eq_zero_iff, ih]
    constructor
    · exact fun h => Or.inr h.1
    · rintro (hk | hzero)
      · exact absurd hk k.succ_ne_zero
      · have hsame : visit ctx isec value = value := by
          have hvisit := toNat_visit hnonneg value
          apply BitVec.eq_of_toNat_eq
          omega
        rw [hsame]
        exact ⟨hzero, Or.inr hzero⟩

theorem taken_eq_shift_iff (h : Deletable isec.contents.length 0 (deletions ctx isec)) :
    taken ctx isec (k + 1) value = shift (cutsOf (deletions ctx isec)) value.toNat ↔
      ¬Inside (cutsOf (deletions ctx isec)) value.toNat ∧
        (k = 0 ∨ passed (cutsOf (deletions ctx isec))
          (value.toNat - shift (cutsOf (deletions ctx isec)) value.toNat) = 0) := by
  have hpassed := shift_le_passed (cutsOf (deletions ctx isec)) value.toNat
  have hshift := shift_le h.apart value.toNat
  have hvisit := toNat_visit h.nonneg value
  rw [← passed_eq_shift_iff, taken]
  constructor
  · intro htaken
    have hfirst : passed (cutsOf (deletions ctx isec)) value.toNat =
        shift (cutsOf (deletions ctx isec)) value.toNat := by omega
    have hvalue : (visit ctx isec value).toNat =
        value.toNat - shift (cutsOf (deletions ctx isec)) value.toNat := by omega
    rw [← hvalue]
    exact ⟨hfirst, (taken_eq_zero_iff h.nonneg).mp (by omega)⟩
  · rintro ⟨hfirst, hrest⟩
    have hvalue : (visit ctx isec value).toNat =
        value.toNat - shift (cutsOf (deletions ctx isec)) value.toNat := by omega
    rw [← hvalue] at hrest
    rw [(taken_eq_zero_iff h.nonneg).mpr hrest, hfirst, Nat.add_zero]

end Visit

section Loop

variable {ctx : RiscvShrink.Context} {table : SymbolTable} {isec : Section} {sym : SymbolId}

theorem visit_of_isEmpty (h : (deltas ctx isec).isEmpty = true) (value : BitVec 64) :
    visit ctx isec value = value := by
  rw [visit, List.isEmpty_iff.mp h]
  exact BitVec.sub_zero value

theorem fixSymbol_self (hsym : IsSymbolOf table isec sym) (value : SymbolId → BitVec 64) :
    fixSymbol ctx table value sym sym = visit ctx isec (value sym) := by
  rw [fixSymbol, if_pos hsym.2.1, hsym.2.2]
  dsimp only
  by_cases hempty : (deltas ctx isec).isEmpty = true
  · rw [if_pos hempty, visit_of_isEmpty hempty]
  · rw [if_neg hempty, Function.update_self]

theorem fixSymbol_of_ne {other : SymbolId} (h : other ≠ sym) (value : SymbolId → BitVec 64) :
    fixSymbol ctx table value other sym = value sym := by
  unfold fixSymbol
  split
  case isFalse => rfl
  case isTrue =>
    cases table.inputSection other with
    | none => rfl
    | some isec =>
      dsimp only
      split
      · rfl
      · exact Function.update_of_ne h.symm _ _

theorem foldl_fixSymbol (hsym : IsSymbolOf table isec sym) (slots : List SymbolId)
    (value : SymbolId → BitVec 64) :
    slots.foldl (fixSymbol ctx table) value sym =
      (visit ctx isec)^[slots.count sym] (value sym) := by
  induction slots generalizing value with
  | nil => rfl
  | cons slot slots ih =>
    rw [List.foldl_cons, ih]
    by_cases hslot : slot = sym
    · subst hslot
      rw [fixSymbol_self hsym, List.count_cons_self, Function.iterate_succ_apply]
    · rw [fixSymbol_of_ne hslot, List.count_cons_of_ne hslot]

end Loop

section Together

variable {ctx : RiscvShrink.Context} {table : SymbolTable} {isec : Section} {sym : SymbolId}

theorem pos_of_mem_cutsOf {dels : List (ℕ × ℤ)} : ∀ cut ∈ cutsOf dels, 0 < cut.count := by
  intro cut hcut
  obtain ⟨deletion, -, hpos, -, hcount⟩ := mem_cutsOf.mp hcut
  omega

theorem passed_cutsOf_eq_zero_iff (dels : List (ℕ × ℤ)) (v : ℕ) :
    passed (cutsOf dels) v = 0 ↔ ∀ deletion ∈ dels, 0 < deletion.2 → v ≤ deletion.1 := by
  rw [passed_eq_zero_iff pos_of_mem_cutsOf]
  constructor
  · intro h deletion hmem hpos
    exact h ⟨deletion.1, deletion.2.toNat⟩
      (mem_cutsOf.mpr ⟨deletion, hmem, hpos, rfl, Int.toNat_of_nonneg hpos.le⟩)
  · intro h cut hcut
    obtain ⟨deletion, hmem, hpos, hstart, -⟩ := mem_cutsOf.mp hcut
    rw [hstart]
    exact h deletion hmem hpos

theorem taken_lt (hsym : IsSymbolOf table isec sym)
    (hdel : Deletable isec.contents.length 0 (deletions ctx isec)) (value : BitVec 64) :
    taken ctx isec (table.symbols.count sym) value < 2 ^ 64 := by
  have hcount : table.symbols.count sym ≤ 2 ^ 31 := by
    have hle := @List.count_le_length _ _ sym table.symbols
    have hfew := table.few
    rw [SymbolTable.symbols, List.length_mapIdx] at hle
    exact le_trans hle hfew.le
  have hsmall : isec.contents.length ≤ 2 ^ 31 := (table.small sym isec hsym.2.2).le
  calc taken ctx isec (table.symbols.count sym) value
      ≤ table.symbols.count sym * isec.contents.length := taken_le hdel
    _ ≤ 2 ^ 31 * 2 ^ 31 := Nat.mul_le_mul hcount hsmall
    _ < 2 ^ 64 := by decide

theorem eq_sub_iff {v final taken expected : ℕ} (hv : v < 2 ^ 64) (htaken : taken < 2 ^ 64)
    (hexpected : expected ≤ v) (hfinal : (final : ℤ) = (v - taken) % 2 ^ 64) :
    final = v - expected ↔ taken = expected := by
  omega

theorem fixSymbols_eq_iff (hsym : IsSymbolOf table isec sym)
    (hdel : Deletable isec.contents.length 0 (deletions ctx isec))
    (value : SymbolId → BitVec 64) :
    (fixSymbols ctx table value sym).toNat =
        (value sym).toNat - deletedBefore ctx isec (value sym).toNat ↔
      (∀ deletion ∈ deletions ctx isec, ¬(deletion.1 < (value sym).toNat ∧
          ((value sym).toNat : ℤ) < deletion.1 + deletion.2)) ∧
        (table.symbols.count sym = 1 ∨ ∀ deletion ∈ deletions ctx isec, 0 < deletion.2 →
          (value sym).toNat - deletedBefore ctx isec (value sym).toNat ≤ deletion.1) := by
  have hlt := taken_lt hsym hdel (value sym)
  have hfix := @toNat_iterate_visit ctx isec (value sym) (table.symbols.count sym) hdel.nonneg
  obtain ⟨k, hk⟩ : ∃ k, table.symbols.count sym = k + 1 :=
    Nat.exists_eq_add_one.mpr (List.count_pos_iff.mpr hsym.1)
  rw [← foldl_fixSymbol hsym table.symbols value, ← fixSymbols] at hfix
  rw [hk] at hlt hfix ⊢
  have hshift := shift_le hdel.apart (value sym).toNat
  have hinside := @inside_cutsOf (deletions ctx isec) (value sym).toNat
  rw [deletedBefore_eq, cutBefore_eq_shift hdel.apart, ← passed_cutsOf_eq_zero_iff]
  rw [eq_sub_iff (value sym).isLt hlt hshift hfix, taken_eq_shift_iff hdel, hinside,
    Nat.add_eq_right]
  simp only [not_exists, not_and]

theorem exists_copyContents (hdel : Deletable isec.contents.length 0 (deletions ctx isec))
    (v : ℕ) : ∃ out, copyContents ctx isec = some out ∧
      ∀ byte, isec.contents[v]? = some byte → isDeleted ctx isec v = false →
        out[v - deletedBefore ctx isec v]? = some byte := by
  obtain ⟨out, hout⟩ := Option.isSome_iff_exists.mp (exciseFrom_isSome_iff.mpr hdel.apart)
  refine ⟨out, by rw [copyContents, copyFrom_eq hdel.nonneg, hout], fun byte hbyte hkept => ?_⟩
  have hcut : ∀ cut ∈ cutsOf (deletions ctx isec), ¬cut.Contains v := by
    rw [isDeleted_eq, List.any_eq_false] at hkept
    exact fun cut hmem hcontains => hkept cut hmem (decide_eq_true hcontains)
  rw [deletedBefore_eq, cutBefore_eq_shift hdel.apart, ← hbyte]
  exact getElem?_exciseFrom hout (Nat.zero_le v) hcut

end Together

/-- For every link, every file and every section of it: symbols and bytes move together
exactly if no symbol is inside a deletion or visited again behind the begin of one. -/
theorem movesTogether_iff (ctx : RiscvShrink.Context) (table : SymbolTable) (isec : Section)
    (value : SymbolId → BitVec 64) :
    MovesTogether ctx table isec value ↔ Settles ctx table isec value := by
  constructor
  · intro h sym hsym
    obtain ⟨out, hout, -⟩ := h.bytes sym hsym
    have hdel : Deletable isec.contents.length 0 (deletions ctx isec) :=
      deletable_of_copyFrom (by rw [← copyContents, hout]; rfl)
    exact ⟨hdel, (fixSymbols_eq_iff hsym hdel value).mp (h.values sym hsym)⟩
  · intro h
    have hvalues : ∀ sym, IsSymbolOf table isec sym →
        (fixSymbols ctx table value sym).toNat =
          (value sym).toNat - deletedBefore ctx isec (value sym).toNat :=
      fun sym hsym => (fixSymbols_eq_iff hsym (h sym hsym).1 value).mpr (h sym hsym).2
    refine ⟨hvalues, fun sym hsym => ?_⟩
    rw [hvalues sym hsym]
    exact exists_copyContents (h sym hsym).1 (value sym).toNat

/-- `auipc ra, 0; jalr ra, 0(ra); ret` where the call is to the function behind it. -/
def call : Section where
  isAlive := true
  isAlloc := true
  isExec := true
  addr := 0x10000
  p2align := 2
  contents := [0x97, 0, 0, 0, 0xE7, 0x80, 0, 0, 0x67, 0x80, 0, 0]
  rels := [⟨.call, 0, 0, ⟨false, false, false, 0x10008⟩⟩, ⟨.relax, 0, 0, ⟨false, true, false, 0⟩⟩]
  sorted := by decide
  aligned := by decide

def callLink : RiscvShrink.Context where
  objs := [⟨"a.o", false, 0, [call]⟩]
  relax := true
  is64 := true
  tpAddr := 0

/-- The symbol table of a file that defines `foo` and `foo@@V1` at the same place. -/
def versions : SymbolTable where
  elfSyms := [⟨[], true⟩, ⟨"foo".toList, false⟩, ⟨"foo@@V1".toList, false⟩]
  firstGlobal := 1
  wrap := []
  owned := fun sym => sym == .global "foo".toList
  inputSection := fun sym => if sym = .global "foo".toList then some call else none
  few := by decide
  small := by
    intro sym isec h
    split at h
    case isTrue =>
      obtain rfl := Option.some.inj h
      decide
    case isFalse => exact absurd h (by simp)

/-- `foo` is moved from 8 to 4 and then to 0. -/
theorem not_movesTogether : ¬MovesTogether callLink versions call fun _ => 8 := by
  intro h
  have hvalue := h.values (.global "foo".toList) ⟨by decide, by decide, rfl⟩
  exact absurd hvalue (by decide)

end Mold.Elf.RiscvSymbols
