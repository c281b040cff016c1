import Mold.Lib.KeyedList
import Mold.MachO.ChainedFixupsWalk
import Mold.MachO.ChainedImports

/-!
# Chained imports decode to what was requested

If no symbol that is asked for with two addends ties with another symbol,
`operator<` agrees with the order of a key.  The list of `get_dynsyms` is then
sorted by that key, and every request finds the first record that is equal to
it.  What is left is that indices, name offsets, library ordinals and addends
fit into their fields.
-/

namespace Mold.MachO.ChainedFixups

open Mold.Lib

variable {τ : Type*}

namespace Bindings

variable {I : Bindings τ}

theorem not_symLt_of_tie {s t : τ}
    (h : (I.symbol s).filePriority = (I.symbol t).filePriority ∧
      (I.symbol s).value = (I.symbol t).value) :
    I.symLt s t = false := by
  simp [symLt, h.1, h.2]

variable {x y : SymbolAddend τ}

theorem shared_of_ne (hy : y ∈ I.requests) (hsym : y.sym = x.sym) (hne : y ≠ x) : I.Shared x := by
  refine ⟨y, hy, hsym, fun haddend => hne ?_⟩
  cases x
  cases y
  simp_all

variable [DecidableEq τ]

theorem sortKey_lt_iff :
    I.sortKey x < I.sortKey y ↔ I.symLt x.sym y.sym = true ∨
      ((I.symbol x.sym).filePriority = (I.symbol y.sym).filePriority ∧
        (I.symbol x.sym).value = (I.symbol y.sym).value) ∧
        (if I.Shared x then x.addend else 0) < if I.Shared y then y.addend else 0 := by
  simp only [sortKey, Prod.Lex.toLex_lt_toLex, symLt, decide_eq_true_eq]
  tauto

theorem sortKey_eq_iff :
    I.sortKey x = I.sortKey y ↔
      (I.symbol x.sym).filePriority = (I.symbol y.sym).filePriority ∧
        (I.symbol x.sym).value = (I.symbol y.sym).value ∧
        (if I.Shared x then x.addend else 0) = if I.Shared y then y.addend else 0 := by
  simp only [sortKey, EmbeddingLike.apply_eq_iff_eq, Prod.mk.injEq]

theorem sym_eq_of_tie (hsound : I.OrderSound)
    (hx : x ∈ I.requests) (hy : y ∈ I.requests) (hshared : I.Shared x)
    (htie : (I.symbol x.sym).filePriority = (I.symbol y.sym).filePriority ∧
      (I.symbol x.sym).value = (I.symbol y.sym).value) :
    y.sym = x.sym := by
  by_contra hne
  rcases hsound x hx hshared y hy hne with h | h
  · simp [not_symLt_of_tie htie] at h
  · simp [not_symLt_of_tie ⟨htie.1.symm, htie.2.symm⟩] at h

theorem addendLt_iff_sortKey_lt (hsound : I.OrderSound)
    (hx : x ∈ I.requests) (hy : y ∈ I.requests) :
    I.addendLt x y = true ↔ I.sortKey x < I.sortKey y := by
  rw [sortKey_lt_iff]
  by_cases hsym : x.sym = y.sym
  · have hlt : I.addendLt x y = decide (x.addend < y.addend) := by
      rw [addendLt, if_neg (not_not.mpr hsym)]
    have hnot : I.symLt x.sym y.sym = false := by
      apply not_symLt_of_tie
      simp [hsym]
    rw [hlt, hnot, decide_eq_true_eq]
    by_cases heq : x = y
    · subst heq
      simp
    · have hxs : I.Shared x := shared_of_ne hy hsym.symm (Ne.symm heq)
      have hys : I.Shared y := shared_of_ne hx hsym heq
      simp [hxs, hys, hsym]
  · have hlt : I.addendLt x y = I.symLt x.sym y.sym := by
      rw [addendLt, if_pos hsym]
    rw [hlt]
    constructor
    · exact Or.inl
    · rintro (h | ⟨htie, h⟩)
      · exact h
      · -- one of two tied symbols would have to be shared
        exfalso
        by_cases hys : I.Shared y
        · exact hsym (sym_eq_of_tie hsound hy hx hys ⟨htie.1.symm, htie.2.symm⟩)
        · rw [if_neg hys] at h
          exact Nat.not_lt_zero _ h

/-! ## The sorted table -/

theorem dynsyms_eq_ordered (hsound : I.OrderSound) : I.dynsyms = I.ordered := by
  have hsort : I.requests.mergeSort (fun a b => !I.addendLt b a) =
      I.requests.mergeSort fun a b => decide (I.sortKey a ≤ I.sortKey b) := by
    have hmap := List.map_mergeSort (f := id) (r := fun a b => !I.addendLt b a)
      (s := fun a b => decide (I.sortKey a ≤ I.sortKey b)) (l := I.requests) (by
        intro a ha b hb
        have hiff := addendLt_iff_sortKey_lt hsound hb ha
        simp only [id]
        rw [Bool.eq_iff_iff, Bool.not_eq_true', decide_eq_true_eq, ← not_lt, ← hiff,
          Bool.not_eq_true])
    simpa using hmap
  rw [dynsyms, ordered, hsort]

variable {x : SymbolAddend τ}

theorem mem_ordered : x ∈ I.ordered ↔ x ∈ I.requests := by
  rw [ordered, mem_destutter_ne, List.mem_mergeSort]

theorem mem_dynsyms : x ∈ I.dynsyms ↔ x ∈ I.requests := by
  rw [dynsyms, mem_destutter_ne, List.mem_mergeSort]

theorem ordered_pairwise : I.ordered.Pairwise fun a b => I.sortKey a ≤ I.sortKey b := by
  exact (pairwise_mergeSort_key I.sortKey I.requests).sublist (List.destutter_sublist _ _)

theorem setFixupOrdinals_append_cons {front back : List (SymbolAddend τ)}
    (hfront : ∀ y ∈ front, y.sym ≠ x.sym) (i : ℕ) :
    setFixupOrdinals i (front ++ x :: back) x.sym = i + front.length := by
  induction front generalizing i with
  | nil => simp [setFixupOrdinals]
  | cons y front ih =>
    have hne : x.sym ≠ y.sym := Ne.symm (hfront y List.mem_cons_self)
    rw [List.cons_append, setFixupOrdinals, Function.update_of_ne hne,
      ih fun z hz => hfront z (List.mem_cons_of_mem _ hz), List.length_cons]
    omega

theorem exists_first_sym (hx : x ∈ I.requests) :
    ∃ front y back, I.ordered = front ++ y :: back ∧ y.sym = x.sym ∧
      ∀ z ∈ front, z.sym ≠ x.sym := by
  have hmem : x.sym ∈ I.ordered.map SymbolAddend.sym :=
    List.mem_map_of_mem (mem_ordered.mpr hx)
  obtain ⟨front, back, hsplit, hnot⟩ := List.eq_append_cons_of_mem hmem
  obtain ⟨front', rest, hord, hfront, hrest⟩ := List.map_eq_append_iff.mp hsplit
  obtain ⟨y, back', hrest', hy, hback⟩ := List.map_eq_cons_iff.mp hrest
  refine ⟨front', y, back', by rw [hord, hrest'], hy, ?_⟩
  intro z hz heq
  apply hnot
  rw [← hfront, ← heq]
  exact List.mem_map_of_mem hz

theorem idxOf_ordered {front back : List (SymbolAddend τ)}
    (hsplit : I.ordered = front ++ x :: back) (hfront : x ∉ front) :
    I.ordered.idxOf x = front.length := by
  rw [hsplit, List.idxOf_append_of_notMem hfront, List.idxOf_cons_self, Nat.add_zero]

theorem fixupOrdinal_eq_idxOf (hsound : I.OrderSound)
    (hx : x ∈ I.requests) (hzero : x.addend = 0) :
    I.fixupOrdinal x.sym = I.ordered.idxOf x := by
  obtain ⟨front, y, back, hsplit, hy, hfront⟩ := exists_first_sym hx
  have hyreq : y ∈ I.requests := mem_ordered.mp (by simp [hsplit])
  have hyx : y = x := by
    by_contra hne
    have hlt : I.sortKey x < I.sortKey y := by
      have hpos : 0 < y.addend := by
        rcases Nat.eq_zero_or_pos y.addend with h | h
        · exact absurd (by cases x; cases y; simp_all) hne
        · exact h
      rw [← addendLt_iff_sortKey_lt hsound hx hyreq, addendLt, if_neg (not_not.mpr hy.symm), hzero]
      exact decide_eq_true hpos
    have hmem : x ∈ front ++ y :: back := hsplit ▸ mem_ordered.mpr hx
    have hsorted := I.ordered_pairwise
    rw [hsplit] at hsorted
    rcases List.mem_append.mp hmem with h | h
    · exact hfront x h rfl
    · rcases List.mem_cons.mp h with h | h
      · exact hne h.symm
      · have hback := (List.pairwise_cons.mp (List.pairwise_append.mp hsorted).2.1).1
        exact absurd (hback x h) (not_le.mpr hlt)
  subst hyx
  rw [fixupOrdinal, dynsyms_eq_ordered hsound,
    idxOf_ordered hsplit fun h => hfront y h rfl, hsplit,
    setFixupOrdinals_append_cons hfront, Nat.zero_add]

theorem takeWhile_congr_mem {α : Type*} {p q : α → Bool} {l : List α}
    (h : ∀ a ∈ l, p a = q a) : l.takeWhile p = l.takeWhile q := by
  induction l with
  | nil => rfl
  | cons a l ih =>
    rw [List.takeWhile_cons, List.takeWhile_cons, h a List.mem_cons_self,
      ih fun b hb => h b (List.mem_cons_of_mem _ hb)]

theorem findDynsymOrdinal_eq (hsound : I.OrderSound) (hx : x ∈ I.requests) :
    I.findDynsymOrdinal x.sym x.addend = some (I.ordered.idxOf x) := by
  obtain ⟨front, back, hsplit, hnot⟩ :=
    List.eq_append_cons_of_mem (mem_ordered.mpr hx)
  obtain ⟨front', y, back', hsplit', hy, hfront'⟩ := exists_first_sym hx
  have hyreq : y ∈ I.requests := mem_ordered.mp (by simp [hsplit'])
  have hord : I.fixupOrdinal x.sym = front'.length := by
    rw [fixupOrdinal, dynsyms_eq_ordered hsound, hsplit', ← hy,
      setFixupOrdinals_append_cons (by rwa [hy]), Nat.zero_add]
  have hstart : front'.length ≤ front.length := by
    by_contra hlt
    push Not at hlt
    have hx' : (front' ++ y :: back')[front.length]? = some x := by
      rw [← hsplit', hsplit, List.getElem?_append_right le_rfl, Nat.sub_self]
      rfl
    rw [List.getElem?_append_left hlt] at hx'
    exact hfront' x (List.mem_of_getElem? hx') rfl
  have hne : ∀ z ∈ front.drop front'.length, I.sortKey z ≠ I.sortKey x := by
    intro z hz hkey
    have hzfront : z ∈ front := List.mem_of_mem_drop hz
    have hzreq : z ∈ I.requests := mem_ordered.mp (by simp [hsplit, hzfront])
    have hzx : z ≠ x := fun h => hnot (h ▸ hzfront)
    obtain ⟨hpriority, hvalue, haddend⟩ := sortKey_eq_iff.mp hkey
    by_cases hshared : I.Shared x
    · have hsym : z.sym = x.sym :=
        sym_eq_of_tie hsound hx hzreq hshared ⟨hpriority.symm, hvalue.symm⟩
      rw [if_pos (shared_of_ne hx hsym.symm (Ne.symm hzx)), if_pos hshared] at haddend
      exact hzx (by cases x; cases z; simp_all)
    · -- `x` is the only pair of its symbol, so the search starts at `x`
      have hyx : y = x := by
        by_contra hne
        exact hshared (shared_of_ne hyreq hy hne)
      have hle : front.length ≤ front'.length := by
        by_contra hlt
        push Not at hlt
        have hx' : (front ++ x :: back)[front'.length]? = some x := by
          rw [← hsplit, hsplit', hyx, List.getElem?_append_right le_rfl, Nat.sub_self]
          rfl
        rw [List.getElem?_append_left hlt] at hx'
        exact hnot (List.mem_of_getElem? hx')
      rw [List.drop_eq_nil_of_le hle] at hz
      exact List.not_mem_nil hz
  have hlower : I.lowerBound (I.fixupOrdinal x.sym) x = front.length := by
    have hsorted := I.ordered_pairwise
    rw [hsplit] at hsorted
    rw [lowerBound, hord, dynsyms_eq_ordered hsound,
      ← add_length_takeWhile_drop hsorted hstart hne, hsplit]
    congr 2
    apply takeWhile_congr_mem
    intro z hz
    have hzreq : z ∈ I.requests :=
      mem_ordered.mp (hsplit ▸ List.mem_of_mem_drop hz)
    rw [Bool.eq_iff_iff, addendLt_iff_sortKey_lt hsound hzreq hx, decide_eq_true_eq]
  have hget : I.dynsyms[front.length]? = some x := by
    rw [dynsyms_eq_ordered hsound, hsplit, List.getElem?_append_right le_rfl, Nat.sub_self]
    rfl
  rw [findDynsymOrdinal, idxOf_ordered hsplit hnot]
  simp only [hlower, hget, if_pos]

theorem bindTarget_eq (hsound : I.OrderSound) {f : Fixup τ}
    (hf : f ∈ I.fixups) (hx : request f = some x) :
    I.bindTarget x.sym f.addend = some (I.ordered.idxOf x,
      if f.addend ≤ maxInlineAddend then f.addend else 0) := by
  have hreq : x ∈ I.requests := List.mem_filterMap.mpr ⟨f, hf, hx⟩
  obtain ⟨sym, hsym, rfl⟩ := Option.map_eq_some_iff.mp hx
  by_cases hinline : f.addend ≤ maxInlineAddend
  · simp only [bindTarget, if_pos hinline] at hreq ⊢
    rw [fixupOrdinal_eq_idxOf hsound hreq rfl]
  · simp only [bindTarget, if_neg hinline] at hreq ⊢
    rw [findDynsymOrdinal_eq hsound hreq]
    rfl

theorem length_nameOffsets (symbol : τ → ImportSymbol) (o : ℕ)
    (l : List (SymbolAddend τ)) : (nameOffsets symbol o l).length = l.length := by
  induction l generalizing o with
  | nil => rfl
  | cons x l ih => rw [nameOffsets, List.length_cons, ih, List.length_cons]

theorem drop_nameOffsets {symbol : τ → ImportSymbol} {names : List Byte}
    {l : List (SymbolAddend τ)} {o : ℕ}
    (hnames : names.drop o = (symbol x.sym).name ++ 0 :: symbolNames symbol (some x.sym) l)
    {i : ℕ} {y : SymbolAddend τ} {nameoff : ℕ} (hy : (x :: l)[i]? = some y)
    (hoff : (nameOffsets symbol o (x :: l))[i]? = some nameoff) :
    ∃ rest, names.drop nameoff = (symbol y.sym).name ++ 0 :: rest := by
  induction l generalizing x o i with
  | nil =>
    cases i with
    | zero =>
      simp only [nameOffsets, List.getElem?_cons_zero, Option.some.injEq] at hy hoff
      subst hy hoff
      exact ⟨_, hnames⟩
    | succ i => simp at hy
  | cons z l ih =>
    cases i with
    | zero =>
      simp only [nameOffsets, List.getElem?_cons_zero, Option.some.injEq] at hy hoff
      subst hy hoff
      exact ⟨_, hnames⟩
    | succ i =>
      rw [List.getElem?_cons_succ] at hy
      rw [nameOffsets, List.getElem?_cons_succ] at hoff
      refine ih ?_ hy hoff
      by_cases hsym : z.sym = x.sym
      · rw [if_pos (by simp [hsym]), hnames, symbolNames, if_pos (by rw [hsym]),
          List.nil_append, hsym]
      · rw [if_neg (by simpa using hsym), Nat.add_assoc, ← List.drop_drop, hnames,
          symbolNames, if_neg (by simpa using Ne.symm hsym)]
        simp

theorem takeWhile_drop_symbolNames {symbol : τ → ImportSymbol}
    {l : List (SymbolAddend τ)} {i : ℕ} {y : SymbolAddend τ} {nameoff : ℕ}
    (hy : l[i]? = some y) (hoff : (nameOffsets symbol 0 l)[i]? = some nameoff) :
    ((symbolNames symbol none l).drop nameoff).takeWhile (· ≠ 0) = (symbol y.sym).name := by
  cases l with
  | nil => simp at hy
  | cons x l =>
    have hstart : (symbolNames symbol none (x :: l)).drop 0 =
        (symbol x.sym).name ++ 0 :: symbolNames symbol (some x.sym) l := by
      simp [symbolNames]
    obtain ⟨rest, hrest⟩ := drop_nameOffsets hstart hy hoff
    rw [hrest, List.takeWhile_append_of_pos, List.takeWhile_cons_of_neg (by simp), List.append_nil]
    intro b hb
    exact decide_eq_true ((symbol y.sym).name_ne_zero b hb)

end Bindings

namespace ImportFormat

def storedLib (lib : ℤ) (fmt : ImportFormat) : ℤ :=
  BitField.toSigned fmt.libWidth ((lib % 2 ^ 64).toNat % 2 ^ fmt.libWidth)

def storedAddend (addend : ℕ) : ImportFormat → ℤ
  | chainedImport => 0
  | chainedImportAddend => BitField.toSigned 32 (addend % 2 ^ 32)
  | chainedImportAddend64 => (addend % 2 ^ 64 : ℕ)

theorem decode_record (lib : ℤ) (weak : Bool) (nameoff addend : ℕ) (fmt : ImportFormat) :
    fmt.decode (fmt.record lib weak nameoff addend) =
      (fmt.storedLib lib, nameoff % 2 ^ fmt.nameWidth, fmt.storedAddend addend) := by
  have hunpack : BitField.unpack fmt.widths (fmt.record lib weak nameoff addend) =
      (fmt.widths.zip (fmt.fields lib weak nameoff addend)).map
        fun field => field.2 % 2 ^ field.1 := by
    rw [record, ← BitField.unpack_pack]
    cases fmt <;> rfl
  simp only [decode, hunpack]
  cases fmt <;> rfl

theorem storedLib_eq_iff {lib : ℤ} {fmt : ImportFormat} :
    fmt.storedLib lib = lib ↔ -2 ^ (fmt.libWidth - 1) ≤ lib ∧ lib < 2 ^ (fmt.libWidth - 1) := by
  cases fmt <;>
    simp only [storedLib, libWidth, BitField.toSigned] <;>
    norm_num <;>
    split <;>
    omega

theorem storedAddend_zero (fmt : ImportFormat) : fmt.storedAddend 0 = 0 := by
  cases fmt <;> rfl

end ImportFormat

namespace Bindings

variable [DecidableEq τ] {I : Bindings τ}

/-! ## The format -/

theorem foldl_max_le_iff {c : ℕ} (l : List ℕ) (a : ℕ) :
    l.foldl Nat.max a ≤ c ↔ a ≤ c ∧ ∀ b ∈ l, b ≤ c := by
  induction l generalizing a with
  | nil => simp
  | cons b l ih =>
    rw [List.foldl_cons, ih, List.forall_mem_cons, ← and_assoc]
    exact and_congr_left fun _ => max_le_iff

theorem importFormat_eq :
    I.importFormat =
      if I.Wide then .chainedImportAddend64
      else if ∀ x ∈ I.requests, x.addend = 0 then .chainedImport
      else .chainedImportAddend := by
  have hmax (c : ℕ) : (I.dynsyms.map SymbolAddend.addend).foldl Nat.max 0 ≤ c ↔
      ∀ x ∈ I.requests, x.addend ≤ c := by
    rw [foldl_max_le_iff]
    simp [mem_dynsyms]
  have hzero : (I.dynsyms.map SymbolAddend.addend).foldl Nat.max 0 = 0 ↔
      ∀ x ∈ I.requests, x.addend = 0 := by
    rw [← Nat.le_zero, hmax]
    simp
  have hwide : (I.dynsyms.map SymbolAddend.addend).foldl Nat.max 0 % 2 ^ 32 =
      (I.dynsyms.map SymbolAddend.addend).foldl Nat.max 0 ↔ ¬ I.Wide := by
    rw [Nat.mod_eq_iff_lt (by decide), Nat.lt_iff_le_pred (by decide), hmax, Wide]
    push Not
    exact forall₂_congr fun x _ => by omega
  simp only [importFormat, hzero, hwide]
  by_cases h : I.Wide
  · have hne : ¬ ∀ x ∈ I.requests, x.addend = 0 := by
      obtain ⟨x, hx, hle⟩ := h
      intro hall
      have := hall x hx
      omega
    rw [if_neg hne, if_neg (not_not.mpr h), if_pos h]
  · rw [if_pos h, if_neg h]

theorem libWidth_importFormat : I.importFormat.libWidth = if I.Wide then 16 else 8 := by
  rw [importFormat_eq]
  split
  · rfl
  · split <;> rfl

theorem nameWidth_importFormat : I.importFormat.nameWidth = if I.Wide then 32 else 23 := by
  rw [importFormat_eq]
  split
  · rfl
  · split <;> rfl

theorem storedAddend_importFormat_iff {x : SymbolAddend τ} (hx : x ∈ I.requests)
    (hpos : x.addend ≠ 0) (hlt : x.addend < 2 ^ 64) :
    I.importFormat.storedAddend x.addend % 2 ^ 64 = x.addend ↔ (¬ I.Wide → x.addend < 2 ^ 31) := by
  rw [importFormat_eq]
  by_cases hwide : I.Wide
  · rw [if_pos hwide, ImportFormat.storedAddend]
    simp only [hwide, not_true_eq_false, false_implies, iff_true]
    omega
  · have hnz : ¬ ∀ x ∈ I.requests, x.addend = 0 := fun h => hpos (h x hx)
    have hsmall : x.addend < 2 ^ 32 := by
      by_contra h
      exact hwide ⟨x, hx, not_lt.mp h⟩
    rw [if_neg hwide, if_neg hnz, ImportFormat.storedAddend, BitField.toSigned]
    simp only [hwide, not_false_eq_true, true_implies]
    split <;> omega

theorem decodeBind_bindWord (hsound : I.OrderSound) (hfits : I.TableFits)
    {x : SymbolAddend τ} (hx : x ∈ I.requests) {inline : ℕ}
    (hinline : inline < 2 ^ 8) (next : ℕ) :
    I.decodeBind (bindWord (I.ordered.idxOf x) inline next) = some
      { name := (I.symbol x.sym).name
        libOrdinal := I.importFormat.storedLib (I.libOrdinal x.sym)
        importAddend := I.importFormat.storedAddend x.addend
        inlineAddend := inline } := by
  obtain ⟨hidx, hname⟩ := hfits x hx
  have hunpack : BitField.unpack [24, 8, 19, 12, 1]
      (bindWord (I.ordered.idxOf x) inline next) =
        [I.ordered.idxOf x, inline, 0, next % 2 ^ 12, 1] := by
    have h := BitField.unpack_pack
      [(24, I.ordered.idxOf x), (8, inline), (19, 0), (12, next), (1, 1)]
    simp only [List.map_cons, List.map_nil, Nat.mod_eq_of_lt hidx, Nat.mod_eq_of_lt hinline] at h
    exact h
  have hlt : I.ordered.idxOf x < I.ordered.length :=
    List.idxOf_lt_length_of_mem (mem_ordered.mpr hx)
  have hget : I.ordered[I.ordered.idxOf x]? = some x := by
    rw [List.getElem?_eq_getElem hlt, List.getElem_idxOf]
  obtain ⟨nameoff, hoff⟩ : ∃ nameoff,
      (nameOffsets I.symbol 0 I.ordered)[I.ordered.idxOf x]? = some nameoff :=
    ⟨_, List.getElem?_eq_getElem (by rwa [length_nameOffsets])⟩
  have hnameoff : nameoff % 2 ^ I.importFormat.nameWidth = nameoff := by
    apply Nat.mod_eq_of_lt
    have := hname nameoff hoff
    rw [nameWidth_importFormat]
    split at this <;> rename_i hwide <;> simp only [hwide, if_true, if_false] <;> omega
  have hrec : I.writeImports[I.ordered.idxOf x]? =
      some (I.importFormat.record (I.libOrdinal x.sym) (I.symbol x.sym).isWeak
        nameoff x.addend) := by
    rw [writeImports, dynsyms_eq_ordered hsound, List.getElem?_zipWith, hget, hoff]
  rw [decodeBind, hunpack]
  simp only [List.getD_cons_zero, List.getD_cons_succ, hrec, Option.map_some,
    ImportFormat.decode_record, hnameoff]
  rw [dynsyms_eq_ordered hsound, takeWhile_drop_symbolNames hget hoff]

theorem decodes_iff (hsound : I.OrderSound) (hfits : I.TableFits)
    {f : Fixup τ} (hf : f ∈ I.fixups) {x : SymbolAddend τ}
    (hx : request f = some x) :
    I.Decodes f x.sym ↔
      I.importFormat.storedLib (I.libOrdinal x.sym) = I.libOrdinal x.sym ∧
        (¬ I.Wide → x.addend < 2 ^ 31) := by
  have hreq : x ∈ I.requests := List.mem_filterMap.mpr ⟨f, hf, hx⟩
  obtain ⟨hsym, hxaddend⟩ : f.sym = some x.sym ∧
      x.addend = if f.addend ≤ maxInlineAddend then 0 else f.addend := by
    obtain ⟨sym, hsym, rfl⟩ := Option.map_eq_some_iff.mp hx
    exact ⟨hsym, rfl⟩
  have hlt : f.addend < 2 ^ 64 := I.addend_lt f hf
  have hinline : (if f.addend ≤ maxInlineAddend then f.addend else 0) < 2 ^ 8 := by
    rw [maxInlineAddend]
    split <;> omega
  have haddend : ((I.importFormat.storedAddend x.addend +
      (if f.addend ≤ maxInlineAddend then f.addend else 0 : ℕ)) % 2 ^ 64 = (f.addend : ℤ)) ↔
        (¬ I.Wide → x.addend < 2 ^ 31) := by
    by_cases hle : f.addend ≤ maxInlineAddend
    · rw [if_pos hle] at hxaddend ⊢
      rw [hxaddend, ImportFormat.storedAddend_zero]
      constructor
      · intro _ _
        decide
      · intro _
        omega
    · rw [if_neg hle] at hxaddend ⊢
      rw [maxInlineAddend] at hle
      rw [Nat.cast_zero, add_zero, ← hxaddend]
      exact storedAddend_importFormat_iff hreq (by omega) (by omega)
  have hword (target : ℕ × ℕ) (next val : ℕ) :
      fixupWord (fun _ => target) f next val = bindWord target.1 target.2 next := by
    rw [fixupWord, hsym]
  constructor
  · rintro ⟨target, htarget, hdecode⟩
    rw [bindTarget_eq hsound hf hx, Option.some.injEq] at htarget
    obtain ⟨info, hinfo, hrequested⟩ := hdecode 0 0
    rw [hword, ← htarget, decodeBind_bindWord hsound hfits hreq hinline,
      Option.some.injEq] at hinfo
    rw [← hinfo] at hrequested
    exact ⟨hrequested.libOrdinal, haddend.mp hrequested.addend⟩
  · rintro ⟨hlib, hadd⟩
    refine ⟨_, bindTarget_eq hsound hf hx, fun next val => ?_⟩
    rw [hword, decodeBind_bindWord hsound hfits hreq hinline]
    refine ⟨_, rfl, rfl, hlib, haddend.mpr hadd, ?_⟩
    intro hle
    rw [if_pos hle] at hxaddend
    rw [hxaddend]
    exact ImportFormat.storedAddend_zero _

/-- Where the order of the requests is sound and the table fits, the imports
decode to what was requested if and only if the library ordinals fit into their
signed fields and so do the addends, unless some addend makes the table
wide. -/
theorem importsDecode_iff (hsound : I.OrderSound) (hfits : I.TableFits) :
    I.ImportsDecode ↔ I.FieldsFit := by
  have hiff : I.ImportsDecode ↔ ∀ x ∈ I.requests,
      I.importFormat.storedLib (I.libOrdinal x.sym) = I.libOrdinal x.sym ∧
        (¬ I.Wide → x.addend < 2 ^ 31) := by
    constructor
    · intro hdecode x hx
      obtain ⟨f, hf, hreq⟩ := List.mem_filterMap.mp hx
      have hsym : f.sym = some x.sym := by
        obtain ⟨sym, hsym, rfl⟩ := Option.map_eq_some_iff.mp hreq
        exact hsym
      exact (decodes_iff hsound hfits hf hreq).mp (hdecode f hf x.sym hsym)
    · intro hall f hf sym hsym
      obtain ⟨x, hreq, rfl⟩ : ∃ x, request f = some x ∧ x.sym = sym := by
        rw [request, hsym]
        exact ⟨_, rfl, rfl⟩
      exact (decodes_iff hsound hfits hf hreq).mpr (hall x (List.mem_filterMap.mpr ⟨f, hf, hreq⟩))
  rw [hiff, FieldsFit]
  simp only [ImportFormat.storedLib_eq_iff, libWidth_importFormat]
  by_cases hwide : I.Wide
  · simp [hwide]
  · simp [hwide, and_assoc]

end Bindings

/-! ## A large addend -/

/-- `foo` of the first dylib, and a pointer to `foo` plus an addend. -/
def singleBinding (addend : ℕ) (h : addend < 2 ^ 64) : Bindings Unit where
  symbol _ :=
    { name := [102, 111, 111]
      filePriority := 8000000
      name_ne_zero := by simp }
  fixups := [{ addr := 0, sym := some (), addend }]
  addend_lt f hf := by
    rw [List.mem_singleton] at hf
    rw [hf]
    exact h

theorem singleBinding_orderSound (addend : ℕ) (h : addend < 2 ^ 64) :
    (singleBinding addend h).OrderSound :=
  fun _ _ _ _ _ hne => absurd rfl hne

theorem singleBinding_requests (addend : ℕ) (h : addend < 2 ^ 64) :
    (singleBinding addend h).requests = [⟨(), if addend ≤ maxInlineAddend then 0 else addend⟩] :=
  rfl

theorem singleBinding_not_wide {addend : ℕ} (h : addend < 2 ^ 64)
    (hlt : addend < 2 ^ 32) : ¬ (singleBinding addend h).Wide := by
  rintro ⟨x, hx, hle⟩
  rw [singleBinding_requests, List.mem_singleton] at hx
  rw [hx] at hle
  dsimp only at hle
  split at hle <;> omega

theorem singleBinding_ordered (addend : ℕ) (h : addend < 2 ^ 64) :
    (singleBinding addend h).ordered = [⟨(), if addend ≤ maxInlineAddend then 0 else addend⟩] := by
  rw [Bindings.ordered, singleBinding_requests, List.mergeSort_singleton, List.destutter_singleton]

theorem singleBinding_tableFits (addend : ℕ) (h : addend < 2 ^ 64) :
    (singleBinding addend h).TableFits := by
  intro x hx
  have hmem := Bindings.mem_ordered.mpr hx
  rw [singleBinding_ordered, List.mem_singleton] at hmem
  rw [singleBinding_ordered, hmem, List.idxOf_cons_self]
  constructor
  · decide
  · intro nameoff hoff
    rw [nameOffsets, List.getElem?_cons_zero, Option.mem_some_iff] at hoff
    rw [← hoff]
    split <;> decide

/-- The addend of `int *p = foo + (1 << 30)` is read back. -/
theorem importsDecode_singleBinding : (singleBinding (2 ^ 30) (by decide)).ImportsDecode := by
  apply (Bindings.importsDecode_iff (singleBinding_orderSound _ _)
    (singleBinding_tableFits _ _)).mpr
  rw [Bindings.FieldsFit, if_neg (singleBinding_not_wide _ (by decide)), singleBinding_requests]
  intro x hx
  rw [List.mem_singleton.mp hx]
  refine ⟨?_, ?_, ?_⟩ <;> decide

/-- The addend of `int *p = foo + (1 << 31)` is read back as a negative
number. -/
theorem not_importsDecode_singleBinding :
    ¬ (singleBinding (2 ^ 31) (by decide)).ImportsDecode := by
  intro hdecode
  have hfixup := hdecode ⟨0, some (), 2 ^ 31⟩ List.mem_cons_self () rfl
  have hiff := Bindings.decodes_iff (singleBinding_orderSound (2 ^ 31) (by decide))
    (singleBinding_tableFits _ _) (f := ⟨0, some (), 2 ^ 31⟩) List.mem_cons_self
    (x := ⟨(), 2 ^ 31⟩) rfl
  have hsmall := (hiff.mp hfixup).2 (singleBinding_not_wide _ (by decide))
  exact absurd hsmall (by decide)

end Mold.MachO.ChainedFixups
