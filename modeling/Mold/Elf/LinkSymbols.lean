import Mold.Elf.DynamicRelocs
import Mathlib.Data.List.Induction

/-!
# The symbols of a link from pass to pass

A symbol is absolute when it is tied to nothing in the output.  What it is tied
to is changed by several passes: synthetic symbols are tied to a section when
they are added, `--defsym` symbols may be untied then, unresolved symbols are
claimed by files that refer to them, copy relocations import the aliases of a
symbol, and at last synthetic symbols get what they stand for.  The relocations
are scanned and applied between these passes.
-/

namespace Mold.Elf

/-! ## Symbols -/

inductive Visibility where
  | default
  | hidden
  | isProtected
deriving DecidableEq, Repr

/-- The entry of the symbol table of its file that a symbol was made from. -/
structure Esym where
  isAbs : Bool := false
  isUndef : Bool := false
  isWeak : Bool := false
  stType : SymType := .notype
  stVisibility : Visibility := .default
deriving DecidableEq, Repr

structure LinkSymbol where
  /-- A file owns the symbol. -/
  hasFile : Bool
  /-- The file is a shared library. -/
  isDso : Bool := false
  esym : Esym := {}
  symIdx : ℕ := 1
  visibility : Visibility := .default
  isImported : Bool := false
  /-- The symbol is tied to a section or to a fragment of one. -/
  hasOrigin : Bool := false
deriving DecidableEq, Repr

namespace LinkSymbol

def isAbsolute (sym : LinkSymbol) : Bool :=
  if sym.hasFile && sym.isDso then sym.esym.isAbs
  else !sym.isImported && !sym.hasOrigin

def getType (sym : LinkSymbol) : SymType :=
  if sym.esym.stType = .gnuIfunc && sym.isDso then .func else sym.esym.stType

end LinkSymbol

/-- Where a symbol is found once it has been placed. -/
structure Addresses where
  dynsymIdx : ℤ := -1
  addr : ℕ := 0
  addrNoPlt : ℕ := 0
deriving DecidableEq, Repr

def LinkSymbol.toSymbol (sym : LinkSymbol) (place : Addresses) : Symbol where
  isAbsolute := sym.isAbsolute
  isImported := sym.isImported
  isProtected := sym.esym.stVisibility = .isProtected
  type := sym.getType
  dynsymIdx := place.dynsymIdx
  addr := place.addr
  addrNoPlt := place.addrNoPlt

section Passes

variable {σ : Type*} [DecidableEq σ]

/-- What a `--defsym` symbol is set to. -/
inductive DefsymValue (σ : Type*) where
  | symbol (target : σ)
  | address (value : ℕ)
deriving DecidableEq, Repr

/-- A `--defsym` option. -/
structure Defsym (σ : Type*) where
  sym : σ
  value : DefsymValue σ
deriving DecidableEq, Repr

def setOutputSection (syms : σ → LinkSymbol) (sym : σ) : σ → LinkSymbol :=
  Function.update syms sym { syms sym with hasOrigin := true }

def clearOrigin (syms : σ → LinkSymbol) (sym : σ) : σ → LinkSymbol :=
  Function.update syms sym { syms sym with hasOrigin := false }

/-- A `--defsym` symbol in `add_synthetic_symbols`. -/
def addDefsym (syms : σ → LinkSymbol) (defsym : Defsym σ) : σ → LinkSymbol :=
  match defsym.value with
  | .address _ => clearOrigin syms defsym.sym
  | .symbol target =>
    if (syms target).isAbsolute then clearOrigin syms defsym.sym else syms

/-- What `add_synthetic_symbols` does with the symbols that the internal file
owns. -/
def addSyntheticSymbols (internal : List σ) (defsyms : List (Defsym σ))
    (syms : σ → LinkSymbol) : σ → LinkSymbol :=
  defsyms.foldl addDefsym (internal.foldl setOutputSection syms)

/-- An unresolved reference whose file claims the symbol. -/
structure UndefRef (σ : Type*) where
  sym : σ
  symIdx : ℕ
  esym : Esym
deriving DecidableEq, Repr

structure UnresolvedArgs where
  zDefs : Bool
  zDynamicUndefinedWeak : Bool
deriving DecidableEq, Repr

def claimsAsImported (args : Args) (unresolved : UnresolvedArgs) (sym : LinkSymbol)
    (esym : Esym) : Bool :=
  args.shared && sym.visibility ≠ .hidden &&
    if esym.isWeak then unresolved.zDynamicUndefinedWeak else !unresolved.zDefs

def claim (args : Args) (unresolved : UnresolvedArgs) (syms : σ → LinkSymbol)
    (undef : UndefRef σ) : σ → LinkSymbol :=
  Function.update syms undef.sym
    { syms undef.sym with
      hasFile := true
      isDso := false
      esym := undef.esym
      symIdx := undef.symIdx
      isImported := claimsAsImported args unresolved (syms undef.sym) undef.esym
      hasOrigin := false }

/-- `claim_unresolved_symbols`, with the references that claim a symbol in the
order in which they do. -/
def claimUnresolvedSymbols (args : Args) (unresolved : UnresolvedArgs)
    (undefs : List (UndefRef σ)) (syms : σ → LinkSymbol) : σ → LinkSymbol :=
  undefs.foldl (claim args unresolved) syms

/-- What `CopyrelSection::add_symbol` does to an alias of the symbol. -/
def importAlias (syms : σ → LinkSymbol) (sym : σ) : σ → LinkSymbol :=
  Function.update syms sym { syms sym with isImported := true }

def addCopyrels (aliases : σ → List σ) (copyrels : List σ) (syms : σ → LinkSymbol) :
    σ → LinkSymbol :=
  (copyrels.flatMap aliases).foldl importAlias syms

/-- A `--defsym` symbol in `fix_synthetic_symbols`. -/
def fixDefsym (syms : σ → LinkSymbol) (defsym : Defsym σ) : σ → LinkSymbol :=
  match defsym.value with
  | .address _ => clearOrigin syms defsym.sym
  | .symbol target =>
    if (syms target).hasFile then
      Function.update syms defsym.sym
        { syms defsym.sym with
          hasOrigin := (syms target).hasOrigin
          visibility := (syms target).visibility }
    else syms

/-- `fix_synthetic_symbols`: the symbols that stand for a place of a chunk, the
`--defsym` symbols, and the symbols of `--section-order`. -/
def fixSyntheticSymbols (reserved : List σ) (defsyms : List (Defsym σ))
    (sectionOrder : List σ) (syms : σ → LinkSymbol) : σ → LinkSymbol :=
  sectionOrder.foldl setOutputSection
    (defsyms.foldl fixDefsym (reserved.foldl setOutputSection syms))

/-! ## What the passes keep -/

/-- What does not change when a symbol gets another origin. -/
structure SameButOrigin (sym sym' : LinkSymbol) : Prop where
  hasFile : sym'.hasFile = sym.hasFile
  isDso : sym'.isDso = sym.isDso
  esym : sym'.esym = sym.esym
  symIdx : sym'.symIdx = sym.symIdx
  isImported : sym'.isImported = sym.isImported

theorem SameButOrigin.refl (sym : LinkSymbol) : SameButOrigin sym sym :=
  ⟨rfl, rfl, rfl, rfl, rfl⟩

theorem SameButOrigin.trans {sym₁ sym₂ sym₃ : LinkSymbol}
    (h₁₂ : SameButOrigin sym₁ sym₂) (h₂₃ : SameButOrigin sym₂ sym₃) :
    SameButOrigin sym₁ sym₃ where
  hasFile := h₂₃.hasFile.trans h₁₂.hasFile
  isDso := h₂₃.isDso.trans h₁₂.isDso
  esym := h₂₃.esym.trans h₁₂.esym
  symIdx := h₂₃.symIdx.trans h₁₂.symIdx
  isImported := h₂₃.isImported.trans h₁₂.isImported

omit [DecidableEq σ] in
theorem sameButOrigin_foldl {β : Type*}
    {pass : (σ → LinkSymbol) → β → σ → LinkSymbol}
    (hpass : ∀ syms b s, SameButOrigin (syms s) (pass syms b s)) (l : List β)
    (syms : σ → LinkSymbol) (s : σ) : SameButOrigin (syms s) (l.foldl pass syms s) := by
  induction l generalizing syms with
  | nil => exact .refl _
  | cons b l ih => exact (hpass syms b s).trans (ih (pass syms b))

theorem sameButOrigin_update {syms : σ → LinkSymbol} {t : σ} {sym : LinkSymbol}
    (h : SameButOrigin (syms t) sym) (s : σ) :
    SameButOrigin (syms s) (Function.update syms t sym s) := by
  by_cases hs : s = t
  · rw [hs, Function.update_self]
    exact h
  · rw [Function.update_of_ne hs]
    exact .refl _

theorem sameButOrigin_setOutputSection (syms : σ → LinkSymbol) (t s : σ) :
    SameButOrigin (syms s) (setOutputSection syms t s) := by
  refine sameButOrigin_update ?_ s
  exact ⟨rfl, rfl, rfl, rfl, rfl⟩

theorem sameButOrigin_fixDefsym (syms : σ → LinkSymbol) (defsym : Defsym σ) (s : σ) :
    SameButOrigin (syms s) (fixDefsym syms defsym s) := by
  cases hv : defsym.value with
  | address value =>
    simp only [fixDefsym, hv]
    refine sameButOrigin_update ?_ s
    exact ⟨rfl, rfl, rfl, rfl, rfl⟩
  | symbol target =>
    simp only [fixDefsym, hv]
    split
    · refine sameButOrigin_update ?_ s
      exact ⟨rfl, rfl, rfl, rfl, rfl⟩
    · exact .refl _

theorem sameButOrigin_fixSyntheticSymbols (reserved : List σ)
    (defsyms : List (Defsym σ)) (sectionOrder : List σ) (syms : σ → LinkSymbol)
    (s : σ) :
    SameButOrigin (syms s) (fixSyntheticSymbols reserved defsyms sectionOrder syms s) := by
  have hreserved := sameButOrigin_foldl sameButOrigin_setOutputSection reserved syms s
  have hdefsyms := sameButOrigin_foldl sameButOrigin_fixDefsym defsyms
    (reserved.foldl setOutputSection syms) s
  have horder := sameButOrigin_foldl sameButOrigin_setOutputSection sectionOrder
    (defsyms.foldl fixDefsym (reserved.foldl setOutputSection syms)) s
  exact hreserved.trans (hdefsyms.trans horder)

/-! ## Symbols after the passes -/

def lastClaim (undefs : List (UndefRef σ)) (s : σ) : Option (UndefRef σ) :=
  undefs.reverse.find? fun undef => undef.sym = s

/-- The symbol has an option with an address, or with a symbol that is absolute or that was
untied by an option before.  The options come with the last one first. -/
def isUntied (internal : List σ) (syms : σ → LinkSymbol) : List (Defsym σ) → σ → Bool
  | [], _ => false
  | defsym :: earlier, s =>
    isUntied internal syms earlier s || defsym.sym = s &&
      match defsym.value with
      | .address _ => true
      | .symbol t =>
        if (syms t).hasFile && (syms t).isDso then (syms t).esym.isAbs
        else !(syms t).isImported &&
          !(((syms t).hasOrigin || t ∈ internal) && !isUntied internal syms earlier t)

/-- The symbol from which a symbol takes what it is tied to in the end, by the last option for
it, the last option before that for the target, and so on.  There is none if an address ends
this.  The options come with the last one first. -/
def defsymSource (hasFile : σ → Bool) : List (Defsym σ) → σ → Option σ
  | [], s => some s
  | defsym :: earlier, s =>
    if defsym.sym = s then
      match defsym.value with
      | .address _ => none
      | .symbol t => defsymSource hasFile earlier (if hasFile t then t else s)
    else defsymSource hasFile earlier s

theorem claimUnresolvedSymbols_apply (args : Args) (unresolved : UnresolvedArgs)
    (undefs : List (UndefRef σ)) (syms : σ → LinkSymbol) (s : σ) :
    claimUnresolvedSymbols args unresolved undefs syms s =
      match lastClaim undefs s with
      | none => syms s
      | some undef => claim args unresolved syms undef s := by
  induction undefs using List.reverseRecOn with
  | nil => rfl
  | append_singleton undefs undef ih =>
    have hvisibility : (claimUnresolvedSymbols args unresolved undefs syms s).visibility =
        (syms s).visibility := by
      rw [ih]
      cases lastClaim undefs s with
      | none => rfl
      | some undef => by_cases hs : s = undef.sym <;> simp [claim, hs, Function.update]
    rw [claimUnresolvedSymbols, List.foldl_append, List.foldl_cons, List.foldl_nil,
      ← claimUnresolvedSymbols, lastClaim, List.reverse_append, List.reverse_singleton,
      List.singleton_append, List.find?_cons, ← lastClaim]
    by_cases hs : undef.sym = s
    · subst hs
      simp only [decide_true, claim, Function.update_self, claimsAsImported, hvisibility]
    · simp only [hs, decide_false, claim, Function.update_of_ne (Ne.symm hs), ih]

theorem foldl_setOutputSection_apply (l : List σ) (syms : σ → LinkSymbol) (s : σ) :
    l.foldl setOutputSection syms s =
      { syms s with hasOrigin := (syms s).hasOrigin || s ∈ l } := by
  induction l generalizing syms with
  | nil => simp
  | cons t l ih =>
    rw [List.foldl_cons, ih]
    by_cases hs : s = t
    · simp [setOutputSection, hs]
    · simp [setOutputSection, hs]

theorem addSyntheticSymbols_apply (internal : List σ) (defsyms : List (Defsym σ))
    (syms : σ → LinkSymbol) (s : σ) :
    addSyntheticSymbols internal defsyms syms s =
      { syms s with
        hasOrigin := ((syms s).hasOrigin || s ∈ internal) &&
          !isUntied internal syms defsyms.reverse s } := by
  induction defsyms using List.reverseRecOn generalizing s with
  | nil => simp [addSyntheticSymbols, foldl_setOutputSection_apply, isUntied]
  | append_singleton defsyms defsym ih =>
    rw [addSyntheticSymbols, List.foldl_append, List.foldl_cons, List.foldl_nil,
      ← addSyntheticSymbols, List.reverse_append, List.reverse_singleton,
      List.singleton_append, isUntied]
    by_cases hs : defsym.sym = s
    · subst hs
      cases hvalue : defsym.value with
      | address value => simp [addDefsym, hvalue, clearOrigin, ih]
      | symbol t =>
        have habsolute : (addSyntheticSymbols internal defsyms syms t).isAbsolute =
            if (syms t).hasFile && (syms t).isDso then (syms t).esym.isAbs
            else !(syms t).isImported && !(((syms t).hasOrigin || t ∈ internal) &&
              !isUntied internal syms defsyms.reverse t) := by
          rw [ih, LinkSymbol.isAbsolute]
        simp only [addDefsym, hvalue, ← habsolute]
        cases (addSyntheticSymbols internal defsyms syms t).isAbsolute with
        | true => simp [clearOrigin, ih]
        | false => simp [ih]
    · have hother : addDefsym (addSyntheticSymbols internal defsyms syms) defsym s =
          addSyntheticSymbols internal defsyms syms s := by
        cases hvalue : defsym.value with
        | address value => simp [addDefsym, hvalue, clearOrigin, Ne.symm hs]
        | symbol t =>
          simp only [addDefsym, hvalue]
          split <;> simp [clearOrigin, Ne.symm hs]
      rw [hother, ih]
      simp [hs]

theorem addCopyrels_apply (aliases : σ → List σ) (copyrels : List σ) (syms : σ → LinkSymbol)
    (s : σ) :
    addCopyrels aliases copyrels syms s =
      { syms s with
        isImported := (syms s).isImported || s ∈ copyrels.flatMap aliases } := by
  rw [addCopyrels]
  induction copyrels.flatMap aliases generalizing syms with
  | nil => simp
  | cons t l ih =>
    rw [List.foldl_cons, ih]
    by_cases hs : s = t
    · simp [importAlias, hs]
    · simp [importAlias, hs]

theorem hasOrigin_fixDefsyms (defsyms : List (Defsym σ)) (syms : σ → LinkSymbol) (s : σ) :
    (defsyms.foldl fixDefsym syms s).hasOrigin =
      (defsymSource (fun t => (syms t).hasFile) defsyms.reverse s).any fun t =>
        (syms t).hasOrigin := by
  induction defsyms using List.reverseRecOn generalizing s with
  | nil => rfl
  | append_singleton defsyms defsym ih =>
    have hfile (t : σ) : (defsyms.foldl fixDefsym syms t).hasFile = (syms t).hasFile :=
      (sameButOrigin_foldl sameButOrigin_fixDefsym defsyms syms t).hasFile
    rw [List.foldl_append, List.foldl_cons, List.foldl_nil, List.reverse_append,
      List.reverse_singleton, List.singleton_append, defsymSource]
    by_cases hs : defsym.sym = s
    · subst hs
      cases hvalue : defsym.value with
      | address value => simp [fixDefsym, hvalue, clearOrigin]
      | symbol t =>
        simp only [fixDefsym, hvalue, hfile, if_true]
        cases (syms t).hasFile with
        | true => simp [ih]
        | false => simp [ih]
    · rw [if_neg hs, ← ih]
      cases hvalue : defsym.value with
      | address value => simp [fixDefsym, hvalue, clearOrigin, Ne.symm hs]
      | symbol t =>
        simp only [fixDefsym, hvalue]
        split <;> simp [Ne.symm hs]

theorem hasOrigin_fixSyntheticSymbols (reserved : List σ) (defsyms : List (Defsym σ))
    (sectionOrder : List σ) (syms : σ → LinkSymbol) (s : σ) :
    (fixSyntheticSymbols reserved defsyms sectionOrder syms s).hasOrigin =
      ((defsymSource (fun t => (syms t).hasFile) defsyms.reverse s).any
        (fun t => (syms t).hasOrigin || t ∈ reserved) || s ∈ sectionOrder) := by
  rw [fixSyntheticSymbols, foldl_setOutputSection_apply]
  simp only [hasOrigin_fixDefsyms, foldl_setOutputSection_apply]

end Passes

end Mold.Elf
