import Mold.Lib.OptionTraverse
import Mold.Lib.StableSort

/-!
# Function descriptors of 64-bit PowerPC

`ppc64v1_rewrite_opd` of `arch-ppc64v1.cc`: function symbols are moved from `.opd` to the entry
points of the functions, and references to `.opd` become references to function symbols.  The
output has a descriptor for every symbol that `scan_relocations` and `ppc64v1_scan_symbols` mark.

The files are rewritten in parallel.  A file moves only the symbols that it owns, and asks only
whether a symbol is in its own `.opd`.
-/

namespace Mold.Elf.Ppc64Opd

open Mold.Lib

inductive SymType where
  | func
  | gnuIfunc
  | sectionSym
  | other
  deriving DecidableEq

structure Symbol (κ : Type*) where
  file : ℕ
  inputSection : Option κ
  value : BitVec 64
  type : SymType
  isExported : Bool
  isImported : Bool

def Symbol.isFunc {κ : Type*} (sym : Symbol κ) : Bool := sym.type == .func || sym.type == .gnuIfunc

/-- `set_input_section` and the new value. -/
def Symbol.moveTo {κ : Type*} (sym : Symbol κ) (e : Option κ × BitVec 64) : Symbol κ :=
  { sym with inputSection := e.1, value := e.2 }

inductive RelType where
  | none
  | rel24
  | other
  deriving DecidableEq

/-- A relocation, with the symbol that its index stands for in the file. -/
structure Rel (σ : Type*) where
  rOffset : BitVec 64
  rType : RelType
  rSym : σ
  rAddend : BitVec 64

structure Section (σ κ : Type*) where
  id : κ
  /-- The name is `.opd`. -/
  isOpd : Bool
  isAlloc : Bool
  isAlive : Bool
  rels : List (Rel σ)

structure File (σ κ : Type*) where
  id : ℕ
  symbols : List σ
  sections : List (Section σ κ)

/-- `std::lower_bound` on a sorted table, and whether the key is the one that is looked for. -/
def lookup {α : Type*} (key : α → BitVec 64) (l : List α) (x : BitVec 64) : Option α :=
  (l.find? fun a => decide (x.toNat ≤ (key a).toNat)).filter fun a => decide (key a = x)

section Rewrite

variable {σ κ : Type*} [DecidableEq σ] [DecidableEq κ]

/-- `get_opd_section` -/
def File.opd (f : File σ κ) : Option (Section σ κ) := f.sections.find? (·.isOpd)

/-- The entry point that the descriptor at an offset of `.opd` has: what `get_relocation_at`
finds, if it is against a section. -/
def entry (tbl : σ → Symbol κ) (opd : Section σ κ) (offset : BitVec 64) :
    Option (Option κ × BitVec 64) :=
  (lookup Rel.rOffset opd.rels offset).bind fun rel =>
    if (tbl rel.rSym).type = .sectionSym then some ((tbl rel.rSym).inputSection, rel.rAddend)
    else none

/-- A symbol is moved from the `.opd` of a file. -/
def moves (file : ℕ) (opd : Section σ κ) (sym : Symbol κ) : Bool :=
  decide (sym.file = file) && decide (sym.inputSection = some opd.id) && sym.isFunc

def moveSymbols (file : ℕ) (opd : Section σ κ) : List σ → (σ → Symbol κ) → List (BitVec 64 × σ) →
    Option ((σ → Symbol κ) × List (BitVec 64 × σ))
  | [], tbl, syms => some (tbl, syms)
  | s :: rest, tbl, syms =>
    if moves file opd (tbl s) then
      (entry tbl opd (tbl s).value).bind fun e =>
        moveSymbols file opd rest (Function.update tbl s ((tbl s).moveTo e))
          (syms ++ [((tbl s).value, s)])
    else moveSymbols file opd rest tbl syms

/-- `get_opd_sym_at` in the sorted symbols. -/
def getOpdSymAt (syms : List (BitVec 64 × σ)) (offset : BitVec 64) : Option σ :=
  (lookup Prod.fst (syms.mergeSort fun x y => decide (x.1.toNat ≤ y.1.toNat)) offset).map Prod.snd

def rewriteRel (tbl : σ → Symbol κ) (opd : Section σ κ) (syms : List (BitVec 64 × σ))
    (r : Rel σ) : Option (Rel σ) :=
  if (tbl r.rSym).inputSection = some opd.id then
    (getOpdSymAt syms r.rAddend).map fun s => { r with rSym := s, rAddend := 0 }
  else some r

/-- The sections of a file, `.opd` being dead. -/
def rewriteSection (rewrite : Rel σ → Option (Rel σ)) (opd isec : Section σ κ) :
    Option (Section σ κ) :=
  if isec.id = opd.id then some { isec with isAlive := false }
  else if isec.isAlive then
    (isec.rels.mapM rewrite).map fun rels => { isec with rels := rels }
  else some isec

def rewriteFile (tbl : σ → Symbol κ) (f : File σ κ) : Option ((σ → Symbol κ) × File σ κ) :=
  match f.opd with
  | none => some (tbl, f)
  | some opd =>
    (moveSymbols f.id opd f.symbols tbl []).bind fun (tbl, syms) =>
      (f.sections.mapM (rewriteSection (rewriteRel tbl opd syms) opd)).map fun secs =>
        (tbl, { f with sections := secs })

/-- `ppc64v1_rewrite_opd` -/
def rewriteOpd : List (File σ κ) → (σ → Symbol κ) → Option ((σ → Symbol κ) × List (File σ κ))
  | [], tbl => some (tbl, [])
  | f :: files, tbl =>
    (rewriteFile tbl f).bind fun (tbl, f') =>
      (rewriteOpd files tbl).map fun (tbl, files') => (tbl, f' :: files')

/-- Any relocation except `R_PPC64_REL24` is considered as an address-taking relocation. -/
def RelType.takesAddr (type : RelType) : Bool := type != .rel24

/-- A relocation that `scan_relocations` looks at refers to a symbol. -/
def refers (files : List (File σ κ)) (s : σ) (p : RelType → Bool) : Bool :=
  files.any fun f => f.sections.any fun isec => isec.isAlive && isec.isAlloc &&
    isec.rels.any fun r => r.rType != .none && decide (r.rSym = s) && p r.rType

/-- `NEEDS_PPC_OPD`, which `scan_relocations` and `ppc64v1_scan_symbols` set.  The marked symbols
are those of the options for the entry, `DT_INIT` and `DT_FINI`. -/
def needsOpd (marked : List σ) (files : List (File σ κ)) (tbl : σ → Symbol κ) (s : σ) : Bool :=
  ((tbl s).type == .gnuIfunc && refers files s fun _ => true) ||
    ((tbl s).type == .func && refers files s RelType.takesAddr) ||
    ((tbl s).isExported && (tbl s).isFunc) || (decide (s ∈ marked) && !(tbl s).isImported)

/-- The symbols of the output `.opd`. -/
def opdSymbols (marked : List σ) (files : List (File σ κ)) (tbl : σ → Symbol κ) : List σ :=
  files.flatMap fun f => f.symbols.filter fun s =>
    decide ((tbl s).file = f.id) && needsOpd marked files tbl s

/-- `get_addr(ctx, NO_PLT | NO_OPD)` -/
def codeAddr (secAddr : κ → BitVec 64) (sym : Symbol κ) : BitVec 64 :=
  match sym.inputSection with
  | some k => secAddr k + sym.value
  | none => sym.value

/-- `PPC64OpdSection::copy_buf`: the first two words of the descriptors. -/
def copyBuf (secAddr : κ → BitVec 64) (TOC : BitVec 64) (marked : List σ)
    (files : List (File σ κ)) (tbl : σ → Symbol κ) : List (BitVec 64 × BitVec 64) :=
  (opdSymbols marked files tbl).map fun s => (codeAddr secAddr (tbl s), TOC)

/-- The files are well formed: symbols of `.opd` belong to its file, function symbols of `.opd`
and references to it are at descriptors, and descriptors lead to code. -/
structure Valid (files : List (File σ κ)) (tbl : σ → Symbol κ) : Prop where
  ids : (files.map File.id).Nodup
  symbols : ∀ f ∈ files, f.symbols.Nodup
  sorted : ∀ f ∈ files, ∀ opd, f.opd = some opd →
    opd.rels.Pairwise fun a b => a.rOffset.toNat ≤ b.rOffset.toNat
  owned : ∀ f ∈ files, ∀ opd, f.opd = some opd → ∀ s, (tbl s).inputSection = some opd.id →
    (tbl s).file = f.id ∧ s ∈ f.symbols
  described : ∀ f ∈ files, ∀ opd, f.opd = some opd → ∀ s, moves f.id opd (tbl s) = true →
    ∃ e, entry tbl opd (tbl s).value = some e
  code : ∀ f ∈ files, ∀ opd, f.opd = some opd → ∀ offset e, entry tbl opd offset = some e →
    ∀ g ∈ files, ∀ opd', g.opd = some opd' → e.1 ≠ some opd'.id
  designates : ∀ f ∈ files, ∀ isec ∈ f.sections, isec.isAlive = true → ∀ r ∈ isec.rels,
    ∀ g ∈ files, ∀ opd, g.opd = some opd → (tbl r.rSym).inputSection = some opd.id →
      ∃ e, entry tbl opd ((tbl r.rSym).value + r.rAddend) = some e

/-- A relocation that designated a descriptor designates the entry point. -/
def RelOk (files : List (File σ κ)) (tbl tbl' : σ → Symbol κ) (r r' : Rel σ) : Prop :=
  ∀ g ∈ files, ∀ opd, g.opd = some opd → (tbl r.rSym).inputSection = some opd.id →
    entry tbl opd ((tbl r.rSym).value + r.rAddend) =
      some ((tbl' r'.rSym).inputSection, (tbl' r'.rSym).value + r'.rAddend)

def File.rewrites (f : File σ κ) (isec : Section σ κ) : Prop :=
  isec.isAlive = true ∧ ∀ opd, f.opd = some opd → isec.id ≠ opd.id

/-- A function that is defined in the link, whose address is in the output. -/
def Taken (marked : List σ) (files : List (File σ κ)) (tbl : σ → Symbol κ) (s : σ) : Prop :=
  (∃ f ∈ files, (tbl s).file = f.id ∧ s ∈ f.symbols) ∧ (tbl s).isFunc = true ∧
    (tbl s).isImported = false ∧
    ((refers files s RelType.takesAddr) = true ∨ (tbl s).isExported = true ∨ s ∈ marked)

/-- No file is rejected, references go to entry points, and the functions whose addresses are in
the output have one descriptor each. -/
def Correct (secAddr : κ → BitVec 64) (TOC : BitVec 64) (marked : List σ)
    (files : List (File σ κ)) (tbl : σ → Symbol κ) : Prop :=
  ∃ tbl' files', rewriteOpd files tbl = some (tbl', files') ∧
    List.Forall₂ (fun f f' => List.Forall₂ (fun isec isec' => f.rewrites isec →
      List.Forall₂ (RelOk files tbl tbl') isec.rels isec'.rels) f.sections f'.sections)
        files files' ∧
    ∀ s, Taken marked files' tbl' s →
      ((copyBuf secAddr TOC marked files' tbl').filter fun e =>
        decide (e.1 = codeAddr secAddr (tbl' s))) = [(codeAddr secAddr (tbl' s), TOC)]

end Rewrite

section Tables

variable {σ κ : Type*} [DecidableEq κ]

/-! ## The tables of symbols -/

def movedBy (tbl : σ → Symbol κ) (file : ℕ) (opd : Section σ κ) (sym : Symbol κ) : Symbol κ :=
  if moves file opd sym then
    match entry tbl opd sym.value with
    | some e => sym.moveTo e
    | none => sym
  else sym

def movedTable (tbl : σ → Symbol κ) (files : List (File σ κ)) (s : σ) : Symbol κ :=
  match files.find? fun f => f.id = (tbl s).file with
  | some f =>
    match f.opd with
    | some opd => movedBy tbl f.id opd (tbl s)
    | none => tbl s
  | none => tbl s

structure Agree (tbl tbl' : σ → Symbol κ) : Prop where
  type : ∀ s, (tbl' s).type = (tbl s).type
  sections : ∀ s, (tbl s).type = .sectionSym → tbl' s = tbl s

variable {tbl tbl' : σ → Symbol κ} {files : List (File σ κ)} {f : File σ κ} {opd : Section σ κ}
  {s : σ}

omit [DecidableEq κ] in
theorem entry_congr (h : Agree tbl tbl') (opd : Section σ κ) (offset : BitVec 64) :
    entry tbl' opd offset = entry tbl opd offset := by
  rw [entry, entry]
  congr 1
  funext rel
  rw [h.type]
  split
  case isTrue htype => rw [h.sections _ htype]
  case isFalse => rfl

variable {file : ℕ} {sym : Symbol κ}

theorem isFunc_of_moves (h : moves file opd sym = true) :
    sym.file = file ∧ sym.inputSection = some opd.id ∧ sym.isFunc = true := by
  simpa [moves, and_assoc] using h

omit [DecidableEq κ] in
theorem not_sectionSym (h : sym.isFunc = true) : sym.type ≠ .sectionSym := by
  intro htype
  simp [Symbol.isFunc, htype] at h

theorem moveSymbols_eq [DecidableEq σ] (hagree : Agree tbl tbl') {syms : List σ}
    (hnodup : syms.Nodup)
    (hentry : ∀ s ∈ syms, moves file opd (tbl' s) = true →
      ∃ e, entry tbl opd (tbl' s).value = some e) (acc : List (BitVec 64 × σ)) :
    moveSymbols file opd syms tbl' acc =
      some (fun s => if s ∈ syms then movedBy tbl file opd (tbl' s) else tbl' s,
        acc ++ (syms.filter fun s => moves file opd (tbl' s)).map fun s =>
          ((tbl' s).value, s)) := by
  induction syms generalizing tbl' acc with
  | nil => simp [moveSymbols]
  | cons s syms ih =>
    obtain ⟨hs, hnodup⟩ := List.nodup_cons.mp hnodup
    obtain ⟨hfirst, hentry⟩ := List.forall_mem_cons.mp hentry
    rw [moveSymbols]
    cases hmoves : moves file opd (tbl' s) with
    | false =>
      rw [if_neg Bool.false_ne_true, ih hagree hnodup hentry,
        List.filter_cons_of_neg (by rw [hmoves]; exact Bool.false_ne_true)]
      congr 2
      funext t
      by_cases ht : t = s
      · rw [ht, if_neg hs, if_pos List.mem_cons_self, movedBy, hmoves, if_neg Bool.false_ne_true]
      · simp only [List.mem_cons, ht, false_or]
    | true =>
      obtain ⟨e, he⟩ := hfirst hmoves
      obtain ⟨tbl₁, htbl₁⟩ : ∃ tbl₁, tbl₁ = Function.update tbl' s ((tbl' s).moveTo e) :=
        ⟨_, rfl⟩
      have hself : tbl₁ s = (tbl' s).moveTo e := by rw [htbl₁, Function.update_self]
      have hother (t : σ) (ht : t ≠ s) : tbl₁ t = tbl' t := by
        rw [htbl₁, Function.update_of_ne ht]
      have hrest (t : σ) (ht : t ∈ syms) : tbl₁ t = tbl' t :=
        hother t fun heq => hs (heq ▸ ht)
      have hagree₁ : Agree tbl tbl₁ := by
        refine ⟨fun t => ?_, fun t htype => ?_⟩
        · by_cases ht : t = s
          · rw [ht, hself]
            exact hagree.type s
          · rw [hother t ht, hagree.type]
        · have hne : t ≠ s := by
            rintro rfl
            exact not_sectionSym (isFunc_of_moves hmoves).2.2 ((hagree.type t).trans htype)
          rw [hother t hne, hagree.sections t htype]
      have hfilter : (syms.filter fun t => moves file opd (tbl₁ t)) =
          syms.filter fun t => moves file opd (tbl' t) :=
        List.filter_congr fun t ht => by rw [hrest t ht]
      rw [if_pos rfl, entry_congr hagree, he, Option.bind_some, ← htbl₁, ih hagree₁ hnodup
        (fun t ht hm => by rw [hrest t ht] at hm ⊢; exact hentry t ht hm), hfilter,
        List.filter_cons_of_pos (p := fun t => moves file opd (tbl' t)) hmoves, List.map_cons,
        List.append_assoc]
      refine congrArg some (Prod.ext (funext fun t => ?_) ?_)
      · by_cases ht : t = s
        · simp only [ht, if_neg hs, if_pos List.mem_cons_self, hself, movedBy, hmoves, if_true, he]
        · simp only [List.mem_cons, ht, false_or, hother t ht]
      · refine congrArg (acc ++ ((tbl' s).value, s) :: ·) (List.map_congr_left fun t ht => ?_)
        rw [hrest t (List.mem_of_mem_filter ht)]

theorem movedBy_of_not_moves (h : moves file opd sym = false) :
    movedBy tbl file opd sym = sym := by
  rw [movedBy, h, if_neg Bool.false_ne_true]

theorem movedBy_eq_or (tbl : σ → Symbol κ) (file : ℕ) (opd : Section σ κ) (sym : Symbol κ) :
    movedBy tbl file opd sym = sym ∨
      moves file opd sym = true ∧ ∃ e, movedBy tbl file opd sym = sym.moveTo e := by
  cases h : moves file opd sym with
  | false => exact .inl (movedBy_of_not_moves h)
  | true =>
    rw [movedBy, h, if_pos rfl]
    split
    case h_1 e _ => exact .inr ⟨rfl, e, rfl⟩
    case h_2 => exact .inl rfl

theorem movedTable_eq_or (tbl : σ → Symbol κ) (files : List (File σ κ)) (s : σ) :
    movedTable tbl files s = tbl s ∨
      (tbl s).isFunc = true ∧ ∃ e, movedTable tbl files s = (tbl s).moveTo e := by
  rw [movedTable]
  split
  case h_1 f _ =>
    split
    case h_1 opd _ =>
      rcases movedBy_eq_or tbl f.id opd (tbl s) with heq | ⟨hmoves, e, heq⟩
      · exact .inl heq
      · exact .inr ⟨(isFunc_of_moves hmoves).2.2, e, heq⟩
    case h_2 => exact .inl rfl
  case h_2 => exact .inl rfl

theorem file_movedTable (files : List (File σ κ)) (s : σ) :
    (movedTable tbl files s).file = (tbl s).file := by
  rcases movedTable_eq_or tbl files s with h | ⟨-, e, h⟩ <;> rw [h]
  rfl

theorem agree_movedTable (files : List (File σ κ)) : Agree tbl (movedTable tbl files) where
  type s := by
    rcases movedTable_eq_or tbl files s with h | ⟨-, e, h⟩ <;> rw [h]
    rfl
  sections s htype := by
    rcases movedTable_eq_or tbl files s with h | ⟨hfunc, -⟩
    · exact h
    · exact absurd htype (not_sectionSym hfunc)

theorem movedTable_of_forall_ne (h : ∀ g ∈ files, g.id ≠ (tbl s).file) :
    movedTable tbl files s = tbl s := by
  have hfind : (files.find? fun g => g.id = (tbl s).file) = none :=
    List.find?_eq_none.mpr fun g hg => by simpa using h g hg
  rw [movedTable, hfind]

section Files

variable {all : List (File σ κ)} (hvalid : Valid all tbl) (hf : f ∈ all)

include hvalid

theorem Valid.eq_of_id {g : File σ κ} (hg : g ∈ all) (hf : f ∈ all) (h : g.id = f.id) : g = f :=
  List.inj_on_of_nodup_map hvalid.ids hg hf h

theorem Valid.eq_of_opd {g : File σ κ} {opd' : Section σ κ} (hf : f ∈ all) (hopd : f.opd = some opd)
    (hsec : (tbl s).inputSection = some opd.id) (hg : g ∈ all) (hopd' : g.opd = some opd')
    (hsec' : (tbl s).inputSection = some opd'.id) : g = f ∧ opd' = opd := by
  obtain rfl := hvalid.eq_of_id hg hf ((hvalid.owned g hg opd' hopd' s hsec').1.symm.trans
    (hvalid.owned f hf opd hopd s hsec).1)
  exact ⟨rfl, Option.some_inj.mp (hopd'.symm.trans hopd)⟩

include hf

theorem movedTable_of_file (hsub : ∀ g ∈ files, g ∈ all) (hmem : f ∈ files)
    (hfile : (tbl s).file = f.id) : movedTable tbl files s =
      match f.opd with
      | some opd => movedBy tbl f.id opd (tbl s)
      | none => tbl s := by
  obtain ⟨g, hg⟩ : ∃ g, (files.find? fun g => g.id = (tbl s).file) = some g :=
    Option.isSome_iff_exists.mp (List.find?_isSome.mpr ⟨f, hmem, by simpa using hfile.symm⟩)
  have hgid : g.id = (tbl s).file := by simpa using List.find?_some hg
  obtain rfl := hvalid.eq_of_id (hsub g (List.mem_of_find?_eq_some hg)) hf (hgid.trans hfile)
  rw [movedTable, hg]

theorem inputSection_movedTable (hopd : f.opd = some opd) (hsub : ∀ g ∈ files, g ∈ all)
    (hmem : f ∈ files) : (movedTable tbl files s).inputSection = some opd.id ↔
      (tbl s).inputSection = some opd.id ∧ (tbl s).isFunc = false := by
  by_cases hfile : (tbl s).file = f.id
  · rw [movedTable_of_file hvalid hf hsub hmem hfile, hopd]
    dsimp only
    cases hmoves : moves f.id opd (tbl s) with
    | true =>
      obtain ⟨e, he⟩ := hvalid.described f hf opd hopd s hmoves
      rw [movedBy, hmoves, if_pos rfl, he]
      refine iff_of_false (hvalid.code f hf opd hopd _ e he f hf opd hopd) fun h => ?_
      exact absurd ((isFunc_of_moves hmoves).2.2.symm.trans h.2) (by decide)
    | false =>
      rw [movedBy_of_not_moves hmoves]
      refine ⟨fun hsec => ⟨hsec, ?_⟩, And.left⟩
      simpa [moves, hfile, hsec] using hmoves
  · have hne : (tbl s).inputSection ≠ some opd.id := fun hsec =>
      hfile (hvalid.owned f hf opd hopd s hsec).1
    refine iff_of_false (fun hsec => ?_) fun h => hne h.1
    by_cases hother : ∃ g ∈ files, g.id = (tbl s).file
    · obtain ⟨g, hg, hid⟩ := hother
      rw [movedTable_of_file hvalid (hsub g hg) hsub hg hid.symm] at hsec
      split at hsec
      case h_1 opd' hopd' =>
        rcases movedBy_eq_or tbl g.id opd' (tbl s) with heq | ⟨hmoves, -⟩
        · exact hne (heq ▸ hsec)
        · obtain ⟨e, he⟩ := hvalid.described g (hsub g hg) opd' hopd' s hmoves
          rw [movedBy, hmoves, if_pos rfl, he] at hsec
          exact hvalid.code g (hsub g hg) opd' hopd' _ e he f hf opd hopd hsec
      case h_2 => exact hne hsec
    · rw [movedTable_of_forall_ne fun g hg hid => hother ⟨g, hg, hid⟩] at hsec
      exact hne hsec

end Files

/-! ## The files after the pass -/

/-- The function symbols of the `.opd` of a file, as they are collected. -/
def ownedSyms (tbl : σ → Symbol κ) (f : File σ κ) (opd : Section σ κ) : List (BitVec 64 × σ) :=
  (f.symbols.filter fun s => moves f.id opd (tbl s)).map fun s => ((tbl s).value, s)

def resolve (tbl : σ → Symbol κ) (f : File σ κ) (opd : Section σ κ) (r : Rel σ) : Option (Rel σ) :=
  if (tbl r.rSym).inputSection = some opd.id ∧ (tbl r.rSym).isFunc = false then
    (getOpdSymAt (ownedSyms tbl f opd) r.rAddend).map fun s => { r with rSym := s, rAddend := 0 }
  else some r

def newFile (tbl : σ → Symbol κ) (f : File σ κ) : Option (File σ κ) :=
  match f.opd with
  | none => some f
  | some opd => (f.sections.mapM (rewriteSection (resolve tbl f opd) opd)).map fun secs =>
    { f with sections := secs }

variable {done : List (File σ κ)}

theorem movedTable_append_of_ne (hfile : (tbl s).file ≠ f.id) :
    movedTable tbl (done ++ [f]) s = movedTable tbl done s := by
  have hne : decide (f.id = (tbl s).file) = false := decide_eq_false fun h => hfile h.symm
  rw [movedTable, movedTable, List.find?_append, List.find?_cons, hne, List.find?_nil,
    Option.or_none]

theorem movedTable_of_not_done (hnew : f.id ∉ done.map File.id)
    (hfile : (tbl s).file = f.id) : movedTable tbl done s = tbl s :=
  movedTable_of_forall_ne fun g hg hid => hnew (List.mem_map.mpr ⟨g, hg, hid.trans hfile⟩)

theorem moves_movedTable (hnew : f.id ∉ done.map File.id) (s : σ) :
    moves f.id opd (movedTable tbl done s) = moves f.id opd (tbl s) := by
  by_cases hfile : (tbl s).file = f.id
  · rw [movedTable_of_not_done hnew hfile]
  · simp only [moves, file_movedTable, hfile, decide_false, Bool.false_and]

theorem movedTable_append_of_opd_none {all done : List (File σ κ)} (hvalid : Valid all tbl)
    (hsub : ∀ g ∈ done ++ [f], g ∈ all) (hnew : f.id ∉ done.map File.id) (hopd : f.opd = none) :
    movedTable tbl (done ++ [f]) = movedTable tbl done := by
  have hmem : f ∈ done ++ [f] := List.mem_append_right _ (List.mem_singleton_self f)
  funext s
  by_cases hfile : (tbl s).file = f.id
  · rw [movedTable_of_file hvalid (hsub f hmem) hsub hmem hfile, hopd,
      movedTable_of_not_done hnew hfile]
  · exact movedTable_append_of_ne hfile

section Pass

variable [DecidableEq σ] {all done : List (File σ κ)} (hvalid : Valid all tbl)

include hvalid

theorem movedTable_append (hsub : ∀ g ∈ done ++ [f], g ∈ all) (hnew : f.id ∉ done.map File.id)
    (hopd : f.opd = some opd) :
    (fun s => if s ∈ f.symbols then movedBy tbl f.id opd (movedTable tbl done s)
      else movedTable tbl done s) = movedTable tbl (done ++ [f]) := by
  have hmem : f ∈ done ++ [f] := List.mem_append_right _ (List.mem_singleton_self f)
  have hf := hsub f hmem
  funext s
  by_cases hfile : (tbl s).file = f.id
  · rw [movedTable_of_file hvalid hf hsub hmem hfile, hopd, movedTable_of_not_done hnew hfile]
    dsimp only
    split
    case isTrue => rfl
    case isFalse hnot =>
      rw [movedBy_of_not_moves]
      by_contra hm
      exact hnot (hvalid.owned f hf opd hopd s
        (isFunc_of_moves ((Bool.not_eq_false _).mp hm)).2.1).2
  · have hno : moves f.id opd (movedTable tbl done s) = false := by
      simp only [moves, file_movedTable, hfile, decide_false, Bool.false_and]
    rw [movedTable_append_of_ne hfile, movedBy_of_not_moves hno, ite_self]

theorem rewriteFile_eq (hsub : ∀ g ∈ done ++ [f], g ∈ all) (hnew : f.id ∉ done.map File.id) :
    rewriteFile (movedTable tbl done) f =
      (newFile tbl f).map fun f' => (movedTable tbl (done ++ [f]), f') := by
  have hmem : f ∈ done ++ [f] := List.mem_append_right _ (List.mem_singleton_self f)
  have hf := hsub f hmem
  cases hopd : f.opd with
  | none =>
    simp only [rewriteFile, newFile, hopd, movedTable_append_of_opd_none hvalid hsub hnew hopd,
      Option.map_some]
  | some opd =>
    have hown (s : σ) (hm : moves f.id opd (tbl s) = true) : movedTable tbl done s = tbl s :=
      movedTable_of_not_done hnew (isFunc_of_moves hm).1
    have hloop := moveSymbols_eq (agree_movedTable done) (hvalid.symbols f hf)
      (fun s _ hm => by
        rw [moves_movedTable hnew] at hm
        rw [hown s hm]
        exact hvalid.described f hf opd hopd s hm) []
    have hsyms : (f.symbols.filter fun s => moves f.id opd (movedTable tbl done s)).map
        (fun s => ((movedTable tbl done s).value, s)) = ownedSyms tbl f opd := by
      simp only [moves_movedTable hnew]
      refine List.map_congr_left fun s hs => ?_
      rw [hown s (List.mem_filter.mp hs).2]
    rw [movedTable_append hvalid hsub hnew hopd, List.nil_append, hsyms] at hloop
    have hresolve : rewriteRel (movedTable tbl (done ++ [f])) opd (ownedSyms tbl f opd) =
        resolve tbl f opd := by
      funext r
      simp only [rewriteRel, resolve, inputSection_movedTable hvalid hf hopd hsub hmem]
    simp only [rewriteFile, newFile, hopd, hloop, Option.bind_some, hresolve, Option.map_map]
    rfl

theorem rewriteOpd_eq {rest : List (File σ κ)} (hall : all = done ++ rest) :
    rewriteOpd rest (movedTable tbl done) =
      (rest.mapM (newFile tbl)).map fun files' => (movedTable tbl all, files') := by
  induction rest generalizing done with
  | nil =>
    rw [List.append_nil] at hall
    rw [rewriteOpd, hall]
    rfl
  | cons f rest ih =>
    have hnew : f.id ∉ done.map File.id := by
      have hids := hvalid.ids
      rw [hall, List.map_append, List.map_cons] at hids
      intro hmem
      exact (List.nodup_append.mp hids).2.2 _ hmem _ List.mem_cons_self rfl
    have hall' := hall.trans (List.append_cons done f rest)
    have hsub : ∀ g ∈ done ++ [f], g ∈ all := fun g hg => hall' ▸ List.mem_append_left _ hg
    rw [rewriteOpd, rewriteFile_eq hvalid hsub hnew, List.mapM_cons]
    cases newFile tbl f with
    | none => rfl
    | some f' =>
      have hrest := ih hall'
      simp only [Option.map_some, Option.bind_some, hrest, Option.bind_eq_bind, Option.map_map,
        Option.pure_def]
      cases rest.mapM (newFile tbl) <;> rfl

end Pass

/-! ## References -/

variable {x : BitVec 64}

theorem mem_of_lookup {α : Type*} {key : α → BitVec 64} {l : List α} {a : α}
    (h : lookup key l x = some a) : a ∈ l ∧ key a = x := by
  obtain ⟨hfind, hkey⟩ := Option.filter_eq_some_iff.mp h
  exact ⟨List.mem_of_find?_eq_some hfind, of_decide_eq_true hkey⟩

theorem exists_lookup {α : Type*} {key : α → BitVec 64} {l : List α}
    (hsorted : l.Pairwise fun a b => (key a).toNat ≤ (key b).toNat) {a : α} (ha : a ∈ l) :
    ∃ b, lookup key l (key a) = some b := by
  induction l with
  | nil => cases ha
  | cons b l ih =>
    obtain ⟨hb, hsorted⟩ := List.pairwise_cons.mp hsorted
    by_cases hle : (key a).toNat ≤ (key b).toNat
    · have hge : (key b).toNat ≤ (key a).toNat := by
        rcases List.mem_cons.mp ha with rfl | ha
        · exact le_rfl
        · exact hb a ha
      have hkey : key b = key a := BitVec.eq_of_toNat_eq (le_antisymm hge hle)
      exact ⟨b, by simp [lookup, hkey]⟩
    · have hne : a ∈ l := by
        rcases List.mem_cons.mp ha with rfl | ha
        · exact absurd le_rfl hle
        · exact ha
      obtain ⟨c, hc⟩ := ih hsorted hne
      refine ⟨c, ?_⟩
      rwa [lookup, List.find?_cons_of_neg (by simpa using hle)]

theorem mem_of_getOpdSymAt {syms : List (BitVec 64 × σ)}
    (h : getOpdSymAt syms x = some s) : (x, s) ∈ syms := by
  obtain ⟨⟨y, t⟩, hlookup, rfl⟩ := Option.map_eq_some_iff.mp h
  obtain ⟨hmem, rfl⟩ := mem_of_lookup hlookup
  exact List.mem_mergeSort.mp hmem

theorem exists_getOpdSymAt {syms : List (BitVec 64 × σ)} (h : (x, s) ∈ syms) :
    ∃ t, getOpdSymAt syms x = some t := by
  have hsorted := pairwise_mergeSort_key (fun p : BitVec 64 × σ => p.1.toNat) syms
  have hfound : ∃ p, lookup Prod.fst (syms.mergeSort _) x = some p :=
    exists_lookup hsorted (List.mem_mergeSort.mpr h)
  obtain ⟨p, hp⟩ := hfound
  exact ⟨p.2, Option.map_eq_some_iff.mpr ⟨p, hp, rfl⟩⟩

theorem mem_ownedSyms : (x, s) ∈ ownedSyms tbl f opd ↔
    s ∈ f.symbols ∧ moves f.id opd (tbl s) = true ∧ (tbl s).value = x := by
  simp only [ownedSyms, List.mem_map, List.mem_filter, Prod.mk.injEq]
  constructor
  · rintro ⟨t, ⟨ht, hmoves⟩, hvalue, rfl⟩
    exact ⟨ht, hmoves, hvalue⟩
  · rintro ⟨hs, hmoves, hvalue⟩
    exact ⟨s, ⟨hs, hmoves⟩, hvalue, rfl⟩

/-- The condition for a relocation of a file.  A reference by a function symbol is at the same
distance from both entry points.  Another reference is to the file's own `.opd`, and at its
addend there is a function symbol that the file owns, which has the right entry point. -/
def RefOk (files : List (File σ κ)) (tbl : σ → Symbol κ) (f : File σ κ) (r : Rel σ) : Prop :=
  ∀ g ∈ files, ∀ opd, g.opd = some opd → (tbl r.rSym).inputSection = some opd.id →
    if (tbl r.rSym).isFunc then
      ∃ e, entry tbl opd (tbl r.rSym).value = some e ∧
        entry tbl opd ((tbl r.rSym).value + r.rAddend) = some (e.1, e.2 + r.rAddend)
    else
      g.id = f.id ∧ (∃ s ∈ f.symbols, moves f.id opd (tbl s) = true ∧ (tbl s).value = r.rAddend) ∧
        entry tbl opd r.rAddend = entry tbl opd ((tbl r.rSym).value + r.rAddend)

def resolveIn (tbl : σ → Symbol κ) (f : File σ κ) (r : Rel σ) : Option (Rel σ) :=
  match f.opd with
  | none => some r
  | some opd => resolve tbl f opd r

section References

variable {all : List (File σ κ)} (hvalid : Valid all tbl) (hf : f ∈ all)

include hvalid hf

theorem movedTable_of_moves (hopd : f.opd = some opd) (hmoves : moves f.id opd (tbl s) = true) :
    ∃ e, entry tbl opd (tbl s).value = some e ∧ movedTable tbl all s = (tbl s).moveTo e := by
  obtain ⟨e, he⟩ := hvalid.described f hf opd hopd s hmoves
  refine ⟨e, he, ?_⟩
  rw [movedTable_of_file hvalid hf (fun _ => id) hf (isFunc_of_moves hmoves).1, hopd]
  dsimp only
  rw [movedBy, hmoves, if_pos rfl, he]

theorem relOk_self_iff {r : Rel σ} (hself : resolveIn tbl f r = some r)
    (hin : (tbl r.rSym).isFunc = false → ∀ opd, f.opd = some opd →
      (tbl r.rSym).inputSection ≠ some opd.id) :
    RelOk all tbl (movedTable tbl all) r r ↔ RefOk all tbl f r := by
  refine forall₂_congr fun g hg => forall₃_congr fun opd hopd hsec => ?_
  cases hfunc : (tbl r.rSym).isFunc with
  | true =>
    rw [if_pos rfl]
    have hmoves : moves g.id opd (tbl r.rSym) = true := by
      simp [moves, hsec, hfunc, (hvalid.owned g hg opd hopd _ hsec).1]
    obtain ⟨e, he, hmoved⟩ := movedTable_of_moves hvalid hg hopd hmoves
    rw [hmoved, he]
    exact ⟨fun h => ⟨e, rfl, h⟩, fun ⟨e', he', h⟩ => Option.some_inj.mp he' ▸ h⟩
  | false =>
    rw [if_neg Bool.false_ne_true]
    refine iff_of_false (fun h => ?_) fun h => ?_
    · exact hvalid.code g hg opd hopd _ _ h g hg opd hopd
        ((inputSection_movedTable hvalid hg hopd (fun _ => id) hg).mpr ⟨hsec, hfunc⟩)
    · obtain rfl := hvalid.eq_of_id hg hf h.1
      exact hin hfunc opd hopd hsec

theorem refOk_iff_of_opd {r : Rel σ} (hopd : f.opd = some opd)
    (hsec : (tbl r.rSym).inputSection = some opd.id) (hfunc : (tbl r.rSym).isFunc = false) :
    RefOk all tbl f r ↔
      (∃ s ∈ f.symbols, moves f.id opd (tbl s) = true ∧ (tbl s).value = r.rAddend) ∧
        entry tbl opd r.rAddend = entry tbl opd ((tbl r.rSym).value + r.rAddend) := by
  constructor
  · intro h
    have href := h f hf opd hopd hsec
    rw [hfunc, if_neg Bool.false_ne_true] at href
    exact href.2
  · intro h g hg opd' hopd' hsec'
    obtain ⟨rfl, rfl⟩ := hvalid.eq_of_opd hf hopd hsec hg hopd' hsec'
    rw [hfunc, if_neg Bool.false_ne_true]
    exact ⟨rfl, h⟩

theorem relOk_iff_of_opd {r r' : Rel σ} (hopd : f.opd = some opd)
    (hsec : (tbl r.rSym).inputSection = some opd.id) (hs : s ∈ f.symbols)
    (hmoves : moves f.id opd (tbl s) = true) (hr' : r' = { r with rSym := s, rAddend := 0 }) :
    RelOk all tbl (movedTable tbl all) r r' ↔
      entry tbl opd (tbl s).value = entry tbl opd ((tbl r.rSym).value + r.rAddend) := by
  obtain ⟨e, he, hmoved⟩ := movedTable_of_moves hvalid hf hopd hmoves
  have hplace : ((movedTable tbl all r'.rSym).inputSection,
      (movedTable tbl all r'.rSym).value + r'.rAddend) = e := by
    rw [hr', hmoved]
    exact Prod.ext rfl (BitVec.add_zero _)
  rw [he]
  constructor
  · intro hok
    rw [hok f hf opd hopd hsec, hplace]
  · intro h g hg opd' hopd' hsec'
    obtain ⟨rfl, rfl⟩ := hvalid.eq_of_opd hf hopd hsec hg hopd' hsec'
    rw [hplace, h]

theorem exists_resolveIn_iff (r : Rel σ) :
    (∃ r', resolveIn tbl f r = some r' ∧ RelOk all tbl (movedTable tbl all) r r') ↔
      RefOk all tbl f r := by
  by_cases hin : ∃ opd, f.opd = some opd ∧ (tbl r.rSym).inputSection = some opd.id ∧
      (tbl r.rSym).isFunc = false
  · obtain ⟨opd, hopd, hsec, hfunc⟩ := hin
    have hresolve : resolveIn tbl f r = (getOpdSymAt (ownedSyms tbl f opd) r.rAddend).map
        fun s => { r with rSym := s, rAddend := 0 } := by
      simp only [resolveIn, hopd, resolve, hsec, hfunc, and_self, if_true]
    rw [hresolve, refOk_iff_of_opd hvalid hf hopd hsec hfunc]
    constructor
    · rintro ⟨r', hr', hok⟩
      obtain ⟨s, hs, rfl⟩ := Option.map_eq_some_iff.mp hr'
      obtain ⟨hmem, hmoves, hvalue⟩ := mem_ownedSyms.mp (mem_of_getOpdSymAt hs)
      exact ⟨⟨s, hmem, hmoves, hvalue⟩,
        hvalue ▸ (relOk_iff_of_opd hvalid hf hopd hsec hmem hmoves rfl).mp hok⟩
    · rintro ⟨⟨t, ht, hmoves, hvalue⟩, hentry⟩
      obtain ⟨s, hs⟩ := exists_getOpdSymAt (mem_ownedSyms.mpr ⟨ht, hmoves, hvalue⟩)
      obtain ⟨hmem, hmoves', hvalue'⟩ := mem_ownedSyms.mp (mem_of_getOpdSymAt hs)
      exact ⟨_, Option.map_eq_some_iff.mpr ⟨s, hs, rfl⟩,
        (relOk_iff_of_opd hvalid hf hopd hsec hmem hmoves' rfl).mpr (hvalue'.symm ▸ hentry)⟩
  · have hself : resolveIn tbl f r = some r := by
      cases hopd : f.opd with
      | none => simp only [resolveIn, hopd]
      | some opd =>
        simp only [resolveIn, hopd, resolve]
        exact if_neg fun h => hin ⟨opd, hopd, h⟩
    rw [← relOk_self_iff hvalid hf hself fun hfunc opd hopd hsec => hin ⟨opd, hopd, hsec, hfunc⟩,
      hself]
    exact ⟨fun ⟨r', hr', hok⟩ => Option.some_inj.mp hr' ▸ hok, fun hok => ⟨r, rfl, hok⟩⟩

end References

section Condition

variable {all : List (File σ κ)} (hvalid : Valid all tbl)

include hvalid

theorem exists_rewriteSection_iff (hf : f ∈ all) (hopd : f.opd = some opd) (isec : Section σ κ) :
    (∃ isec', rewriteSection (resolve tbl f opd) opd isec = some isec' ∧ (f.rewrites isec →
      List.Forall₂ (RelOk all tbl (movedTable tbl all)) isec.rels isec'.rels)) ↔
        (f.rewrites isec → ∀ r ∈ isec.rels, RefOk all tbl f r) := by
  have hrewrites : f.rewrites isec ↔ isec.isAlive = true ∧ isec.id ≠ opd.id := by
    simp [File.rewrites, hopd]
  rw [rewriteSection, hrewrites]
  by_cases hid : isec.id = opd.id
  · simp [hid]
  · cases halive : isec.isAlive with
    | false => simp [hid]
    | true =>
      simp only [hid, if_false, if_true, ne_eq, not_false_eq_true, and_self, forall_const]
      have hresolve : resolve tbl f opd = resolveIn tbl f := by
        funext r
        simp only [resolveIn, hopd]
      rw [hresolve, ← forall₂_congr fun r (_ : r ∈ isec.rels) =>
        exists_resolveIn_iff hvalid hf r, ← exists_mapM_forall₂_iff]
      constructor
      · rintro ⟨isec', h, hrel⟩
        obtain ⟨rels, hrels, rfl⟩ := Option.map_eq_some_iff.mp h
        exact ⟨rels, hrels, hrel⟩
      · rintro ⟨rels, hrels, hrel⟩
        exact ⟨_, Option.map_eq_some_iff.mpr ⟨rels, hrels, rfl⟩, hrel⟩

theorem exists_newFile_iff (hf : f ∈ all) :
    (∃ f', newFile tbl f = some f' ∧ List.Forall₂ (fun isec isec' => f.rewrites isec →
      List.Forall₂ (RelOk all tbl (movedTable tbl all)) isec.rels isec'.rels)
        f.sections f'.sections) ↔
      ∀ isec ∈ f.sections, f.rewrites isec → ∀ r ∈ isec.rels, RefOk all tbl f r := by
  cases hopd : f.opd with
  | none =>
    have hself (r : Rel σ) : RelOk all tbl (movedTable tbl all) r r ↔ RefOk all tbl f r := by
      refine relOk_self_iff hvalid hf (by simp only [resolveIn, hopd]) fun _ opd h => ?_
      cases hopd.symm.trans h
    simp only [newFile, hopd, Option.some.injEq, exists_eq_left', List.forall₂_same, hself]
  | some opd =>
    rw [← forall₂_congr fun isec (_ : isec ∈ f.sections) =>
      exists_rewriteSection_iff hvalid hf hopd isec, ← exists_mapM_forall₂_iff]
    simp only [newFile, hopd]
    constructor
    · rintro ⟨f', h, hrel⟩
      obtain ⟨secs, hsecs, rfl⟩ := Option.map_eq_some_iff.mp h
      exact ⟨secs, hsecs, hrel⟩
    · rintro ⟨secs, hsecs, hrel⟩
      exact ⟨_, Option.map_eq_some_iff.mpr ⟨secs, hsecs, rfl⟩, hrel⟩

omit hvalid

theorem filter_map_eq_singleton_iff {α β : Type*} [DecidableEq α] {l : List σ} (hnodup : l.Nodup)
    (hs : s ∈ l) (g : σ → α) (c : β) :
    ((l.map fun t => (g t, c)).filter fun e => decide (e.1 = g s)) = [(g s, c)] ↔
      ∀ t ∈ l, g t = g s → t = s := by
  have hmem (t : σ) : t ∈ l.filter (fun t => decide (g t = g s)) ↔ t ∈ l ∧ g t = g s := by
    rw [List.mem_filter, decide_eq_true_eq]
  rw [List.filter_map]
  change (l.filter fun t => decide (g t = g s)).map _ = _ ↔ _
  constructor
  · intro h t ht heq
    obtain ⟨x, hx⟩ := List.length_eq_one_iff.mp ((List.length_map _).symm.trans
      (congrArg List.length h))
    have hsx := (hmem s).mpr ⟨hs, rfl⟩
    have htx := (hmem t).mpr ⟨ht, heq⟩
    rw [hx, List.mem_singleton] at hsx htx
    exact htx.trans hsx.symm
  · intro h
    have hfilter : l.filter (fun t => decide (g t = g s)) = [s] := by
      refine List.perm_singleton.mp ((List.perm_ext_iff_of_nodup (hnodup.filter _)
        (List.nodup_singleton s)).mpr fun t => ?_)
      rw [hmem, List.mem_singleton]
      refine ⟨fun ht => h t ht.1 ht.2, ?_⟩
      rintro rfl
      exact ⟨hs, rfl⟩
    rw [hfilter]
    rfl

/-- A relocation of a section in the output refers to a symbol, once references to `.opd` are
resolved. -/
def References (all : List (File σ κ)) (tbl : σ → Symbol κ) (s : σ) (p : RelType → Bool) : Prop :=
  ∃ f ∈ all, ∃ isec ∈ f.sections, f.rewrites isec ∧ isec.isAlloc = true ∧ ∃ r ∈ isec.rels,
    (resolveIn tbl f r).map Rel.rSym = some s ∧ r.rType ≠ .none ∧ p r.rType = true

def Owned (all : List (File σ κ)) (tbl : σ → Symbol κ) (s : σ) : Prop :=
  ∃ f ∈ all, (tbl s).file = f.id ∧ s ∈ f.symbols

def AddressTaken (marked : List σ) (all : List (File σ κ)) (tbl : σ → Symbol κ) (s : σ) : Prop :=
  Owned all tbl s ∧ (tbl s).isFunc = true ∧ (tbl s).isImported = false ∧
    (References all tbl s RelType.takesAddr ∨ (tbl s).isExported = true ∨ s ∈ marked)

def Described (marked : List σ) (all : List (File σ κ)) (tbl : σ → Symbol κ) (s : σ) : Prop :=
  Owned all tbl s ∧
    ((tbl s).type = .gnuIfunc ∧ References all tbl s (fun _ => true) ∨
      (tbl s).type = .func ∧ References all tbl s RelType.takesAddr ∨
      (tbl s).isExported = true ∧ (tbl s).isFunc = true ∨
      s ∈ marked ∧ (tbl s).isImported = false)

theorem resolve_eq_some {r r' : Rel σ} (h : resolve tbl f opd r = some r') :
    r'.rType = r.rType := by
  rw [resolve] at h
  split at h
  case isTrue =>
    obtain ⟨s, -, rfl⟩ := Option.map_eq_some_iff.mp h
    rfl
  case isFalse => rw [Option.some_inj.mp h]

theorem newFile_eq_some {f' : File σ κ} (h : newFile tbl f = some f') :
    f'.id = f.id ∧ f'.symbols = f.symbols := by
  rw [newFile] at h
  split at h
  case h_1 => exact Option.some_inj.mp h ▸ ⟨rfl, rfl⟩
  case h_2 =>
    obtain ⟨secs, -, rfl⟩ := Option.map_eq_some_iff.mp h
    exact ⟨rfl, rfl⟩

variable {files' : List (File σ κ)}

theorem owned_iff (h : all.mapM (newFile tbl) = some files') (s : σ) :
    (∃ f ∈ files', (movedTable tbl all s).file = f.id ∧ s ∈ f.symbols) ↔ Owned all tbl s :=
  exists_mem_of_mapM h fun f _ f' hf' => by
    rw [file_movedTable, (newFile_eq_some hf').1, (newFile_eq_some hf').2]

theorem movedTable_keeps (tbl : σ → Symbol κ) (all : List (File σ κ)) (s : σ) :
    (movedTable tbl all s).type = (tbl s).type ∧
      (movedTable tbl all s).isExported = (tbl s).isExported ∧
      (movedTable tbl all s).isImported = (tbl s).isImported := by
  rcases movedTable_eq_or tbl all s with h | ⟨-, e, h⟩ <;> rw [h]
  · exact ⟨rfl, rfl, rfl⟩
  · exact ⟨rfl, rfl, rfl⟩

theorem isFunc_movedTable (all : List (File σ κ)) (s : σ) :
    (movedTable tbl all s).isFunc = (tbl s).isFunc := by
  rw [Symbol.isFunc, Symbol.isFunc, (movedTable_keeps tbl all s).1]

variable {marked : List σ}

theorem AddressTaken.described (h : AddressTaken marked all tbl s) :
    Described marked all tbl s := by
  obtain ⟨howned, hfunc, himported, htaken⟩ := h
  refine ⟨howned, ?_⟩
  rcases htaken with hrefs | hexported | hmarked
  · have htype := hfunc
    simp only [Symbol.isFunc, Bool.or_eq_true, beq_iff_eq] at htype
    rcases htype with htype | htype
    · exact .inr (.inl ⟨htype, hrefs⟩)
    · obtain ⟨f, hf, isec, hisec, hrewrites, halloc, r, hr, hsym, hnone, -⟩ := hrefs
      exact .inl ⟨htype, f, hf, isec, hisec, hrewrites, halloc, r, hr, hsym, hnone, rfl⟩
  · exact .inr (.inr (.inl ⟨hexported, hfunc⟩))
  · exact .inr (.inr (.inr ⟨hmarked, himported⟩))

/-- The condition under which the pass and the output are right: every reference is, and no other
symbol with a descriptor has the address of a function whose address is in the output. -/
def Meets (secAddr : κ → BitVec 64) (marked : List σ) (all : List (File σ κ))
    (tbl : σ → Symbol κ) : Prop :=
  (∀ f ∈ all, ∀ isec ∈ f.sections, f.rewrites isec → ∀ r ∈ isec.rels, RefOk all tbl f r) ∧
    ∀ s, AddressTaken marked all tbl s → ∀ t, Described marked all tbl t →
      codeAddr secAddr (movedTable tbl all t) = codeAddr secAddr (movedTable tbl all s) → t = s

variable [DecidableEq σ]

theorem section_refers_iff (hopd : f.opd = some opd) {isec isec' : Section σ κ}
    (h : rewriteSection (resolve tbl f opd) opd isec = some isec') (p : RelType → Bool) :
    ((isec'.isAlive && isec'.isAlloc && isec'.rels.any fun r =>
      r.rType != .none && decide (r.rSym = s) && p r.rType) = true) ↔
      f.rewrites isec ∧ isec.isAlloc = true ∧ ∃ r ∈ isec.rels,
        (resolveIn tbl f r).map Rel.rSym = some s ∧ r.rType ≠ .none ∧ p r.rType = true := by
  have hrewrites : f.rewrites isec ↔ isec.isAlive = true ∧ isec.id ≠ opd.id := by
    simp [File.rewrites, hopd]
  have hresolve (r : Rel σ) : resolveIn tbl f r = resolve tbl f opd r := by
    simp only [resolveIn, hopd]
  rw [rewriteSection] at h
  rw [hrewrites]
  split at h
  case isTrue hid =>
    obtain rfl := Option.some_inj.mp h
    simp [hid]
  case isFalse hid =>
    split at h
    case isTrue halive =>
      obtain ⟨rels, hrels, rfl⟩ := Option.map_eq_some_iff.mp h
      have hany := exists_mem_of_mapM hrels
        (p := fun r => r.rSym = s ∧ r.rType ≠ .none ∧ p r.rType = true)
        (q := fun r => (resolveIn tbl f r).map Rel.rSym = some s ∧ r.rType ≠ .none ∧
          p r.rType = true) fun r _ r' hr => by
        rw [hresolve, hr, resolve_eq_some hr, Option.map_some, Option.some_inj]
      rw [← hany]
      simp [halive, hid, and_assoc, and_left_comm]
    case isFalse halive =>
      obtain rfl := Option.some_inj.mp h
      simp [halive]

theorem file_refers_iff {f' : File σ κ} (h : newFile tbl f = some f') (p : RelType → Bool) :
    ((f'.sections.any fun isec => isec.isAlive && isec.isAlloc && isec.rels.any fun r =>
      r.rType != .none && decide (r.rSym = s) && p r.rType) = true) ↔
      ∃ isec ∈ f.sections, f.rewrites isec ∧ isec.isAlloc = true ∧ ∃ r ∈ isec.rels,
        (resolveIn tbl f r).map Rel.rSym = some s ∧ r.rType ≠ .none ∧ p r.rType = true := by
  rw [List.any_eq_true]
  cases hopd : f.opd with
  | none =>
    simp only [newFile, hopd, Option.some_inj] at h
    obtain rfl := h
    simp [File.rewrites, resolveIn, hopd, and_assoc, and_left_comm]
  | some opd =>
    simp only [newFile, hopd] at h
    obtain ⟨secs, hsecs, rfl⟩ := Option.map_eq_some_iff.mp h
    exact exists_mem_of_mapM hsecs fun isec _ isec' hisec => section_refers_iff hopd hisec p

theorem refers_iff (h : all.mapM (newFile tbl) = some files') (s : σ)
    (p : RelType → Bool) : refers files' s p = true ↔ References all tbl s p := by
  rw [refers, List.any_eq_true]
  exact exists_mem_of_mapM h fun f _ f' hf' => file_refers_iff hf' p

theorem taken_iff (h : all.mapM (newFile tbl) = some files') (s : σ) :
    Taken marked files' (movedTable tbl all) s ↔ AddressTaken marked all tbl s := by
  obtain ⟨-, hexported, himported⟩ := movedTable_keeps tbl all s
  rw [Taken, AddressTaken, owned_iff h, isFunc_movedTable, hexported, himported, refers_iff h]

theorem mem_opdSymbols_iff (h : all.mapM (newFile tbl) = some files') (s : σ) :
    s ∈ opdSymbols marked files' (movedTable tbl all) ↔ Described marked all tbl s := by
  obtain ⟨htype, hexported, himported⟩ := movedTable_keeps tbl all s
  rw [Described, ← owned_iff h, ← refers_iff h, ← refers_iff h]
  simp only [opdSymbols, List.mem_flatMap, List.mem_filter, needsOpd, isFunc_movedTable, htype,
    hexported, himported, Bool.or_eq_true, Bool.and_eq_true, beq_iff_eq, decide_eq_true_eq,
    Bool.not_eq_true', or_assoc]
  constructor
  · rintro ⟨f, hf, hs, hfile, hneeds⟩
    exact ⟨⟨f, hf, hfile, hs⟩, hneeds⟩
  · rintro ⟨⟨f, hf, hfile, hs⟩, hneeds⟩
    exact ⟨f, hf, hs, hfile, hneeds⟩

include hvalid

theorem nodup_opdSymbols (h : all.mapM (newFile tbl) = some files') (tbl' : σ → Symbol κ) :
    (opdSymbols marked files' tbl').Nodup := by
  have hids : (files'.map File.id).Nodup := by
    rw [map_of_mapM_eq_some (fun f f' hnew => (newFile_eq_some hnew).1) h]
    exact hvalid.ids
  refine List.nodup_flatMap.mpr ⟨fun f' hf' => ?_, ?_⟩
  · obtain ⟨f, hf, hnew⟩ := (mem_of_mapM_eq_some h).mp hf'
    rw [(newFile_eq_some hnew).2]
    exact (hvalid.symbols f hf).filter _
  · refine (List.pairwise_map.mp hids).imp fun {f g} hne => ?_
    intro s hs ht
    simp only [List.mem_filter, Bool.and_eq_true, decide_eq_true_eq] at hs ht
    exact hne (hs.2.1.symm.trans ht.2.1)

end Condition

end Tables

section Example

/-- `f` is defined in two files, and the second refers to its own descriptor by the section. -/
inductive ExampleSym where
  | text0
  | f
  | text1
  | opd1
  deriving DecidableEq

open ExampleSym

def exampleSection (id : ℕ) (isOpd : Bool) (rels : List ExampleSym) : Section ExampleSym ℕ :=
  { id := id, isOpd := isOpd, isAlloc := true, isAlive := true,
    rels := rels.map fun s => { rOffset := 0, rType := .other, rSym := s, rAddend := 0 } }

def exampleFile0 : File ExampleSym ℕ :=
  { id := 0, symbols := [text0, f],
    sections := [exampleSection 0 false [], exampleSection 1 true [text0]] }

def exampleFile1 : File ExampleSym ℕ :=
  { id := 1, symbols := [text1, opd1, f],
    sections := [exampleSection 2 false [], exampleSection 3 true [text1],
      exampleSection 4 false [opd1]] }

def exampleSymbol (file sec : ℕ) (type : SymType) : Symbol ℕ :=
  { file := file, inputSection := some sec, value := 0, type := type, isExported := false,
    isImported := false }

/-- The symbols, where the second file owns `f` or not. -/
def exampleTbl (own : Bool) : ExampleSym → Symbol ℕ
  | text0 => exampleSymbol 0 0 .sectionSym
  | f => if own then exampleSymbol 1 3 .func else exampleSymbol 0 1 .func
  | text1 => exampleSymbol 1 2 .sectionSym
  | opd1 => exampleSymbol 1 3 .sectionSym

variable {g : File ExampleSym ℕ}

theorem opd_example (hg : g ∈ [exampleFile0, exampleFile1])
    {opd : Section ExampleSym ℕ} (hopd : g.opd = some opd) :
    g = exampleFile0 ∧ opd = exampleSection 1 true [text0] ∨
      g = exampleFile1 ∧ opd = exampleSection 3 true [text1] := by
  rcases List.mem_pair.mp hg with rfl | rfl
  · exact .inl ⟨rfl, (Option.some_inj.mp hopd).symm⟩
  · exact .inr ⟨rfl, (Option.some_inj.mp hopd).symm⟩

theorem entry_example (own : Bool) (hg : g ∈ [exampleFile0, exampleFile1])
    {opd : Section ExampleSym ℕ} (hopd : g.opd = some opd) :
    ∃ e, entry (exampleTbl own) opd 0 = some e := by
  rcases opd_example hg hopd with ⟨-, rfl⟩ | ⟨-, rfl⟩ <;> exact ⟨_, rfl⟩

theorem value_example (own : Bool) (s : ExampleSym) : (exampleTbl own s).value = 0 := by
  cases s <;> cases own <;> rfl

theorem addend_example (hg : g ∈ [exampleFile0, exampleFile1])
    {isec : Section ExampleSym ℕ} (hisec : isec ∈ g.sections) {r : Rel ExampleSym}
    (hr : r ∈ isec.rels) : r.rAddend = 0 := by
  have hsec : ∃ id isOpd rels, isec = exampleSection id isOpd rels := by
    rcases List.mem_pair.mp hg with rfl | rfl <;>
      simp only [exampleFile0, exampleFile1, List.mem_cons, List.not_mem_nil, or_false] at hisec
    · rcases hisec with rfl | rfl <;> exact ⟨_, _, _, rfl⟩
    · rcases hisec with rfl | rfl | rfl <;> exact ⟨_, _, _, rfl⟩
  obtain ⟨id, isOpd, rels, rfl⟩ := hsec
  obtain ⟨s, -, rfl⟩ := List.mem_map.mp hr
  rfl

theorem valid_example (own : Bool) : Valid [exampleFile0, exampleFile1] (exampleTbl own) where
  ids := by decide
  symbols := by decide
  sorted g hg opd hopd := by
    rcases opd_example hg hopd with ⟨-, rfl⟩ | ⟨-, rfl⟩ <;> exact List.pairwise_singleton _ _
  owned g hg opd hopd s hs := by
    rcases opd_example hg hopd with ⟨rfl, rfl⟩ | ⟨rfl, rfl⟩ <;> cases s <;> cases own <;>
      revert hs <;> decide
  described g hg opd hopd s _ := by
    rw [value_example]
    exact entry_example own hg hopd
  code g hg opd hopd offset e he g' hg' opd' hopd' := by
    obtain ⟨rel, hrel, he⟩ := Option.bind_eq_some_iff.mp he
    have hmem := (mem_of_lookup hrel).1
    have hopd'' := opd_example hg' hopd'
    rcases opd_example hg hopd with ⟨-, rfl⟩ | ⟨-, rfl⟩ <;>
      obtain rfl := List.mem_singleton.mp hmem <;>
      obtain rfl := Option.some_inj.mp he <;>
      rcases hopd'' with ⟨-, rfl⟩ | ⟨-, rfl⟩ <;>
      simp [exampleTbl, exampleSymbol, exampleSection]
  designates g hg isec hisec halive r hr g' hg' opd hopd hs := by
    rw [value_example, addend_example hg hisec hr]
    exact entry_example own hg' hopd

theorem eq_f_of_isFunc {s : ExampleSym} (h : (exampleTbl true s).isFunc = true) : s = f := by
  cases s <;> first | rfl | exact absurd h (by decide)

theorem refOk_example : RefOk [exampleFile0, exampleFile1] (exampleTbl true) exampleFile1
    { rOffset := 0, rType := .other, rSym := opd1, rAddend := 0 } := by
  intro g hg opd hopd hsec
  rcases opd_example hg hopd with ⟨-, rfl⟩ | ⟨rfl, rfl⟩
  · exact absurd hsec (by decide)
  · exact ⟨rfl, ⟨f, by decide, by decide, rfl⟩, rfl⟩

theorem meets_example (secAddr : ℕ → BitVec 64) :
    Meets secAddr [] [exampleFile0, exampleFile1] (exampleTbl true) := by
  refine ⟨fun file hfile isec hisec hrewrites r hr => ?_, fun s hs t ht _ => ?_⟩
  · rcases List.mem_pair.mp hfile with rfl | rfl <;>
      simp only [exampleFile0, exampleFile1, List.mem_cons, List.not_mem_nil, or_false] at hisec
    · rcases hisec with rfl | rfl
      · exact absurd hr List.not_mem_nil
      · exact absurd rfl (hrewrites.2 _ rfl)
    · rcases hisec with rfl | rfl | rfl
      · exact absurd hr List.not_mem_nil
      · exact absurd rfl (hrewrites.2 _ rfl)
      · obtain rfl := List.mem_singleton.mp hr
        exact refOk_example
  · have hfunc : (exampleTbl true t).isFunc = true := by
      rcases ht.2 with ⟨h, -⟩ | ⟨h, -⟩ | ⟨-, h⟩ | ⟨h, -⟩
      · rw [Symbol.isFunc, h]
        rfl
      · rw [Symbol.isFunc, h]
        rfl
      · exact h
      · exact absurd h List.not_mem_nil
    rw [eq_f_of_isFunc hfunc, eq_f_of_isFunc hs.2.1]

theorem newFile_example : newFile (exampleTbl false) exampleFile1 = none := by
  have hsyms : ownedSyms (exampleTbl false) exampleFile1 (exampleSection 3 true [text1]) = [] := rfl
  have hrel (r : Rel ExampleSym) (hsym : r.rSym = opd1) :
      resolve (exampleTbl false) exampleFile1 (exampleSection 3 true [text1]) r = none := by
    rw [resolve, hsyms, hsym, if_pos ⟨rfl, rfl⟩, getOpdSymAt, List.mergeSort_nil]
    rfl
  have hsec : rewriteSection
      (resolve (exampleTbl false) exampleFile1 (exampleSection 3 true [text1]))
      (exampleSection 3 true [text1]) (exampleSection 4 false [opd1]) = none := by
    rw [rewriteSection, if_neg (by decide), if_pos (by rfl), exampleSection, List.map_singleton,
      List.mapM_cons, hrel _ rfl]
    rfl
  change Option.map _ (List.mapM _ [_, _, _]) = none
  rw [List.mapM_cons, List.mapM_cons, List.mapM_cons, hsec]
  rfl

end Example

end Mold.Elf.Ppc64Opd
