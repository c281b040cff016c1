import Mold.Lib.Takeover
import Mold.MachO.Resolution
import Mathlib.Data.Prod.Lex
import Mathlib.Data.List.Perm.Basic

/-!
# The order of the dylib resolution calls

The dylibs of a link resolve their exports in parallel, so the calls of
`DylibFile::resolve_symbols` are serialised in an arbitrary order.  This file
compares what one such round leaves behind with the priority list documented
above `get_rank`: strong and weak object definitions, strong exports, weak
exports, common symbols, ties broken by file priority.

The pass bids for every export as if it were strong, but once a weak export
has taken a symbol over it defends it with the rank of a weak one.  Seen at one
symbol, a round is a takeover fold in the sense of `Mold.Lib.Takeover`, and the
order is immaterial exactly when the exporter with the least priority settles
the symbol.
-/

namespace Mold.MachO

open Mold.Lib

variable {ν : Type*}

/-- A round of dylib resolution: the dylibs have distinct priorities, and
before the round symbols are owned by object files only. -/
structure DylibRound (ν : Type*) where
  files : Files ν
  isAlive : FileRef → Bool
  syms : ν → Symbol ℕ
  dylibs : List ℕ
  distinctPriorities : (dylibs.map fun d => (files.dylib d).priority).Nodup
  ownedByObjects : ∀ x d, (syms x).file ≠ some (.dylib d)

def Symbol.outcome (sym : Symbol ℕ) : Option FileRef × Bool × Bool :=
  (sym.file, sym.isWeak, sym.isTlv)

namespace DylibRound

variable [DecidableEq ν] (R : DylibRound ν)

/-- The dylibs that export `x`. -/
def exporters (x : ν) : List ℕ :=
  R.dylibs.filter fun d => (R.files.exportFlags d x).isSome

/-- The record of `x` when it is held by the initial owner (`none`) or by a
dylib that took it over. -/
def symbolOf (x : ν) : Option ℕ → Symbol ℕ
  | none => R.syms x
  | some d =>
    match R.files.exportFlags d x with
    | none => R.syms x
    | some flags => claimForDylib R.files d flags (R.syms x)

def bid : Option ℕ → ℕ
  | none => 0
  | some d => getRank R.files R.isAlive (.dylib d) false false

/-- The rank with which a holder of `x` keeps it. -/
def value (x : ν) (holder : Option ℕ) : ℕ :=
  getSymbolRank R.files R.isAlive (R.symbolOf x holder)

/-- The place of a definition of `x` in the documented priority list: its
class, then the priority of its file. -/
def documentedRank (x : ν) (holder : Option ℕ) : ℕ ×ₗ ℕ :=
  let sym := R.symbolOf x holder
  match sym.file with
  | none => toLex (unclaimedRank, 0)
  | some file =>
    toLex (symRank (R.isAlive file) file.isDylib sym.isCommon sym.isWeak, R.files.priority file)

/-- The definition of `x` that is least in the documented priority list. -/
def documentedOwner (x : ν) : Option ℕ :=
  ((none :: (R.exporters x).map some).argmin (R.documentedRank x)).getD none

/-- Every order of the calls leaves every symbol with the same owner, weakness
and TLS flag, namely those of the least definition. -/
def OrderIndependent : Prop :=
  (∀ l₁ l₂ : List ℕ, l₁.Perm R.dylibs → l₂.Perm R.dylibs → ∀ x,
      (resolveDylibs R.files R.isAlive l₁ R.syms x).outcome =
        (resolveDylibs R.files R.isAlive l₂ R.syms x).outcome) ∧
    ∀ l : List ℕ, l.Perm R.dylibs → ∀ x,
      (resolveDylibs R.files R.isAlive l R.syms x).outcome =
        (R.symbolOf x (R.documentedOwner x)).outcome

/-- The exporter `m` of `x` with the least priority settles the symbol: either
no bid reaches the initial owner and that one is documented to keep `x`, or
`m` outbids the initial owner, is documented to own `x`, and no other export
outbids it afterwards. -/
def TakeoverSettles (x : ν) : Prop :=
  ∀ m ∈ R.exporters x,
    (∀ d ∈ R.exporters x, (R.files.dylib m).priority ≤ (R.files.dylib d).priority) →
    (R.value x none ≤ R.bid (some m) ∧ R.documentedOwner x = none) ∨
      (R.bid (some m) < R.value x none ∧ R.documentedOwner x = some m ∧
        ∀ d ∈ R.exporters x, d ≠ m → R.value x (some m) ≤ R.bid (some d))

/-! ## A round as a takeover fold -/

variable {R} {x : ν} {d : ℕ}

theorem mem_exporters : d ∈ R.exporters x ↔ d ∈ R.dylibs ∧ (R.files.exportFlags d x).isSome := by
  simp [exporters]

theorem filter_singleton_exporter (hd : d ∈ R.exporters x) :
    [d].filter (fun d => (R.files.exportFlags d x).isSome) = [d] := by
  simp [(mem_exporters.mp hd).2]

theorem symbolOf_some (hd : d ∈ R.exporters x) :
    ∃ flags, R.files.exportFlags d x = some flags ∧
      R.symbolOf x (some d) = claimForDylib R.files d flags (R.syms x) := by
  obtain ⟨flags, hflags⟩ := Option.isSome_iff_exists.mp (mem_exporters.mp hd).2
  exact ⟨flags, hflags, by simp [symbolOf, hflags]⟩

theorem symbolOf_file (hd : d ∈ R.exporters x) :
    (R.symbolOf x (some d)).file = some (.dylib d) := by
  obtain ⟨flags, -, heq⟩ := symbolOf_some hd
  simp [heq, claimForDylib]

theorem claimForDylib_symbolOf (x : ν) (holder : Option ℕ) (d flags : ℕ) :
    claimForDylib R.files d flags (R.symbolOf x holder) =
      claimForDylib R.files d flags (R.syms x) := by
  cases holder with
  | none => rfl
  | some d' =>
    simp only [symbolOf]
    cases R.files.exportFlags d' x <;> rfl

theorem resolveExportOf_symbolOf (x : ν) (holder : Option ℕ) (d : ℕ) :
    resolveExportOf R.files R.isAlive x (R.symbolOf x holder) d =
      R.symbolOf x
        (if (R.files.exportFlags d x).isSome
          then takeover R.bid (R.value x) holder (some d) else holder) := by
  cases hflags : R.files.exportFlags d x with
  | none => simp [resolveExportOf, hflags]
  | some flags =>
    have htaken : R.symbolOf x (some d) = claimForDylib R.files d flags (R.syms x) := by
      simp [symbolOf, hflags]
    rw [resolveExportOf, hflags, Option.isSome_some, if_pos rfl, takeover]
    by_cases hbid : R.bid (some d) < R.value x holder
    · rw [if_pos hbid, htaken, ← claimForDylib_symbolOf x holder]
      exact if_pos hbid
    · rw [if_neg hbid]
      exact if_neg hbid

theorem foldl_resolveExportOf (x : ν) (l : List ℕ) (holder : Option ℕ) :
    l.foldl (resolveExportOf R.files R.isAlive x) (R.symbolOf x holder) =
      R.symbolOf x (takeovers R.bid (R.value x) holder
        ((l.filter fun d => (R.files.exportFlags d x).isSome).map some)) := by
  induction l generalizing holder with
  | nil => rfl
  | cons d l ih =>
    rw [List.foldl_cons, resolveExportOf_symbolOf, ih]
    by_cases hd : (R.files.exportFlags d x).isSome
    · simp [hd, takeovers_cons]
    · simp [hd]

theorem resolveDylibs_eq_symbolOf (x : ν) (l : List ℕ) :
    resolveDylibs R.files R.isAlive l R.syms x =
      R.symbolOf x (takeovers R.bid (R.value x) none
        ((l.filter fun d => (R.files.exportFlags d x).isSome).map some)) := by
  rw [resolveDylibs_apply]
  exact foldl_resolveExportOf x l none

/-! ## Bids, values and priorities -/

theorem bid_le_value (hd : d ∈ R.exporters x) : R.bid (some d) ≤ R.value x (some d) := by
  obtain ⟨flags, -, heq⟩ := symbolOf_some hd
  rw [bid, value, heq, getSymbolRank_of_file_some rfl]
  simp only [claimForDylib, getRank_dylib, Bool.false_eq_true, if_false]
  split <;> omega

omit [DecidableEq ν] in
theorem bid_lt_bid {m d : ℕ} (h : (R.files.dylib m).priority < (R.files.dylib d).priority) :
    R.bid (some m) < R.bid (some d) := by
  simp only [bid, getRank_dylib]
  omega

omit [DecidableEq ν] in
theorem bid_le_bid {m d : ℕ} (h : (R.files.dylib m).priority ≤ (R.files.dylib d).priority) :
    R.bid (some m) ≤ R.bid (some d) := by
  simp only [bid, getRank_dylib]
  omega

omit [DecidableEq ν] in
theorem dylibs_nodup : R.dylibs.Nodup :=
  R.distinctPriorities.of_map _

theorem priority_lt {m d : ℕ} (hm : m ∈ R.exporters x) (hd : d ∈ R.exporters x) (hne : d ≠ m)
    (hle : (R.files.dylib m).priority ≤ (R.files.dylib d).priority) :
    (R.files.dylib m).priority < (R.files.dylib d).priority := by
  apply lt_of_le_of_ne hle
  intro heq
  exact hne (List.inj_on_of_nodup_map R.distinctPriorities
    (mem_exporters.mp hd).1 (mem_exporters.mp hm).1 heq.symm)

theorem exists_least_exporter (hne : R.exporters x ≠ []) :
    ∃ m ∈ R.exporters x, ∀ d ∈ R.exporters x,
      (R.files.dylib m).priority ≤ (R.files.dylib d).priority := by
  cases hm : (R.exporters x).argmin fun d => (R.files.dylib d).priority with
  | none => exact absurd (List.argmin_eq_none.mp hm) hne
  | some m =>
    refine ⟨m, List.argmin_mem hm, fun d hd => ?_⟩
    exact List.le_of_mem_argmin (f := fun d => (R.files.dylib d).priority) hd hm

theorem documentedOwner_eq_none_or_mem (x : ν) :
    R.documentedOwner x = none ∨ ∃ d ∈ R.exporters x, R.documentedOwner x = some d := by
  rw [documentedOwner]
  cases hleast : (none :: (R.exporters x).map some).argmin (R.documentedRank x) with
  | none => exact Or.inl rfl
  | some holder =>
    have hmem := List.argmin_mem hleast
    rw [List.mem_cons, List.mem_map] at hmem
    rcases hmem with rfl | ⟨d, hd, rfl⟩
    · exact Or.inl rfl
    · exact Or.inr ⟨d, hd, rfl⟩

theorem holder_eq_of_outcome_eq {h₁ h₂ : Option ℕ}
    (hmem₁ : h₁ = none ∨ ∃ d ∈ R.exporters x, h₁ = some d)
    (hmem₂ : h₂ = none ∨ ∃ d ∈ R.exporters x, h₂ = some d)
    (heq : (R.symbolOf x h₁).outcome = (R.symbolOf x h₂).outcome) :
    h₁ = h₂ := by
  have hfile : (R.symbolOf x h₁).file = (R.symbolOf x h₂).file :=
    congrArg Prod.fst heq
  rcases hmem₁ with rfl | ⟨d₁, hd₁, rfl⟩ <;>
    rcases hmem₂ with rfl | ⟨d₂, hd₂, rfl⟩
  · rfl
  · rw [symbolOf_file hd₂] at hfile
    exact absurd hfile (R.ownedByObjects x d₂)
  · rw [symbolOf_file hd₁] at hfile
    exact absurd hfile.symm (R.ownedByObjects x d₁)
  · rw [symbolOf_file hd₁, symbolOf_file hd₂] at hfile
    simpa using hfile

/-! ## Settled symbols -/

variable {l : List ℕ}

theorem mem_exporters_of_perm (hl : l.Perm R.dylibs) :
    d ∈ l.filter (fun d => (R.files.exportFlags d x).isSome) ↔ d ∈ R.exporters x := by
  simp [mem_exporters, hl.mem_iff]

theorem TakeoverSettles.takeovers_eq (hx : R.TakeoverSettles x) (hl : l.Perm R.dylibs) :
    takeovers R.bid (R.value x) none
        ((l.filter fun d => (R.files.exportFlags d x).isSome).map some) =
      R.documentedOwner x := by
  by_cases hempty : R.exporters x = []
  · have hfilter : l.filter (fun d => (R.files.exportFlags d x).isSome) = [] := by
      rw [List.eq_nil_iff_forall_not_mem]
      intro d hd
      simp [mem_exporters_of_perm hl, hempty] at hd
    rw [hfilter, documentedOwner, hempty]
    simp
  · obtain ⟨m, hm, hleast⟩ := exists_least_exporter hempty
    rcases hx m hm hleast with ⟨hkeep, howner⟩ | ⟨htake, howner, hstay⟩
    · rw [howner]
      apply takeovers_eq_holder
      rintro holder hholder
      obtain ⟨d, hd, rfl⟩ := List.mem_map.mp hholder
      rw [mem_exporters_of_perm hl] at hd
      exact hkeep.trans (bid_le_bid (hleast d hd))
    · rw [howner]
      apply takeovers_eq_of_mem
      · exact List.mem_map_of_mem ((mem_exporters_of_perm hl).mpr hm)
      · exact htake
      · rintro holder hholder hne
        obtain ⟨d, hd, rfl⟩ := List.mem_map.mp hholder
        rw [mem_exporters_of_perm hl] at hd
        have hlt := priority_lt hm hd (by simpa using hne) (hleast d hd)
        exact (bid_lt_bid hlt).trans_le (bid_le_value hd)
      · rintro holder hholder hne
        obtain ⟨d, hd, rfl⟩ := List.mem_map.mp hholder
        rw [mem_exporters_of_perm hl] at hd
        exact hstay d hd (by simpa using hne)

section Exposing

variable {x : ν} {m : ℕ}

theorem takeovers_least_last (hm : m ∈ R.exporters x)
    (hleast : ∀ d ∈ R.exporters x, (R.files.dylib m).priority ≤ (R.files.dylib d).priority)
    (htake : R.bid (some m) < R.value x none)
    (hl : ∀ d ∈ l, d ∈ R.dylibs ∧ d ≠ m) :
    takeovers R.bid (R.value x) none
        (((l ++ [m]).filter
          fun d => (R.files.exportFlags d x).isSome).map some) = some m := by
  rw [List.filter_append, filter_singleton_exporter hm, List.map_append, List.map_singleton]
  apply takeovers_concat_eq htake
  rintro holder hholder
  obtain ⟨d, hd, rfl⟩ := List.mem_map.mp hholder
  obtain ⟨hdl, hdflags⟩ := List.mem_filter.mp hd
  have hdx : d ∈ R.exporters x := mem_exporters.mpr ⟨(hl d hdl).1, hdflags⟩
  have hlt := priority_lt hm hdx (hl d hdl).2 (hleast d hdx)
  exact (bid_lt_bid hlt).trans_le (bid_le_value hdx)

theorem erase_concat_perm (hm : m ∈ R.exporters x) : (R.dylibs.erase m ++ [m]).Perm R.dylibs :=
  (List.perm_append_singleton m _).trans (List.perm_cons_erase (mem_exporters.mp hm).1).symm

omit [DecidableEq ν] in
theorem mem_erase_exporter (hd : d ∈ R.dylibs.erase m) : d ∈ R.dylibs ∧ d ≠ m :=
  ⟨List.mem_of_mem_erase hd, (dylibs_nodup.mem_erase_iff.mp hd).1⟩

theorem OrderIndependent.documentedOwner_eq (hR : R.OrderIndependent) (hm : m ∈ R.exporters x)
    (hleast : ∀ d ∈ R.exporters x, (R.files.dylib m).priority ≤ (R.files.dylib d).priority)
    (htake : R.bid (some m) < R.value x none) :
    R.documentedOwner x = some m := by
  have houtcome := hR.2 _ (erase_concat_perm hm) x
  rw [resolveDylibs_eq_symbolOf, takeovers_least_last hm hleast htake
    fun d hd => mem_erase_exporter hd] at houtcome
  exact (holder_eq_of_outcome_eq (Or.inr ⟨m, hm, rfl⟩)
    (documentedOwner_eq_none_or_mem x) houtcome).symm

theorem OrderIndependent.value_le_bid (hR : R.OrderIndependent) (hm : m ∈ R.exporters x)
    (hleast : ∀ d ∈ R.exporters x, (R.files.dylib m).priority ≤ (R.files.dylib d).priority)
    (htake : R.bid (some m) < R.value x none)
    (hd : d ∈ R.exporters x) (hne : d ≠ m) :
    R.value x (some m) ≤ R.bid (some d) := by
  by_contra hretake
  have hdm : d ∈ R.dylibs.erase m :=
    dylibs_nodup.mem_erase_iff.mpr ⟨hne, (mem_exporters.mp hd).1⟩
  have hperm : ((R.dylibs.erase m).erase d ++ [m] ++ [d]).Perm R.dylibs := by
    refine (List.perm_append_singleton d _).trans ?_
    refine (List.Perm.cons d (List.perm_append_singleton m _)).trans ?_
    refine (List.Perm.swap m d _).trans ?_
    refine (List.Perm.cons m (List.perm_cons_erase hdm).symm).trans ?_
    exact (List.perm_cons_erase (mem_exporters.mp hm).1).symm
  have houtcome := hR.2 _ hperm x
  have hlast := takeovers_least_last hm hleast htake (l := (R.dylibs.erase m).erase d)
    fun e he => mem_erase_exporter (List.mem_of_mem_erase he)
  have hfinal : takeovers R.bid (R.value x) none
      ((((R.dylibs.erase m).erase d ++ [m] ++ [d]).filter
        fun d => (R.files.exportFlags d x).isSome).map some) = some d := by
    rw [List.filter_append, filter_singleton_exporter hd, List.map_append, takeovers_append, hlast]
    exact if_pos (not_le.mp hretake)
  rw [resolveDylibs_eq_symbolOf, hfinal] at houtcome
  have howner := holder_eq_of_outcome_eq (Or.inr ⟨d, hd, rfl⟩)
    (documentedOwner_eq_none_or_mem x) houtcome
  rw [hR.documentedOwner_eq hm hleast htake] at howner
  exact hne (by simpa using howner)

end Exposing

/-- A round of dylib resolution is independent of the order of the calls, and
agrees with the documented priority list, exactly when every symbol is settled
by its exporter of least priority. -/
theorem orderIndependent_iff : R.OrderIndependent ↔ ∀ x, R.TakeoverSettles x := by
  constructor
  · intro hR x m hm hleast
    rcases le_or_gt (R.value x none) (R.bid (some m)) with hkeep | htake
    · refine Or.inl ⟨hkeep, ?_⟩
      have houtcome := hR.2 R.dylibs (List.Perm.refl _) x
      have hholder : takeovers R.bid (R.value x) none ((R.exporters x).map some) = none := by
        apply takeovers_eq_holder
        rintro holder hholder
        obtain ⟨d, hd, rfl⟩ := List.mem_map.mp hholder
        exact hkeep.trans (bid_le_bid (hleast d hd))
      rw [resolveDylibs_eq_symbolOf, ← exporters, hholder] at houtcome
      exact (holder_eq_of_outcome_eq (Or.inl rfl) (documentedOwner_eq_none_or_mem x) houtcome).symm
    · exact Or.inr ⟨htake, hR.documentedOwner_eq hm hleast htake,
        fun d hd hne => hR.value_le_bid hm hleast htake hd hne⟩
  · intro hsettles
    have hfinal : ∀ l : List ℕ, l.Perm R.dylibs → ∀ x,
        (resolveDylibs R.files R.isAlive l R.syms x).outcome =
          (R.symbolOf x (R.documentedOwner x)).outcome := by
      intro l hl x
      rw [resolveDylibs_eq_symbolOf, (hsettles x).takeovers_eq hl]
    refine ⟨?_, hfinal⟩
    intro l₁ l₂ hl₁ hl₂ x
    rw [hfinal l₁ hl₁ x, hfinal l₂ hl₂ x]

end DylibRound

/-- Dylibs `0` and `1` both export symbol `0` as a weak definition, and nobody
owns it before. -/
def twoWeakExports : DylibRound ℕ where
  files :=
    { obj := fun _ => { priority := 0, syms := [] }
      dylib := fun d =>
        { priority := 8000000 + d
          exports := [(0, 4)]
          exports_nodup := List.nodup_singleton 0 } }
  isAlive := fun _ => true
  syms := fun _ => {}
  dylibs := [0, 1]
  distinctPriorities := by decide
  ownedByObjects := by simp

/-- Whichever of two weak exports comes last owns the symbol. -/
theorem twoWeakExports_not_orderIndependent : ¬ twoWeakExports.OrderIndependent := by
  intro h
  have hswap := h.1 [0, 1] [1, 0] (List.Perm.refl _) (List.Perm.swap 0 1 []) 0
  revert hswap
  decide

end Mold.MachO
