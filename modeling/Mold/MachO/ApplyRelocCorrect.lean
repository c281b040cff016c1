import Mold.Lib.KeyedList
import Mold.MachO.ApplyReloc

/-!
# Relocations keep their meaning

The relocations that are read are those of the entries in the stable order, so
a subtractor is followed by its partner when they are applied.  For each entry
the amounts in the field, in the addend and in the base cancel out.
-/

namespace Mold.MachO.ApplyReloc

open Mold.Lib Mold.MachO.Subsections

variable {τ σ : Type*} {inp : RelocInput τ σ} {rels : List MachRel} {self : σ}
  {out : List (Relocation τ σ)}

/-! ## The relocations that are read -/

/-- What an entry is translated to, whatever subsection is found. -/
def IsRelocation (inp : RelocInput τ σ) (rels : List MachRel) (ent : MachRel × ℕ)
    (r : Relocation τ σ) : Prop :=
  if ent.1.isExtern then r = externRelocation inp rels ent
  else ∃ t, r = localRelocation inp rels ent t

variable {r : Relocation τ σ}

theorem IsRelocation.offset {ent : MachRel × ℕ}
    (h : IsRelocation inp rels ent r) : r.offset = ent.1.offset := by
  unfold IsRelocation at h
  split at h
  · rw [h]
    rfl
  · obtain ⟨t, rfl⟩ := h
    rfl

variable {ents : List (MachRel × ℕ)}

theorem fill_forall₂ {lastTarget : Option σ} (hfill : fill inp rels lastTarget ents = some out) :
    List.Forall₂ (IsRelocation inp rels) ents out := by
  induction ents generalizing lastTarget out with
  | nil =>
    obtain rfl := Option.some.inj hfill
    exact .nil
  | cons ent ents ih =>
    rw [fill] at hfill
    split at hfill
    case isTrue hsym =>
      obtain ⟨rest, hrest, rfl⟩ := Option.map_eq_some_iff.mp hfill
      refine .cons ?_ (ih hrest)
      rw [IsRelocation, if_pos hsym]
    case isFalse hsym =>
      obtain ⟨target, -, hbehind⟩ := Option.bind_eq_some_iff.mp hfill
      obtain ⟨rest, hrest, rfl⟩ := Option.map_eq_some_iff.mp hbehind
      refine .cons ?_ (ih hrest)
      rw [IsRelocation, if_neg hsym]
      exact ⟨target, rfl⟩

theorem nodup_zipIdx (rels : List MachRel) : rels.zipIdx.Nodup := by
  refine List.Nodup.of_map Prod.snd ?_
  rw [List.zipIdx_map_snd]
  exact List.nodup_range'

theorem nodup_sortedEntries (rels : List MachRel) : (sortedEntries rels).Nodup :=
  (perm_stableSort _ _).nodup_iff.mpr (nodup_zipIdx rels)

theorem readSorted_eq_map (h : readSorted inp rels = some out) :
    ∃ f : MachRel × ℕ → Relocation τ σ, out = (sortedEntries rels).map f ∧
      ∀ ent ∈ sortedEntries rels, IsRelocation inp rels ent (f ent) := by
  obtain ⟨filled, hfill, rfl⟩ := readSorted_eq_some h
  have hperm := perm_fillOrder rels
  have hnodup : (fillOrder rels).Nodup := hperm.nodup_iff.mpr (nodup_zipIdx rels)
  obtain ⟨f, rfl, hf⟩ := exists_eq_map_of_forall₂ (fill_forall₂ hfill) hnodup
    (externRelocation inp rels)
  have hmem : ∀ ent ∈ sortedEntries rels, IsRelocation inp rels ent (f ent) := by
    intro ent hent
    exact hf ent (hperm.mem_iff.mpr ((perm_stableSort _ _).mem_iff.mp hent))
  refine ⟨f, ?_, hmem⟩
  cases hdir : isDecreasing rels || isIncreasing rels with
  | true => rw [if_pos rfl, fillOrder_eq hdir]
  | false =>
    rw [if_neg Bool.false_ne_true, fillOrder_of_not hdir, sortedEntries]
    refine (map_stableSort f fun ent hent => ?_).symm
    rw [Relocation.place, (hf ent (hperm.mem_iff.mpr hent)).offset]

def subsecOffset (inp : RelocInput τ σ) (self : σ) : UInt32 :=
  ((inp.inputAddr self).toUInt64 - inp.addr).toUInt32

def entriesIn (inp : RelocInput τ σ) (rels : List MachRel) (self : σ) : List (MachRel × ℕ) :=
  (sortedEntries rels).filter fun ent => isIn inp self ent.1.offset

theorem relsOf_map {f : MachRel × ℕ → Relocation τ σ}
    (hf : ∀ ent ∈ sortedEntries rels, IsRelocation inp rels ent (f ent)) :
    relsOf inp self ((sortedEntries rels).map f) =
      (entriesIn inp rels self).map fun ent => (f ent).rebase (subsecOffset inp self) := by
  have hfilter : (sortedEntries rels).filter ((fun r => isIn inp self r.offset) ∘ f) =
      entriesIn inp rels self := by
    refine List.filter_congr fun ent hent => ?_
    rw [Function.comp_apply, (hf ent hent).offset]
  rw [relsOf, List.filter_map, hfilter, List.map_map]
  rfl

theorem entriesOf_map (inp : RelocInput τ σ) (rels : List MachRel) (self : σ)
    (f : MachRel × ℕ → Relocation τ σ) :
    entriesOf inp rels self ((sortedEntries rels).map f) =
      (entriesIn inp rels self).map fun ent => (ent.1, (f ent).target) := by
  have hzip : (sortedEntries rels).zip ((sortedEntries rels).map f) =
      (sortedEntries rels).map fun ent => (ent, f ent) := by
    refine (List.zip_of_prod ?_ ?_).symm
    · rw [List.map_map]
      exact List.map_id _
    · rw [List.map_map]
      rfl
  rw [entriesOf, hzip, List.filter_map, List.map_map]
  rfl

/-! ## Subtractors and their partners -/

/-- Each subtractor is followed by its partner in the table, and no other entry is behind a
subtractor there. -/
inductive Paired (rels : List MachRel) : List (MachRel × ℕ) → Prop
  | nil : Paired rels []
  | single {ent : MachRel × ℕ} {ents : List (MachRel × ℕ)} (hent : rels[ent.2]? = some ent.1)
      (htype : ent.1.type ≠ relocSubtractor) (hnot : isBehindSubtractor rels ent.2 = false)
      (hents : Paired rels ents) : Paired rels (ent :: ents)
  | pair {sub r : MachRel} {i : ℕ} {ents : List (MachRel × ℕ)} (hsub : rels[i]? = some sub)
      (htype : sub.type = relocSubtractor) (hr : rels[i + 1]? = some r)
      (hents : Paired rels ents) : Paired rels ((sub, i) :: (r, i + 1) :: ents)

theorem index_eq {p q : ℕ} {ent : MachRel × ℕ} (hp : (sortedEntries rels)[p]? = some ent)
    (hq : (sortedEntries rels)[q]? = some ent) : p = q := by
  obtain ⟨hlt, -⟩ := List.getElem?_eq_some_iff.mp hp
  exact (List.getElem?_inj hlt (nodup_sortedEntries rels)).mp (hp.trans hq.symm)

theorem getElem?_partner (h : WellFormed rels) {p i : ℕ} {sub : MachRel}
    (hp : (sortedEntries rels)[p]? = some (sub, i)) (htype : sub.type = relocSubtractor) :
    ∃ r, rels[i + 1]? = some r ∧ r.type = 0 ∧ (sortedEntries rels)[p + 1]? = some (r, i + 1) := by
  have hsub : rels[i]? = some sub :=
    (mem_sortedEntries_iff (sub, i)).mp (List.mem_of_getElem? hp)
  obtain ⟨r, hr, hzero, hoffset, -⟩ := h.partner i sub hsub htype
  obtain ⟨q, hq, hnext⟩ := neighbours_sortedEntries hsub hr hoffset
  rw [index_eq hq hp] at hnext
  exact ⟨r, hr, hzero, hnext⟩

theorem paired_drop (h : WellFormed rels) {p : ℕ}
    (hprev : ∀ q ent, q + 1 = p → (sortedEntries rels)[q]? = some ent →
      ent.1.type ≠ relocSubtractor) :
    Paired rels ((sortedEntries rels).drop p) := by
  induction hn : (sortedEntries rels).length - p using Nat.strong_induction_on generalizing p with
  | h n ih =>
    rcases Nat.lt_or_ge p (sortedEntries rels).length with hlt | hge
    · obtain ⟨⟨r, i⟩, hent⟩ : ∃ ent, (sortedEntries rels)[p]? = some ent :=
        ⟨_, List.getElem?_eq_getElem hlt⟩
      have hr : rels[i]? = some r :=
        (mem_sortedEntries_iff (r, i)).mp (List.mem_of_getElem? hent)
      rw [List.drop_eq_getElem?_toList_append, hent]
      by_cases htype : r.type = relocSubtractor
      · obtain ⟨r', hr', hzero, hnext⟩ := getElem?_partner h hent htype
        rw [List.drop_eq_getElem?_toList_append (i := p + 1), hnext]
        refine .pair hr htype hr' (ih _ (by omega) ?_ rfl)
        intro q ent hq hget
        obtain rfl : q = p + 1 := Nat.succ_inj.mp hq
        obtain rfl := Option.some.inj (hnext.symm.trans hget)
        rw [hzero]
        decide
      · refine .single hr htype ?_ (ih _ (by omega) ?_ rfl)
        · cases hbehind : isBehindSubtractor rels i with
          | false => rfl
          | true =>
            rw [isBehindSubtractor, Bool.and_eq_true, decide_eq_true_eq, beq_iff_eq]
              at hbehind
            obtain ⟨hpos, hsome⟩ := hbehind
            obtain ⟨sub, hsub, hsubtype⟩ := Option.map_eq_some_iff.mp hsome
            obtain ⟨q, hq⟩ := List.mem_iff_getElem?.mp
              ((mem_sortedEntries_iff (sub, i - 1)).mpr hsub)
            obtain ⟨r', hr', -, hnext⟩ := getElem?_partner h hq hsubtype
            rw [Nat.sub_add_cancel hpos] at hr' hnext
            obtain rfl := Option.some.inj (hr.symm.trans hr')
            exact absurd hsubtype (hprev q (sub, i - 1) (index_eq hnext hent) hq)
        · intro q ent hq hget
          obtain rfl : q = p := Nat.succ_inj.mp hq
          obtain rfl := Option.some.inj (hent.symm.trans hget)
          exact htype
    · rw [List.drop_eq_nil_of_le hge]
      exact .nil

theorem paired_sortedEntries (h : WellFormed rels) : Paired rels (sortedEntries rels) := by
  have hdrop := paired_drop h (p := 0) fun q ent hq _ => absurd hq (Nat.succ_ne_zero q)
  rwa [List.drop_zero] at hdrop

theorem Paired.filter (h : WellFormed rels) (self : σ) (hents : Paired rels ents) :
    Paired rels (ents.filter fun ent => isIn inp self ent.1.offset) := by
  induction hents with
  | nil => exact .nil
  | @single ent ents hent htype hnot _ ih =>
    rw [List.filter_cons]
    split
    · exact .single hent htype hnot ih
    · exact ih
  | @pair sub r i ents hsub htype hr _ ih =>
    obtain ⟨r', hr', -, hoffset, -⟩ := h.partner i sub hsub htype
    obtain rfl := Option.some.inj (hr'.symm.trans hr)
    rw [List.filter_cons, List.filter_cons]
    dsimp only
    rw [hoffset]
    split
    · exact .pair hsub htype hr ih
    · exact ih

theorem paired_entriesIn (h : WellFormed rels) (inp : RelocInput τ σ) (self : σ) :
    Paired rels (entriesIn inp rels self) :=
  (paired_sortedEntries h).filter h self

/-! ## One entry -/

section

variable {ctx : Context τ σ} {ent : MachRel × ℕ} {rel : Relocation τ σ}

theorem toUInt64_rebase {offset : UInt32} (h : isIn inp self offset = true) :
    (offset - subsecOffset inp self).toUInt64 =
      inp.addr + offset.toUInt64 - (inp.inputAddr self).toUInt64 := by
  rw [isIn, Bool.and_eq_true, decide_eq_true_eq, decide_eq_true_eq] at h
  obtain ⟨hlow, hhigh⟩ := h
  have haddr := inp.addr.toNat_lt
  have hself := (inp.inputAddr self).toNat_lt
  have hsize := (inp.inputSize self).toNat_lt
  have hoff := offset.toNat_lt
  apply UInt64.toNat_inj.mp
  simp only [subsecOffset, UInt32.toNat_toUInt64, UInt32.toNat_sub, UInt64.toNat_toUInt32,
    UInt64.toNat_sub, UInt64.toNat_add]
  omega

theorem trailing_eq (type : UInt8) : (getRelocAddend type).toUInt64 = trailing type := by
  unfold getRelocAddend trailing
  split_ifs <;> rfl

theorem toUInt64_addend (inp : RelocInput τ σ) (r : MachRel) :
    (inp.addend r).toUInt64 = inPlace inp r + trailing r.type := by
  rw [← trailing_eq]
  rfl

theorem relocAddr_add (ctx : Context τ σ) (h : IsRelocation inp rels ent rel)
    (hpcrel : ent.1.isPcrel = isPcRelative ent.1.type) :
    ctx.relocAddr rel.target + rel.addend.toUInt64 =
      origin ctx inp rel.target + referred inp ent.1 := by
  have haddend := toUInt64_addend inp ent.1
  unfold IsRelocation at h
  split at h
  case isTrue hsym =>
    subst h
    rw [referred, hsym, Bool.not_true, Bool.and_false, if_neg Bool.false_ne_true, ← haddend]
    rfl
  case isFalse hsym =>
    obtain ⟨t, rfl⟩ := h
    have htarget : inp.targetAddr ent.1 = referred inp ent.1 := by
      rw [Bool.not_eq_true] at hsym
      rw [RelocInput.targetAddr, referred, hpcrel, hsym, Bool.not_false, Bool.and_true, haddend]
      split
      · grind
      · rfl
    change ctx.subsecAddr t + (inp.targetAddr ent.1 - (inp.inputAddr t).toUInt64) =
      ctx.subsecAddr t - (inp.inputAddr t).toUInt64 + referred inp ent.1
    rw [htarget]
    grind

theorem IsRelocation.type (h : IsRelocation inp rels ent rel) : rel.type = ent.1.type := by
  unfold IsRelocation at h
  split at h
  · rw [h]
    rfl
  · obtain ⟨t, rfl⟩ := h
    rfl

theorem IsRelocation.size (h : IsRelocation inp rels ent rel) :
    rel.size = UInt8.ofNat (1 <<< ent.1.p2size) := by
  unfold IsRelocation at h
  split at h
  · rw [h]
    rfl
  · obtain ⟨t, rfl⟩ := h
    rfl

theorem IsRelocation.names (h : IsRelocation inp rels ent rel) : Names inp ent.1 rel.target := by
  unfold IsRelocation at h
  unfold Names
  split at h
  case isTrue hsym => rw [if_pos hsym, h, externRelocation]
  case isFalse hsym =>
    obtain ⟨t, rfl⟩ := h
    rw [if_neg hsym]
    exact ⟨t, rfl⟩

theorem exists_field_iff {size : UInt8} {v : UInt64} {p : UInt64 → Prop}
    (hin : isIn inp self ent.1.offset = true) (hoffset : rel.offset = ent.1.offset) :
    (∃ w, some (some (Write.mk (rel.offset - subsecOffset inp self) size v)) = some w ∧
        Field inp self ent.1 w p) ↔
      p (Write.field ⟨rel.offset - subsecOffset inp self, size, v⟩) := by
  have hplace := toUInt64_rebase hin
  constructor
  · rintro ⟨w, hw, x, rfl, -, hx⟩
    obtain rfl := Option.some.inj (Option.some.inj hw)
    exact hx
  · intro hv
    refine ⟨_, rfl, _, rfl, ?_, hv⟩
    rw [hoffset]
    exact hplace

theorem exists_writeDisp_iff {e loc v : UInt64} (hsize : rel.size = 4)
    (hin : isIn inp self ent.1.offset = true) (hoffset : rel.offset = ent.1.offset)
    (hfits : FitsDisp (loc - e)) :
    (∃ w, Context.writeDisp (rel.rebase (subsecOffset inp self)) v = some w ∧
        Field inp self ent.1 w fun x => e + x = loc) ↔
      v.toUInt32 = (loc - e).toUInt32 := by
  have hwrite : Context.writeDisp (rel.rebase (subsecOffset inp self)) v =
      some (some ⟨rel.offset - subsecOffset inp self, 4, v⟩) := if_pos hsize
  rw [hwrite, exists_field_iff hin hoffset, ← signExtend32_eq_iff hfits]
  change e + signExtend32 v = loc ↔ _
  constructor
  · intro hx
    grind
  · intro hv
    grind

variable {type : UInt8}

theorem isPcRelative_cases (h : isPcRelative type = true) :
    isSigned type = true ∨ type = 2 ∨ isGot type = true ∨ type = 9 := by
  simpa only [isPcRelative, Bool.or_eq_true, decide_eq_true_eq, or_assoc] using h

theorem base_of_plain (h : ¬(isGot type = true ∨ type = 9))
    (t : RelocTarget τ σ) : base ctx inp type t = origin ctx inp t := by
  cases t with
  | sym s =>
    rw [base, if_neg fun hgot => h (.inl hgot), if_neg fun hnine => h (.inr hnine)]
    rfl
  | subsec t => rfl

theorem exists_word_iff (hwf : WellFormed rels) (h : IsRelocation inp rels ent rel)
    (hent : rels[ent.2]? = some ent.1) (hin : isIn inp self ent.1.offset = true)
    (htype : ent.1.type = 0) (hnot : isBehindSubtractor rels ent.2 = false) :
    (∃ w, ctx.applyOne self (rel.rebase (subsecOffset inp self)) = some w ∧
        (Item.single ent.1 rel.target).Refers ctx inp self w) ↔
      (Item.single ent.1 rel.target).Safe ctx inp := by
  have hmem := List.mem_of_getElem? hent
  have haddr : ctx.relocAddr rel.target + rel.addend.toUInt64 =
      location ctx inp ent.1 rel.target := by
    rw [location, htype, base_of_plain (by decide)]
    exact relocAddr_add ctx h (hwf.pcrel ent.1 hmem)
  have hsize : rel.size = 8 := by
    rw [h.size, hwf.unsigned ent.2 ent.1 hent htype hnot]
    rfl
  have hzero : rel.type = 0 := h.type.trans htype
  cases htarget : rel.target with
  | sym s =>
    rw [htarget] at haddr
    simp only [Context.applyOne, Relocation.rebase, hzero, hsize, htarget, if_true,
      Item.Refers, htype, Item.Safe, iff_true]
    split
    case isTrue himported => exact ⟨none, rfl, rfl⟩
    case isFalse himported =>
      split
      case isTrue htls =>
        refine (exists_field_iff hin h.offset).mpr ?_
        have hin : inTls ctx (.sym s : RelocTarget τ σ) = true := htls
        rw [if_pos hin, ← haddr]
        change ctx.relocAddr (.sym s) + rel.addend.toUInt64 - ctx.tlsBegin + ctx.tlsBegin = _
        grind
      case isFalse htls =>
        refine (exists_field_iff hin h.offset).mpr ?_
        have hin : ¬inTls ctx (.sym s : RelocTarget τ σ) = true := htls
        rw [if_neg hin, ← haddr]
        change ctx.relocAddr (.sym s) + rel.addend.toUInt64 + 0 = _
        grind
  | subsec t =>
    rw [htarget] at haddr
    simp only [Context.applyOne, Relocation.rebase, hzero, hsize, htarget, if_true,
      Item.Refers, htype, Item.Safe, Context.isImported, Context.refersToTls,
      Bool.false_eq_true, if_false]
    rw [exists_field_iff hin h.offset, ← haddr]
    change ctx.relocAddr (.subsec t) + rel.addend.toUInt64 +
      (if ctx.isThreadLocal t = true then ctx.tlsBegin else 0) = _ ↔ _
    split
    case isTrue htls =>
      constructor
      · intro heq _
        grind
      · intro hsafe
        rw [hsafe htls]
        grind
    case isFalse htls =>
      constructor
      · intro _ htls'
        exact absurd htls' htls
      · intro _
        grind

theorem isSigned_plain (h : isSigned type = true) : type ≠ 0 ∧ isGot type = false ∧ type ≠ 9 := by
  simp only [isSigned, Bool.or_eq_true, decide_eq_true_eq, or_assoc] at h
  rcases h with rfl | rfl | rfl | rfl <;> decide

theorem isGot_plain (h : isGot type = true) :
    type ≠ 0 ∧ isSigned type = false ∧ type ≠ 2 ∧ trailing type = 0 := by
  simp only [isGot, Bool.or_eq_true, decide_eq_true_eq] at h
  rcases h with rfl | rfl <;> decide

theorem sub_endOf (ctx : Context τ σ) (hin : isIn inp self ent.1.offset = true)
    (hoffset : rel.offset = ent.1.offset) (x : UInt64) :
    x - (ctx.subsecAddr self + (rel.offset - subsecOffset inp self).toUInt64) - 4 -
      trailing ent.1.type = x - endOf ctx inp self ent.1 := by
  rw [hoffset, toUInt64_rebase hin, endOf]
  grind

section

variable (hin : isIn inp self ent.1.offset = true) (h : IsRelocation inp rels ent rel)
  (hpcrel : ent.1.isPcrel = isPcRelative ent.1.type) (hsize : rel.size = 4)
  (hfits : (Item.single ent.1 rel.target).Fits ctx inp self)

include hin h hpcrel hsize hfits

theorem exists_plain_iff (htype : isSigned ent.1.type = true ∨ ent.1.type = 2) :
    (∃ w, ctx.applyOne self (rel.rebase (subsecOffset inp self)) = some w ∧
        (Item.single ent.1 rel.target).Refers ctx inp self w) ↔
      (Item.single ent.1 rel.target).Safe ctx inp := by
  obtain ⟨hzero, hnot, hnine⟩ : ent.1.type ≠ 0 ∧ isGot ent.1.type = false ∧ ent.1.type ≠ 9 := by
    rcases htype with hsigned | htwo
    · exact isSigned_plain hsigned
    · rw [htwo]
      decide
  have haddr : ctx.relocAddr rel.target + rel.addend.toUInt64 =
      location ctx inp ent.1 rel.target := by
    rw [location, base_of_plain (by rw [hnot]; simp [hnine])]
    exact relocAddr_add ctx h hpcrel
  have hrel := h.type
  have happly : ctx.applyOne self (rel.rebase (subsecOffset inp self)) =
      Context.writeDisp (rel.rebase (subsecOffset inp self))
        (location ctx inp ent.1 rel.target - endOf ctx inp self ent.1) := by
    rw [← sub_endOf ctx hin h.offset, ← haddr]
    simp only [Context.applyOne, Relocation.rebase, hrel, hzero, if_false]
    split
    case isTrue => rw [trailing_eq]
    case isFalse hsigned =>
      have htwo := htype.resolve_left hsigned
      have hnone : trailing ent.1.type = 0 := by
        rw [htwo]
        rfl
      rw [if_pos htwo, hnone, UInt64.sub_zero]
  have hsafe : (Item.single ent.1 rel.target).Safe ctx inp := by
    cases rel.target with
    | sym s => exact trivial
    | subsec t =>
      simp only [Item.Safe, hzero, if_false, hnot, Bool.false_eq_true, hnine, ne_eq,
        not_false_eq_true]
  simp only [happly, Item.Refers, hzero, if_false]
  rw [exists_writeDisp_iff hsize hin h.offset (hfits hzero)]
  exact iff_of_true rfl hsafe

theorem exists_got_iff (htype : isGot ent.1.type = true) :
    (∃ w, ctx.applyOne self (rel.rebase (subsecOffset inp self)) = some w ∧
        (Item.single ent.1 rel.target).Refers ctx inp self w) ↔
      (Item.single ent.1 rel.target).Safe ctx inp := by
  obtain ⟨hzero, hsigned, htwo, hnone⟩ := isGot_plain htype
  have haddr := relocAddr_add ctx h hpcrel
  have hend := sub_endOf ctx hin h.offset
  rw [hnone] at hend
  have hfits' := hfits hzero
  have hrel := h.type
  cases htarget : rel.target with
  | sym s =>
    rw [htarget] at haddr hfits'
    have happly : ctx.applyOne self (rel.rebase (subsecOffset inp self)) =
        Context.writeDisp (rel.rebase (subsecOffset inp self))
          (location ctx inp ent.1 (.sym s) - endOf ctx inp self ent.1) := by
      have hloc : location ctx inp ent.1 (.sym s : RelocTarget τ σ) =
          Context.slotOffset (ctx.sym s).gotIdx + ctx.got + rel.addend.toUInt64 := by
        simp only [location, base, htype, if_true]
        change ctx.getAddr s + _ = ctx.getAddr s + _ at haddr
        grind
      rw [← hend, hloc, UInt64.sub_zero]
      simp only [Context.applyOne, Relocation.rebase, hrel, hzero, if_false, hsigned,
        Bool.false_eq_true, htwo, htype, if_true, htarget]
    simp only [happly, Item.Refers, hzero, if_false]
    rw [exists_writeDisp_iff hsize hin h.offset hfits']
    exact iff_of_true rfl trivial
  | subsec t =>
    rw [htarget] at haddr hfits'
    have happly : ctx.applyOne self (rel.rebase (subsecOffset inp self)) =
        Context.writeDisp (rel.rebase (subsecOffset inp self))
          (ctx.got - ctx.subsecAddr t +
            (location ctx inp ent.1 (.subsec t) - endOf ctx inp self ent.1)) := by
      have hloc : location ctx inp ent.1 (.subsec t : RelocTarget τ σ) =
          ctx.subsecAddr t + rel.addend.toUInt64 := haddr.symm
      rw [← hend, hloc, UInt64.sub_zero]
      simp only [Context.applyOne, Relocation.rebase, hrel, hzero, if_false, hsigned,
        Bool.false_eq_true, htwo, htype, if_true, htarget]
      congr 1
      grind
    simp only [happly, Item.Refers, hzero, if_false, Item.Safe, htype, if_true]
    rw [exists_writeDisp_iff hsize hin h.offset hfits', UInt64.toUInt32_add, UInt64.toUInt32_sub]
    constructor
    · intro heq
      grind
    · intro heq
      grind

theorem exists_tlv_iff (htype : ent.1.type = 9) :
    (∃ w, ctx.applyOne self (rel.rebase (subsecOffset inp self)) = some w ∧
        (Item.single ent.1 rel.target).Refers ctx inp self w) ↔
      (Item.single ent.1 rel.target).Safe ctx inp := by
  have haddr := relocAddr_add ctx h hpcrel
  have hend := sub_endOf ctx hin h.offset
  have hzero : ent.1.type ≠ 0 := by
    rw [htype]
    decide
  have hfits' := hfits hzero
  have hnine : rel.type = 9 := h.type.trans htype
  cases htarget : rel.target with
  | sym s =>
    rw [htarget] at haddr hfits'
    have happly : ctx.applyOne self (rel.rebase (subsecOffset inp self)) =
        Context.writeDisp (rel.rebase (subsecOffset inp self))
          (location ctx inp ent.1 (.sym s) - endOf ctx inp self ent.1) := by
      have hloc : location ctx inp ent.1 (.sym s : RelocTarget τ σ) =
          ctx.getTlvAddr s + rel.addend.toUInt64 := by
        change ctx.getAddr s + _ = ctx.getAddr s + _ at haddr
        have hbase : base ctx inp 9 (.sym s : RelocTarget τ σ) = ctx.getTlvAddr s := rfl
        rw [location, htype, hbase]
        grind
      have hnone : trailing ent.1.type = 0 := by
        rw [htype]
        rfl
      rw [← hend, hloc, hnone, UInt64.sub_zero]
      simp only [Context.applyOne, Relocation.rebase, hnine, htarget]
      rfl
    simp only [happly, Item.Refers, hzero, if_false]
    rw [exists_writeDisp_iff hsize hin h.offset hfits']
    exact iff_of_true rfl trivial
  | subsec t =>
    have happly : ctx.applyOne self (rel.rebase (subsecOffset inp self)) = none := by
      simp only [Context.applyOne, Relocation.rebase, hnine, htarget]
      rfl
    have hgot : isGot 9 = false := rfl
    simp only [happly, Item.Safe, htype, hgot]
    simp

theorem exists_disp_iff (htype : isPcRelative ent.1.type = true) :
    (∃ w, ctx.applyOne self (rel.rebase (subsecOffset inp self)) = some w ∧
        (Item.single ent.1 rel.target).Refers ctx inp self w) ↔
      (Item.single ent.1 rel.target).Safe ctx inp := by
  rcases isPcRelative_cases htype with hsigned | htwo | hgot | hnine
  · exact exists_plain_iff hin h hpcrel hsize hfits (.inl hsigned)
  · exact exists_plain_iff hin h hpcrel hsize hfits (.inr htwo)
  · exact exists_got_iff hin h hpcrel hsize hfits hgot
  · exact exists_tlv_iff hin h hpcrel hsize hfits hnine

end

theorem exists_pair_iff {sub r : MachRel} {i : ℕ} {rs rr : Relocation τ σ}
    (hwf : WellFormed rels) (hs : IsRelocation inp rels (sub, i) rs)
    (hr : IsRelocation inp rels (r, i + 1) rr) (hsub : rels[i]? = some sub)
    (htype : sub.type = relocSubtractor) (hpartner : rels[i + 1]? = some r)
    (hin : isIn inp self r.offset = true)
    (hfits : (Item.pair sub rs.target r rr.target).Fits ctx inp self) :
    (∃ w, ctx.applyPair (rs.rebase (subsecOffset inp self))
          (rr.rebase (subsecOffset inp self)) = some w ∧
        (Item.pair sub rs.target r rr.target).Refers ctx inp self w) ↔
      (Item.pair sub rs.target r rr.target).Safe ctx inp := by
  obtain ⟨r', hr', hzero, hoffset, -⟩ := hwf.partner i sub hsub htype
  obtain rfl := Option.some.inj (hpartner.symm.trans hr')
  have hmem := List.mem_of_getElem? hpartner
  have hloc : ctx.relocAddr rr.target + rr.addend.toUInt64 = location ctx inp r rr.target := by
    have hbase : base ctx inp r.type rr.target = origin ctx inp rr.target :=
      base_of_plain (by rw [hzero]; decide) _
    have haddr := relocAddr_add ctx hr (hwf.pcrel r hmem)
    rw [haddr, location, hbase]
  have hplace : rs.offset = ((r, i + 1) : MachRel × ℕ).1.offset :=
    hs.offset.trans hoffset.symm
  have hin' : isIn inp self ((r, i + 1) : MachRel × ℕ).1.offset = true := hin
  have hunsigned : rr.type = 0 := hr.type.trans hzero
  have happly (size : UInt8) (hsize : rs.size = size) (hok : size = 4 ∨ size = 8) :
      ctx.applyPair (rs.rebase (subsecOffset inp self)) (rr.rebase (subsecOffset inp self)) =
        some (some ⟨rs.offset - subsecOffset inp self, size,
          location ctx inp r rr.target - ctx.relocAddr rs.target⟩) := by
    have hcond : ((rs.rebase (subsecOffset inp self)).size = 4 ∨
        (rs.rebase (subsecOffset inp self)).size = 8) ∧
          (rr.rebase (subsecOffset inp self)).type = 0 := by
      subst hsize
      exact ⟨hok, hunsigned⟩
    subst hsize
    rw [Context.applyPair, if_pos hcond, ← hloc]
    rfl
  have hsubsec (t : σ) (ht : rs.target = .subsec t) :
      location ctx inp r rr.target - origin ctx inp rs.target =
        location ctx inp r rr.target - ctx.relocAddr rs.target + (inp.inputAddr t).toUInt64 := by
    rw [ht]
    change _ - (ctx.subsecAddr t - _) = _ - ctx.subsecAddr t + _
    grind
  simp only [Item.Refers]
  rcases hwf.subtractor sub (List.mem_of_getElem? hsub) htype with hwidth | hwidth
  · have hsize : rs.size = 4 := by
      rw [hs.size, hwidth]
      rfl
    rw [happly 4 hsize (.inl rfl), exists_field_iff hin' hplace]
    have hread : origin ctx inp rs.target + signExtend32 (location ctx inp r rr.target -
          ctx.relocAddr rs.target) = location ctx inp r rr.target ↔
        (location ctx inp r rr.target - ctx.relocAddr rs.target).toUInt32 =
          (location ctx inp r rr.target - origin ctx inp rs.target).toUInt32 := by
      rw [← signExtend32_eq_iff (hfits hwidth)]
      constructor
      · intro heq
        grind
      · intro heq
        grind
    refine hread.trans ?_
    cases htarget : rs.target with
    | sym s => exact iff_of_true rfl trivial
    | subsec t =>
      have hdist := hsubsec t htarget
      rw [htarget] at hdist
      rw [hdist, UInt64.toUInt32_add, UInt32.toUInt32_toUInt64]
      change _ ↔ inp.inputAddr t = 0
      constructor
      · intro heq
        grind
      · intro heq
        grind
  · have hsize : rs.size = 8 := by
      rw [hs.size, hwidth]
      rfl
    rw [happly 8 hsize (.inr rfl), exists_field_iff hin' hplace]
    change origin ctx inp rs.target + (location ctx inp r rr.target -
      ctx.relocAddr rs.target) = location ctx inp r rr.target ↔ _
    cases htarget : rs.target with
    | sym s =>
      refine iff_of_true ?_ trivial
      change ctx.getAddr s + (_ - ctx.getAddr s) = _
      grind
    | subsec t =>
      change ctx.subsecAddr t - (inp.inputAddr t).toUInt64 + (_ - ctx.subsecAddr t) = _ ↔
        inp.inputAddr t = 0
      have hzero : (0 : UInt32).toUInt64 = 0 := rfl
      rw [← UInt32.toUInt64_inj, hzero]
      constructor
      · intro heq
        grind
      · intro heq
        grind

/-! ## All entries of a subsection -/

theorem items_single {e : MachRel × RelocTarget τ σ} (h : e.1.type ≠ relocSubtractor)
    (es : List (MachRel × RelocTarget τ σ)) :
    items (e :: es) = .single e.1 e.2 :: items es := by
  cases es with
  | nil => rfl
  | cons e' es => rw [items, if_neg h]

theorem items_pair {e : MachRel × RelocTarget τ σ} (h : e.1.type = relocSubtractor)
    (e' : MachRel × RelocTarget τ σ) (es : List (MachRel × RelocTarget τ σ)) :
    items (e :: e' :: es) = .pair e.1 e.2 e'.1 e'.2 :: items es := by
  rw [items, if_pos h]

theorem applyReloc_single (hdef : ctx.isUndefined r.target = false)
    (h : r.type ≠ relocSubtractor) (rs : List (Relocation τ σ)) :
    ctx.applyReloc self (r :: rs) =
      (ctx.applyOne self r).bind fun w => (ctx.applyReloc self rs).map (w :: ·) := by
  cases rs with
  | nil =>
    simp only [Context.applyReloc, hdef, Bool.false_eq_true, if_false, h]
    cases ctx.applyOne self r <;> rfl
  | cons r' rs => rw [Context.applyReloc, if_neg (by rw [hdef]; decide), if_neg h]

theorem applyReloc_pair (hdef : ctx.isUndefined r.target = false)
    (h : r.type = relocSubtractor) (r' : Relocation τ σ) (rs : List (Relocation τ σ)) :
    ctx.applyReloc self (r :: r' :: rs) =
      (ctx.applyPair r r').bind fun w => (ctx.applyReloc self rs).map (w :: ·) := by
  rw [Context.applyReloc, if_neg (by rw [hdef]; decide), if_pos h]

theorem exists_applyReloc_iff {f : MachRel × ℕ → Relocation τ σ}
    (hwf : WellFormed rels) (hpaired : Paired rels ents)
    (hin : ∀ ent ∈ ents, isIn inp self ent.1.offset = true)
    (hf : ∀ ent ∈ ents, IsRelocation inp rels ent (f ent))
    (hdef : ∀ ent ∈ ents, ctx.isUndefined (f ent).target = false)
    (hfits : ∀ item ∈ items (ents.map fun ent => (ent.1, (f ent).target)),
      item.Fits ctx inp self) :
    (∃ ws, ctx.applyReloc self
          (ents.map fun ent => (f ent).rebase (subsecOffset inp self)) = some ws ∧
        List.Forall₂ (Item.Refers ctx inp self)
          (items (ents.map fun ent => (ent.1, (f ent).target))) ws) ↔
      ∀ item ∈ items (ents.map fun ent => (ent.1, (f ent).target)), item.Safe ctx inp := by
  induction hpaired with
  | nil => exact iff_of_true ⟨[], rfl, .nil⟩ fun item h => absurd h List.not_mem_nil
  | @single ent ents hent htype hnot _ ih =>
    obtain ⟨hin, hins⟩ := List.forall_mem_cons.mp hin
    obtain ⟨hf, hfs⟩ := List.forall_mem_cons.mp hf
    obtain ⟨hdef, hdefs⟩ := List.forall_mem_cons.mp hdef
    have hmem := List.mem_of_getElem? hent
    have hreltype : ((f ent).rebase (subsecOffset inp self)).type ≠ relocSubtractor := by
      intro heq
      exact htype (hf.type.symm.trans heq)
    have hreldef : ctx.isUndefined ((f ent).rebase (subsecOffset inp self)).target = false :=
      hdef
    simp only [List.map_cons] at hfits ⊢
    rw [items_single (e := (ent.1, (f ent).target)) htype] at hfits ⊢
    obtain ⟨hfit, hfits⟩ := List.forall_mem_cons.mp hfits
    rw [applyReloc_single hreldef hreltype, exists_forall₂_cons_iff,
      ih hins hfs hdefs hfits, List.forall_mem_cons]
    refine and_congr_left fun _ => ?_
    rcases hwf.type ent.1 hmem with hzero | hsub | hdisp
    · exact exists_word_iff hwf hf hent hin hzero hnot
    · exact absurd hsub htype
    · have hsize : (f ent).size = 4 := by
        rw [hf.size, hwf.disp ent.1 hmem hdisp]
        rfl
      exact exists_disp_iff hin hf (hwf.pcrel ent.1 hmem) hsize hfit hdisp
  | @pair sub r i ents hsub htype hr _ ih =>
    obtain ⟨-, hin⟩ := List.forall_mem_cons.mp hin
    obtain ⟨hin, hins⟩ := List.forall_mem_cons.mp hin
    obtain ⟨hfsub, hf⟩ := List.forall_mem_cons.mp hf
    obtain ⟨hf, hfs⟩ := List.forall_mem_cons.mp hf
    obtain ⟨hdef, hdefs⟩ := List.forall_mem_cons.mp hdef
    obtain ⟨-, hdefs⟩ := List.forall_mem_cons.mp hdefs
    have hreltype : ((f (sub, i)).rebase (subsecOffset inp self)).type = relocSubtractor :=
      hfsub.type.trans htype
    have hreldef :
        ctx.isUndefined ((f (sub, i)).rebase (subsecOffset inp self)).target = false := hdef
    simp only [List.map_cons] at hfits ⊢
    rw [items_pair (e := (sub, (f (sub, i)).target)) htype] at hfits ⊢
    obtain ⟨hfit, hfits⟩ := List.forall_mem_cons.mp hfits
    rw [applyReloc_pair hreldef hreltype, exists_forall₂_cons_iff,
      ih hins hfs hdefs hfits, List.forall_mem_cons]
    refine and_congr_left fun _ => ?_
    exact exists_pair_iff hwf hfsub hf hsub htype hr hin hfit

theorem mem_of_single_mem {r : MachRel} {t : RelocTarget τ σ}
    {es : List (MachRel × RelocTarget τ σ)} (h : Item.single r t ∈ items es) : (r, t) ∈ es := by
  induction es using items.induct with
  | case1 => cases h
  | case2 e =>
    cases List.mem_singleton.mp h
    exact List.mem_cons_self
  | case3 e e' es htype ih =>
    rw [items, if_pos htype] at h
    rcases List.mem_cons.mp h with h | h
    · cases h
    · exact List.mem_cons_of_mem _ (List.mem_cons_of_mem _ (ih h))
  | case4 e e' es htype ih =>
    rw [items, if_neg htype] at h
    rcases List.mem_cons.mp h with h | h
    · cases h
      exact List.mem_cons_self
    · exact List.mem_cons_of_mem _ (ih h)

theorem unchanged_of_refers {c : UInt64} (hshift : IsShift ctx inp c) {item : Item τ σ}
    (hnames : ∀ r t, item = .single r t → Names inp r t) {w : Option Write}
    (h : item.Refers ctx inp self w) : item.Unchanged inp self w := by
  cases item with
  | pair sub ts r t => exact trivial
  | single r t =>
    intro hpcrel hextern
    have hname := hnames r t rfl
    rw [Names, hextern, if_neg Bool.false_ne_true] at hname
    obtain ⟨s, rfl⟩ := hname
    have hzero : r.type ≠ 0 := by
      intro heq
      rw [heq] at hpcrel
      exact absurd hpcrel (by decide)
    simp only [Item.Refers, hzero, if_false] at h
    obtain ⟨x, hx, hoffset, hfield⟩ := h
    refine ⟨x, hx, hoffset, ?_⟩
    have hloc : location ctx inp r (.subsec s : RelocTarget τ σ) = c +
        (inp.addr + r.offset.toUInt64 + 4 + trailing r.type + inPlace inp r) := by
      rw [location, referred, hpcrel, hextern, Bool.not_false, Bool.and_true, if_pos rfl]
      change ctx.subsecAddr s - (inp.inputAddr s).toUInt64 + _ = _
      rw [hshift s]
      grind
    rw [hloc, endOf, hshift self] at hfield
    grind

end

/-- A word at offset 16 of the first subsection holds the input address of the second one. -/
def oneWord : RelocInput Unit Bool where
  addr := 0
  contents := fun i => if i = 16 then 24 else 0
  syms := fun _ => ()
  subsections := [false, true]
  subsectionLookup := []
  inputAddr := fun t => if t then 24 else 0
  inputSize := fun t => if t then 8 else 24

def outputOf (sectionType : ℕ) : Context Unit Bool where
  sym := fun _ => {}
  subsecAddr := fun t => if t then 0x2000 else 0x1000
  sectionType := fun t => if t then sectionType else 0x13
  stubs := 0
  got := 0
  threadPtrs := 0
  tlsBegin := 0x2000

theorem wellFormed_oneWord : WellFormed [{ offset := 16 }] where
  type r hr := by
    obtain rfl := List.mem_singleton.mp hr
    exact .inl rfl
  pcrel r hr := by
    obtain rfl := List.mem_singleton.mp hr
    rfl
  disp r hr h := by
    obtain rfl := List.mem_singleton.mp hr
    exact absurd h (by decide)
  subtractor r hr h := by
    obtain rfl := List.mem_singleton.mp hr
    exact absurd h (by decide)
  partner i r hr h := by
    obtain rfl := List.mem_singleton.mp (List.mem_of_getElem? hr)
    exact absurd h (by decide)
  unsigned i r hr _ _ := by
    obtain rfl := List.mem_singleton.mp (List.mem_of_getElem? hr)
    rfl

theorem items_oneWord {item : Item Unit Bool}
    (h : item ∈ items (entriesOf oneWord [{ offset := 16 }] false
      [⟨.subsec true, 0, 16, 0, 8, false⟩])) :
    item = .single { offset := 16 } (.subsec true) :=
  List.mem_singleton.mp h

/-- A displacement, a difference and a word without a symbol. -/
def exampleRels : List MachRel :=
  [{ offset := 0, isPcrel := true, p2size := 2, isExtern := true, type := 1 },
    { offset := 8, isExtern := true, type := relocSubtractor }, { offset := 8, isExtern := true },
    { offset := 16 }]

theorem wellFormed_exampleRels : WellFormed exampleRels where
  type := by decide
  pcrel := by decide
  disp := by decide
  subtractor := by decide
  partner i r hr h := by
    rcases i with _ | _ | _ | _ | i <;> cases hr <;> first | exact ⟨_, rfl, rfl, rfl, rfl⟩ | cases h
  unsigned i r hr h hbehind := by
    rcases i with _ | _ | _ | _ | i <;> cases hr <;> first | rfl | cases h

end Mold.MachO.ApplyReloc
