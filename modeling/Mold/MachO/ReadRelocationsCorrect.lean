import Mold.MachO.FindSubsection
import Mold.MachO.ReadRelocations

/-!
# Correctness of reading relocations

Relocations are read in the stable order of their offsets on all paths.  Each of them is what
its entry means alone exactly if a subsection that is kept would be found again.
-/

namespace Mold.MachO.Subsections

open Mold.Lib

variable {τ σ : Type*} {inp : RelocInput τ σ} {rels : List MachRel}

def meaning (inp : RelocInput τ σ) (rels : List MachRel) (ent : MachRel × ℕ) : Relocation τ σ :=
  (translate inp rels ent).getD (externRelocation inp rels ent)

theorem place_meaning (ent : MachRel × ℕ) : (meaning inp rels ent).place = ent.1.offset.toNat := by
  rw [meaning, translate]
  split
  · rfl
  · cases inp.find (inp.targetAddr ent.1) <;> rfl

variable {ents : List (MachRel × ℕ)} {out : List (Relocation τ σ)}

theorem mapM_translate_iff :
    ents.mapM (translate inp rels) = some out ↔
      out = ents.map (meaning inp rels) ∧ ∀ ent ∈ ents, translate inp rels ent ≠ none :=
  mapM_eq_some_iff (externRelocation inp rels)

theorem places_fill {lastTarget : Option σ} (h : fill inp rels lastTarget ents = some out) :
    out.map Relocation.place = ents.map fun ent => ent.1.offset.toNat := by
  induction ents generalizing lastTarget out with
  | nil =>
    obtain rfl := Option.some.inj h
    rfl
  | cons ent ents ih =>
    rw [fill] at h
    split at h
    · obtain ⟨rest, hrest, rfl⟩ := Option.map_eq_some_iff.mp h
      rw [List.map_cons, List.map_cons, ih hrest]
      rfl
    · obtain ⟨target, -, h⟩ := Option.bind_eq_some_iff.mp h
      obtain ⟨rest, hrest, rfl⟩ := Option.map_eq_some_iff.mp h
      rw [List.map_cons, List.map_cons, ih hrest]
      rfl

variable {ent : MachRel × ℕ}

theorem localAddrs_cons_of_sym
    (h : ent.1.isExtern = true) : localAddrs inp (ent :: ents) = localAddrs inp ents := by
  rw [localAddrs, List.filter_cons_of_neg (by rw [h]; decide), localAddrs]

theorem localAddrs_cons_of_addr (h : ent.1.isExtern = false) :
    localAddrs inp (ent :: ents) = inp.targetAddr ent.1 :: localAddrs inp ents := by
  rw [localAddrs, List.filter_cons_of_pos (by rw [h]; decide), localAddrs, List.map_cons]

theorem isChain_tail {r : UInt64 → UInt64 → Prop} {prev : Option UInt64} {addr : UInt64}
    {addrs : List UInt64} (h : (prev.toList ++ addr :: addrs).IsChain r) :
    (addr :: addrs).IsChain r := by
  cases prev with
  | none => exact h
  | some p => exact (List.isChain_cons_cons.mp h).2

theorem mapM_of_isChain (prev : Option UInt64)
    (hfill : fill inp rels (prev.bind inp.find) ents = some out)
    (hchain : (prev.toList ++ localAddrs inp ents).IsChain (FindsAgain inp)) :
    ents.mapM (translate inp rels) = some out := by
  induction ents generalizing prev out with
  | nil => exact hfill
  | cons ent ents ih =>
    rw [fill] at hfill
    rw [List.mapM_cons, translate]
    cases hsym : ent.1.isExtern with
    | true =>
      rw [hsym, if_pos rfl] at hfill
      rw [localAddrs_cons_of_sym hsym] at hchain
      obtain ⟨rest, hrest, rfl⟩ := Option.map_eq_some_iff.mp hfill
      rw [ih prev hrest hchain]
      rfl
    | false =>
      rw [hsym, if_neg Bool.false_ne_true] at hfill
      rw [localAddrs_cons_of_addr hsym] at hchain
      obtain ⟨target, htarget, hfill⟩ := Option.bind_eq_some_iff.mp hfill
      obtain ⟨rest, hrest, rfl⟩ := Option.map_eq_some_iff.mp hfill
      have hfind : inp.find (inp.targetAddr ent.1) = some target := by
        cases prev with
        | none => exact htarget
        | some p =>
          rw [Option.bind_some] at htarget
          cases hp : inp.find p with
          | none =>
            rw [hp] at htarget
            exact htarget
          | some t =>
            rw [hp, RelocInput.cached] at htarget
            split at htarget
            case isTrue hrange =>
              rw [← htarget]
              exact (List.isChain_cons_cons.mp hchain).1 t hp hrange
            case isFalse => exact htarget
      rw [if_neg Bool.false_ne_true, hfind]
      have hrest' : ents.mapM (translate inp rels) = some rest := by
        refine ih (some (inp.targetAddr ent.1)) ?_ (isChain_tail hchain)
        rw [Option.bind_some, hfind]
        exact hrest
      rw [hrest']
      rfl

theorem isChain_of_mapM (prev : Option UInt64)
    (hfill : fill inp rels (prev.bind inp.find) ents = some out)
    (hmapM : ents.mapM (translate inp rels) = some out) :
    (prev.toList ++ localAddrs inp ents).IsChain (FindsAgain inp) := by
  induction ents generalizing prev out with
  | nil => cases prev <;> simp [localAddrs]
  | cons ent ents ih =>
    rw [fill] at hfill
    rw [List.mapM_cons, translate] at hmapM
    obtain ⟨x, hx, hmapM⟩ := Option.bind_eq_some_iff.mp hmapM
    obtain ⟨rest, hrest, hout⟩ := Option.bind_eq_some_iff.mp hmapM
    obtain rfl := Option.some.inj hout
    cases hsym : ent.1.isExtern with
    | true =>
      rw [hsym, if_pos rfl] at hfill
      rw [localAddrs_cons_of_sym hsym]
      obtain ⟨rest', hrest', heq⟩ := Option.map_eq_some_iff.mp hfill
      obtain rfl := (List.cons.inj heq).2
      exact ih prev hrest' hrest
    | false =>
      rw [hsym, if_neg Bool.false_ne_true] at hfill hx
      rw [localAddrs_cons_of_addr hsym]
      obtain ⟨target, htarget, hbehind⟩ := Option.bind_eq_some_iff.mp hfill
      obtain ⟨rest', hrest', heq⟩ := Option.map_eq_some_iff.mp hbehind
      obtain ⟨target', hfind, rfl⟩ := Option.map_eq_some_iff.mp hx
      obtain ⟨hhead, rfl⟩ := List.cons.inj heq
      obtain rfl : target = target' :=
        RelocTarget.subsec.inj (congrArg Relocation.target hhead)
      have htail : (inp.targetAddr ent.1 :: localAddrs inp ents).IsChain (FindsAgain inp) := by
        refine ih (some (inp.targetAddr ent.1)) ?_ hrest
        rw [Option.bind_some, hfind]
        exact hrest'
      cases prev with
      | none => exact htail
      | some p =>
        refine List.isChain_cons_cons.mpr ⟨fun t hp hrange => ?_, htail⟩
        rw [Option.bind_some, hp, RelocInput.cached] at htarget
        simp only [hrange, if_true] at htarget
        rw [hfind, htarget]

/-! ## Order -/

def sortedEntries (rels : List MachRel) : List (MachRel × ℕ) :=
  stableSort (fun ent => ent.1.offset.toNat) rels.zipIdx

theorem pairwise_of_isIncreasing {l : List MachRel} (h : isIncreasing l = true) :
    l.zipIdx.Pairwise fun a b => a.1.offset.toNat ≤ b.1.offset.toNat := by
  have hpair := pairwise_of_zip_tail (r := fun a b : MachRel => a.offset.toNat ≤ b.offset.toNat)
    (fun _ _ _ => Nat.le_trans) fun p hp =>
      UInt32.le_iff_toNat_le.mp (of_decide_eq_true (List.all_eq_true.mp h p hp))
  rw [← List.pairwise_map (f := Prod.fst)
    (R := fun a b : MachRel => a.offset.toNat ≤ b.offset.toNat), List.zipIdx_map_fst]
  exact hpair

theorem pairwise_of_isDecreasing {l : List MachRel} (h : isDecreasing l = true) :
    l.zipIdx.Pairwise fun a b => b.1.offset.toNat ≤ a.1.offset.toNat := by
  have hpair := pairwise_of_zip_tail (r := fun a b : MachRel => b.offset.toNat ≤ a.offset.toNat)
    (fun _ _ _ hab hbc => Nat.le_trans hbc hab) fun p hp =>
      UInt32.le_iff_toNat_le.mp (of_decide_eq_true (List.all_eq_true.mp h p hp))
  rw [← List.pairwise_map (f := Prod.fst)
    (R := fun a b : MachRel => b.offset.toNat ≤ a.offset.toNat), List.zipIdx_map_fst]
  exact hpair

theorem fillOrder_eq (h : (isDecreasing rels || isIncreasing rels) = true) :
    fillOrder rels = sortedEntries rels := by
  rw [fillOrder, sortedEntries]
  split
  case isTrue hdec =>
    have hsorted := reverseGroups_reverse (pairwise_of_isDecreasing hdec)
    rwa [List.length_zipIdx] at hsorted
  case isFalse hdec =>
    rw [Bool.not_eq_true] at hdec
    rw [hdec, Bool.false_or] at h
    exact (stableSort_eq_self (pairwise_of_isIncreasing h)).symm

theorem fillOrder_of_not (h : (isDecreasing rels || isIncreasing rels) = false) :
    fillOrder rels = rels.zipIdx := by
  rw [fillOrder, (Bool.or_eq_false_iff.mp h).1, if_neg Bool.false_ne_true]

theorem perm_fillOrder (rels : List MachRel) : (fillOrder rels).Perm rels.zipIdx := by
  cases h : isDecreasing rels || isIncreasing rels with
  | true =>
    rw [fillOrder_eq h]
    exact perm_stableSort _ _
  | false => rw [fillOrder_of_not h]

theorem sortRelocationsByOffset_eq (l : List (Relocation τ σ)) :
    sortRelocationsByOffset l = stableSort Relocation.place l := by
  rw [sortRelocationsByOffset]
  split
  case isTrue hlen =>
    rcases l with _ | ⟨x, _ | ⟨y, l⟩⟩
    · rfl
    · rfl
    · simp only [List.length_cons] at hlen
      omega
  case isFalse =>
    split
    case isTrue hinc =>
      refine (stableSort_eq_self (pairwise_of_zip_tail
        (r := fun a b : Relocation τ σ => a.place ≤ b.place) (fun _ _ _ => Nat.le_trans)
        ?_)).symm
      exact fun p hp => UInt32.le_iff_toNat_le.mp
        (of_decide_eq_true (List.all_eq_true.mp hinc p hp))
    case isFalse =>
      split
      case isTrue hdec =>
        refine reverseGroups_reverse (pairwise_of_zip_tail
          (r := fun a b : Relocation τ σ => b.place ≤ a.place)
          (fun _ _ _ hab hbc => Nat.le_trans hbc hab) ?_)
        exact fun p hp => UInt32.le_iff_toNat_le.mp
          (of_decide_eq_true (List.all_eq_true.mp hdec p hp))
      case isFalse => rfl

theorem translateSorted_iff :
    translateSorted inp rels = some out ↔
      out = (sortedEntries rels).map (meaning inp rels) ∧
        ∀ ent ∈ rels.zipIdx, translate inp rels ent ≠ none := by
  have hsort : stableSort Relocation.place (rels.zipIdx.map (meaning inp rels)) =
      (sortedEntries rels).map (meaning inp rels) :=
    (map_stableSort (meaning inp rels) fun ent _ => place_meaning ent).symm
  rw [translateSorted, Option.map_eq_some_iff, ← hsort]
  constructor
  · rintro ⟨base, hbase, rfl⟩
    obtain ⟨rfl, hall⟩ := mapM_translate_iff.mp hbase
    exact ⟨rfl, hall⟩
  · rintro ⟨rfl, hall⟩
    exact ⟨_, mapM_translate_iff.mpr ⟨rfl, hall⟩, rfl⟩

theorem readSorted_eq_some (h : readSorted inp rels = some out) :
    ∃ filled, fill inp rels none (fillOrder rels) = some filled ∧
      out = if isDecreasing rels || isIncreasing rels then filled
        else stableSort Relocation.place filled := by
  obtain ⟨⟨filled, sorted⟩, hread, hout⟩ := Option.map_eq_some_iff.mp h
  obtain ⟨filled', hfill, heq⟩ := Option.map_eq_some_iff.mp hread
  obtain ⟨rfl, rfl⟩ := Prod.mk.inj heq
  refine ⟨filled', hfill, ?_⟩
  rw [← hout]
  cases isDecreasing rels || isIncreasing rels with
  | true => rfl
  | false =>
    simp only [Bool.not_false, Bool.true_and, decide_eq_true_eq, Bool.false_eq_true, if_false]
    split
    · exact sortRelocationsByOffset_eq filled'
    · rcases filled' with _ | ⟨x, _ | ⟨y, l⟩⟩
      · rfl
      · rfl
      · rename_i hlen
        simp only [List.length_cons] at hlen
        omega

theorem translateSorted_iff_mapM {filled : List (Relocation τ σ)}
    (hfill : fill inp rels none (fillOrder rels) = some filled) :
    translateSorted inp rels = some (if isDecreasing rels || isIncreasing rels then filled
        else stableSort Relocation.place filled) ↔
      (fillOrder rels).mapM (translate inp rels) = some filled := by
  have hall : (∀ ent ∈ rels.zipIdx, translate inp rels ent ≠ none) ↔
      ∀ ent ∈ fillOrder rels, translate inp rels ent ≠ none := by
    simp only [(perm_fillOrder rels).mem_iff]
  rw [translateSorted_iff, mapM_translate_iff, hall]
  refine and_congr_left fun _ => ?_
  cases h : isDecreasing rels || isIncreasing rels with
  | true => rw [if_pos rfl, fillOrder_eq h]
  | false =>
    have hsort : stableSort Relocation.place (rels.zipIdx.map (meaning inp rels)) =
        (sortedEntries rels).map (meaning inp rels) :=
      (map_stableSort (meaning inp rels) fun ent _ => place_meaning ent).symm
    have hplaces := places_fill hfill
    rw [fillOrder_of_not h] at hplaces
    rw [if_neg Bool.false_ne_true, fillOrder_of_not h, ← hsort]
    refine ⟨fun heq => eq_of_stableSort_eq ?_ heq, fun heq => by rw [heq]⟩
    rw [hplaces, List.map_map]
    exact List.map_congr_left fun ent _ => (place_meaning ent).symm

theorem mem_sortedEntries_iff (ent : MachRel × ℕ) :
    ent ∈ sortedEntries rels ↔ rels[ent.2]? = some ent.1 :=
  (perm_stableSort _ _).mem_iff.trans List.mem_zipIdx_iff_getElem?

theorem neighbours_sortedEntries {i : ℕ} {r r' : MachRel} (hr : rels[i]? = some r)
    (hr' : rels[i + 1]? = some r') (hoffset : r'.offset = r.offset) :
    ∃ p, (sortedEntries rels)[p]? = some (r, i) ∧
      (sortedEntries rels)[p + 1]? = some (r', i + 1) := by
  have hsorted : (sortedEntries rels).Pairwise (Precedes fun r => r.offset.toNat) :=
    pairwise_stableSort_zipIdx (fun r : MachRel => r.offset.toNat) rels
  have hpair := List.pairwise_iff_getElem.mp hsorted
  obtain ⟨p, hp, hpeq⟩ := List.mem_iff_getElem.mp ((mem_sortedEntries_iff (r, i)).mpr hr)
  obtain ⟨q, hq, hqeq⟩ := List.mem_iff_getElem.mp ((mem_sortedEntries_iff (r', i + 1)).mpr hr')
  have hlt : p < q := by
    rcases Nat.lt_trichotomy p q with hlt | rfl | hgt
    · exact hlt
    · rw [hpeq] at hqeq
      have hi := congrArg Prod.snd hqeq
      exact absurd hi (Nat.ne_of_lt (Nat.lt_succ_self i))
    · have horder := hpair q p hq hp hgt
      rw [hqeq, hpeq, precedes_iff, hoffset] at horder
      simp only at horder
      omega
  refine ⟨p, List.getElem?_eq_some_iff.mpr ⟨hp, hpeq⟩, ?_⟩
  rcases Nat.lt_or_eq_of_le (Nat.succ_le_of_lt hlt) with hbetween | rfl
  · exfalso
    have hp1 := Nat.lt_trans hbetween hq
    have hbefore := hpair p (p + 1) hp hp1 (Nat.lt_succ_self p)
    have hbehind := hpair (p + 1) q hp1 hq hbetween
    rw [hpeq, precedes_iff] at hbefore
    rw [hqeq, precedes_iff, hoffset] at hbehind
    simp only at hbefore hbehind
    omega
  · exact List.getElem?_eq_some_iff.mpr ⟨hq, hqeq⟩

theorem isSubtracted_of_translate {x : Relocation τ σ} (h : translate inp rels ent = some x) :
    x.isSubtracted = isBehindSubtractor rels ent.2 := by
  rw [translate] at h
  split at h
  · obtain rfl := Option.some.inj h
    rfl
  · obtain ⟨target, -, rfl⟩ := Option.map_eq_some_iff.mp h
    rfl

theorem readOk_of_sorted (h : translateSorted inp rels = some out) : ReadOk inp rels out := by
  obtain ⟨rfl, hall⟩ := translateSorted_iff.mp h
  have hmeaning (ent : MachRel × ℕ) (hent : rels[ent.2]? = some ent.1) :
      translate inp rels ent = some (meaning inp rels ent) := by
    obtain ⟨x, hx⟩ := Option.ne_none_iff_exists'.mp
      (hall ent (List.mem_zipIdx_iff_getElem?.mpr hent))
    rw [meaning, hx, Option.getD_some]
  refine ⟨h, fun i r r' hr _ hr' hoffset => ?_, fun x hx => ?_⟩
  · obtain ⟨p, hp, hp'⟩ := neighbours_sortedEntries hr hr' hoffset
    refine ⟨p, meaning inp rels (r, i), meaning inp rels (r', i + 1), ?_, ?_,
      hmeaning (r, i) hr, hmeaning (r', i + 1) hr'⟩
    · rw [List.getElem?_map, hp, Option.map_some]
    · rw [List.getElem?_map, hp', Option.map_some]
  · constructor
    · intro hmarked
      obtain ⟨⟨r', k⟩, hent, rfl⟩ := List.mem_map.mp hx
      have hk := (mem_sortedEntries_iff (r', k)).mp hent
      rw [isSubtracted_of_translate (hmeaning _ hk), isBehindSubtractor, Bool.and_eq_true,
        decide_eq_true_eq, beq_iff_eq] at hmarked
      obtain ⟨hpos, htype⟩ := hmarked
      obtain ⟨r, hr, htype⟩ := Option.map_eq_some_iff.mp htype
      have hsucc : k - 1 + 1 = k := Nat.sub_add_cancel hpos
      refine ⟨k - 1, r, r', hr, htype, ?_, ?_⟩
      · rw [hsucc]
        exact hk
      · rw [hsucc]
        exact hmeaning _ hk
    · rintro ⟨i, r, r', hr, htype, hr', htranslate⟩
      rw [isSubtracted_of_translate htranslate, isBehindSubtractor, Nat.add_sub_cancel, hr,
        Option.map_some, htype]
      simp

/-- Reading gives the stable sort of what each entry means exactly if what is kept
would be found again. -/
theorem readOk_iff {out : List (Relocation τ σ)} (h : readSorted inp rels = some out) :
    ReadOk inp rels out ↔ CacheAgrees inp rels := by
  obtain ⟨filled, hfill, rfl⟩ := readSorted_eq_some h
  have hiff := translateSorted_iff_mapM hfill
  constructor
  · intro hok
    exact isChain_of_mapM none hfill (hiff.mp hok.sorted)
  · intro hagrees
    exact readOk_of_sorted (hiff.mpr (mapM_of_isChain none hfill hagrees))

def exampleInput (subsections : List Span) : RelocInput Unit Span where
  addr := 0
  contents := fun i => if i = 0 then 16 else if i = 8 then 4 else 0
  syms := fun _ => ()
  subsections := subsections
  subsectionLookup := []
  inputAddr := Span.inputAddr
  inputSize := Span.inputSize

def exampleSubsections : List Span :=
  [{ isec := 0, inputAddr := 0, inputSize := 16, p2align := 0 },
    { isec := 1, inputAddr := 16, inputSize := 8, p2align := 0 }]

def exampleCommon : Span := { isec := 2, inputAddr := 0, inputSize := 8, p2align := 3 }

/-- A table that descends: a word, and a difference in front of it. -/
def exampleRels : List MachRel :=
  [{ offset := 8 }, { offset := 0, isExtern := true, type := relocSubtractor }, { offset := 0 }]

theorem readOk_example :
    ∃ out, readSorted (exampleInput exampleSubsections) exampleRels = some out ∧
      ReadOk (exampleInput exampleSubsections) exampleRels out := by
  refine ⟨_, rfl, (readOk_iff rfl).mpr ?_⟩
  refine List.isChain_cons_cons.mpr ⟨fun target htarget hrange => ?_, .singleton _⟩
  obtain rfl := Option.some.inj htarget
  exact absurd hrange (by decide)

/-- With a common symbol's subsection behind, the first address leads to that, and it is kept
for the second one. -/
theorem not_readOk_example :
    ∃ out, readSorted (exampleInput (exampleSubsections ++ [exampleCommon]))
        [{ offset := 0 }, { offset := 8 }] = some out ∧
      ¬ ReadOk (exampleInput (exampleSubsections ++ [exampleCommon]))
        [{ offset := 0 }, { offset := 8 }] out := by
  refine ⟨_, rfl, fun hok => ?_⟩
  have htargets := congrArg (Option.map (List.map Relocation.target)) hok.sorted
  revert htargets
  decide

end Mold.MachO.Subsections
