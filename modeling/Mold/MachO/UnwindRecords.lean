import Mold.MachO.UnwindEncode

/-!
# What the merged unwind records say

Completing the encodings changes nothing else.  After sorting, the functions
follow one another, and so the record of an address is the last one that does
not begin behind it.  That is still so after merging, as far as the encoding is
concerned: a record that has been merged into another one has the same encoding,
and no record is left between the two.
-/

namespace Mold.MachO.UnwindInfo

open Mold.Lib Mold.MachO.EhFrame

variable {σ τ : Type*}

section Encoded

variable [DecidableEq τ] {image : Image σ τ}

/-- The record `out` is the record `rec` with the right encoding. -/
structure Image.Completes (image : Image σ τ) (personalities : List τ)
    (rec out : EhFrame.UnwindRecord σ τ) : Prop where
  fields : out = { rec with encoding := out.encoding }
  encoding_lt : out.encoding < 2 ^ 32
  right : rec.encoding < 2 ^ 32 →
    (rec.personality.isSome = true → rec.encoding / 2 ^ 28 % 4 = 0) →
      image.RightEncoding personalities rec out.encoding

variable {ps ps' : List τ}

omit [DecidableEq τ] in
theorem Image.RightEncoding.mono {rec : EhFrame.UnwindRecord σ τ}
    {e : ℕ} (h : image.RightEncoding ps rec e) (hps : ps <+: ps') :
    image.RightEncoding ps' rec e := by
  unfold Image.RightEncoding at h ⊢
  split at h
  · exact h
  · obtain ⟨hlow, hhigh, i, hi, hget⟩ := h
    obtain ⟨rest, rfl⟩ := hps
    obtain ⟨hlt, hget⟩ := List.getElem?_eq_some_iff.mp hget
    refine ⟨hlow, hhigh, i, hi, ?_⟩
    rw [List.getElem?_append_left hlt, List.getElem?_eq_getElem hlt, hget]
  · exact h

theorem personality_or {e k : ℕ} (hk : k < 4) (he : e / 2 ^ 28 % 4 = 0) :
    (e ||| k * 2 ^ 28) % 2 ^ 28 = e % 2 ^ 28 ∧ (e ||| k * 2 ^ 28) / 2 ^ 30 = e / 2 ^ 30 ∧
      (e ||| k * 2 ^ 28) / 2 ^ 28 % 4 = k := by
  have hhigh : k * 2 ^ 28 / 2 ^ 30 = 0 := by omega
  have hfield : (e / 2 ^ 28 ||| k) % 2 ^ 2 = e / 2 ^ 28 % 2 ^ 2 ||| k % 2 ^ 2 :=
    Nat.or_mod_two_pow
  refine ⟨?_, ?_, ?_⟩
  · rw [Nat.or_mod_two_pow, Nat.mul_mod_left, Nat.or_zero]
  · rw [Nat.or_div_two_pow, hhigh, Nat.or_zero]
  · rw [Nat.or_div_two_pow, Nat.mul_div_cancel _ (Nat.two_pow_pos 28)]
    calc
      (e / 2 ^ 28 ||| k) % 4 = e / 2 ^ 28 % 4 ||| k % 4 := hfield
      _ = k := by rw [he, Nat.zero_or, Nat.mod_eq_of_lt hk]

theorem encodePersonality_spec {sym : τ} {bits : ℕ}
    (h : EhFrame.Link.encodePersonality ps sym = some (ps', bits))
    (hlen : ps.length ≤ 3) :
    ps <+: ps' ∧ ps'.length ≤ 3 ∧ ∃ i < 3, bits = (i + 1) * 2 ^ 28 ∧ ps'[i]? = some sym := by
  rw [EhFrame.Link.encodePersonality] at h
  split at h
  · next hmem =>
      obtain ⟨rfl, rfl⟩ := Prod.mk.inj (Option.some.inj h)
      have hlt := List.idxOf_lt_length_of_mem hmem
      exact ⟨List.prefix_refl _, hlen, _, Nat.lt_of_lt_of_le hlt hlen, rfl,
        List.getElem?_idxOf hmem⟩
  · split at h
    · exact absurd h (by simp)
    · next hne =>
        obtain ⟨rfl, rfl⟩ := Prod.mk.inj (Option.some.inj h)
        have hlt : ps.length < 3 := Nat.lt_of_le_of_ne hlen hne
        refine ⟨List.prefix_append _ _, ?_, _, hlt, rfl, List.getElem?_concat_length⟩
        rw [List.length_append]
        exact hlt

variable {recs out : List (EhFrame.UnwindRecord σ τ)}

theorem encodeRecords_completes
    (h : EhFrame.Link.encodeRecords image.target image.fdeOutputOffset ps recs =
      some (ps', out)) (hlen : ps.length ≤ 3)
    (hlt : ∀ rec ∈ recs, rec.encoding < 2 ^ 32) :
    ps <+: ps' ∧ ps'.length ≤ 3 ∧ List.Forall₂ (image.Completes ps') recs out := by
  induction recs generalizing ps out with
  | nil =>
    rw [EhFrame.Link.encodeRecords, Option.some_inj] at h
    obtain ⟨rfl, rfl⟩ := Prod.mk.inj h
    exact ⟨List.prefix_refl _, hlen, List.Forall₂.nil⟩
  | cons rec recs ih =>
    have hrec := hlt rec List.mem_cons_self
    have hrecs : ∀ r ∈ recs, r.encoding < 2 ^ 32 :=
      fun r hr => hlt r (List.mem_cons_of_mem _ hr)
    rw [EhFrame.Link.encodeRecords] at h
    split at h
    · next _ ptr hfde =>
        obtain ⟨⟨ps'', out'⟩, hout, heq⟩ := Option.map_eq_some_iff.mp h
        obtain ⟨rfl, rfl⟩ := Prod.mk.inj heq
        obtain ⟨hinit, hthree, hcompletes⟩ := ih hout hlen hrecs
        refine ⟨hinit, hthree, List.Forall₂.cons ⟨rfl, ?_, ?_⟩ hcompletes⟩
        · apply Nat.or_lt_two_pow
          · cases image.target <;> decide
          · exact image.fdeOutputOffset_lt ptr
        · intro _ _
          simp [Image.RightEncoding, hfde]
    · next sym hfde hpersonality =>
        split at h
        · exact absurd h (by simp)
        · next ps₁ bits hbits =>
            obtain ⟨⟨ps'', out'⟩, hout, heq⟩ := Option.map_eq_some_iff.mp h
            obtain ⟨rfl, rfl⟩ := Prod.mk.inj heq
            obtain ⟨hfirst, hlen', i, hi, rfl, hget⟩ := encodePersonality_spec hbits hlen
            obtain ⟨hinit, hthree, hcompletes⟩ := ih hout hlen' hrecs
            refine ⟨hfirst.trans hinit, hthree, List.Forall₂.cons ⟨rfl, ?_, ?_⟩ hcompletes⟩
            · exact Nat.or_lt_two_pow hrec (by omega)
            · intro _ hclear
              have hbits := personality_or (Nat.succ_lt_succ hi)
                (hclear (by rw [hpersonality]; rfl))
              have hright : image.RightEncoding ps₁ rec (rec.encoding ||| (i + 1) * 2 ^ 28) := by
                simp only [Image.RightEncoding, hfde, hpersonality]
                exact ⟨hbits.1, hbits.2.1, i, hbits.2.2, hget⟩
              exact hright.mono hinit
    · next hfde hpersonality =>
        obtain ⟨⟨ps'', out'⟩, hout, heq⟩ := Option.map_eq_some_iff.mp h
        obtain ⟨rfl, rfl⟩ := Prod.mk.inj heq
        obtain ⟨hinit, hthree, hcompletes⟩ := ih hout hlen hrecs
        refine ⟨hinit, hthree, List.Forall₂.cons ⟨rfl, hrec, ?_⟩ hcompletes⟩
        intro _ _
        simp [Image.RightEncoding, hfde, hpersonality]

omit [DecidableEq τ] in
theorem exists_of_mem_completed {ps : List τ}
    (h : List.Forall₂ (image.Completes ps) recs out) {rec' : EhFrame.UnwindRecord σ τ}
    (hrec' : rec' ∈ out) : ∃ rec ∈ recs, image.Completes ps rec rec' := by
  induction h with
  | nil => exact absurd hrec' List.not_mem_nil
  | cons hhead _ ih =>
    rcases List.mem_cons.mp hrec' with rfl | hmem
    · exact ⟨_, List.mem_cons_self, hhead⟩
    · obtain ⟨rec, hrec, hcomplete⟩ := ih hmem
      exact ⟨rec, List.mem_cons_of_mem _ hrec, hcomplete⟩

omit [DecidableEq τ] in
theorem exists_completed {ps : List τ}
    (h : List.Forall₂ (image.Completes ps) recs out) {rec : EhFrame.UnwindRecord σ τ}
    (hrec : rec ∈ recs) : ∃ rec' ∈ out, image.Completes ps rec rec' := by
  induction h with
  | nil => exact absurd hrec List.not_mem_nil
  | cons hhead _ ih =>
    rcases List.mem_cons.mp hrec with rfl | hmem
    · exact ⟨_, List.mem_cons_self, hhead⟩
    · obtain ⟨rec', hrec', hcomplete⟩ := ih hmem
      exact ⟨rec', List.mem_cons_of_mem _ hrec', hcomplete⟩

omit [DecidableEq τ] in
theorem map_eq_of_completes {β : Type*} {ps : List τ}
    (h : List.Forall₂ (image.Completes ps) recs out)
    (f : EhFrame.UnwindRecord σ τ → β)
    (hf : ∀ rec (e : ℕ), f { rec with encoding := e } = f rec) :
    recs.map f = out.map f := by
  rw [← List.forall₂_eq_eq_eq, List.forall₂_map_left_iff, List.forall₂_map_right_iff]
  refine h.imp fun rec rec' hrec => ?_
  have hsame : f rec' = f { rec with encoding := rec'.encoding } :=
    congrArg f hrec.fields
  rw [hsame]
  exact (hf rec rec'.encoding).symm

end Encoded

/-! ## The order of the functions -/

/-- The functions follow one another, and the addresses have the same bits from 32
on. -/
structure Image.Ordered (image : Image σ τ) (l : List (EhFrame.UnwindRecord σ τ)) : Prop where
  codeLen_pos : ∀ rec ∈ l, 0 < rec.codeLen
  precedes : l.Pairwise fun a b => image.funcAddr a + a.codeLen ≤ image.funcAddr b
  block : ∀ rec ∈ l, (image.funcAddr rec + rec.codeLen) / 2 ^ 32 = image.machHdrAddr / 2 ^ 32

theorem Image.machHdrAddr_le_funcAddr (image : Image σ τ)
    (rec : EhFrame.UnwindRecord σ τ) : image.machHdrAddr ≤ image.funcAddr rec :=
  Nat.le_trans (image.machHdrAddr_le rec.subsec) (Nat.le_add_right _ _)

section Order

variable {image : Image σ τ}

theorem Image.Ordered.tail {rec : EhFrame.UnwindRecord σ τ}
    {rest : List (EhFrame.UnwindRecord σ τ)} (h : image.Ordered (rec :: rest)) :
    image.Ordered rest where
  codeLen_pos r hr := h.codeLen_pos r (List.mem_cons_of_mem _ hr)
  precedes := (List.pairwise_cons.mp h.precedes).2
  block r hr := h.block r (List.mem_cons_of_mem _ hr)

theorem Image.Fits.ordered_sortRecords (h : image.Fits)
    {ps : List τ} {records : List (EhFrame.UnwindRecord σ τ)}
    (hcompletes : List.Forall₂ (image.Completes ps) image.records records) :
    image.Ordered (sortRecords image.addr records) := by
  have hrange : image.records.map (fun rec => (image.funcAddr rec, rec.codeLen)) =
      records.map fun rec => (image.funcAddr rec, rec.codeLen) :=
    map_eq_of_completes hcompletes _ fun _ _ => rfl
  have hmem : ∀ rec ∈ sortRecords image.addr records, ∃ rec' ∈ image.records,
      image.funcAddr rec' = image.funcAddr rec ∧ rec'.codeLen = rec.codeLen := by
    intro rec hrec
    have hin : (image.funcAddr rec, rec.codeLen) ∈
        records.map fun rec => (image.funcAddr rec, rec.codeLen) :=
      List.mem_map_of_mem (List.mem_mergeSort.mp hrec)
    rw [← hrange] at hin
    obtain ⟨rec', hrec', heq⟩ := List.mem_map.mp hin
    obtain ⟨haddr, hlen⟩ := Prod.mk.inj heq
    exact ⟨rec', hrec', haddr, hlen⟩
  have hpos : ∀ rec ∈ sortRecords image.addr records, 0 < rec.codeLen := by
    intro rec hrec
    obtain ⟨rec', hrec', -, hlen⟩ := hmem rec hrec
    exact hlen ▸ h.codeLen_pos rec' hrec'
  have hapart : (sortRecords image.addr records).Pairwise fun a b =>
      ∀ x, ¬ (image.InRange a x ∧ image.InRange b x) := by
    have hpairs : (records.map fun rec => (image.funcAddr rec, rec.codeLen)).Pairwise
        fun a b => ∀ x, ¬ ((a.1 ≤ x ∧ x < a.1 + a.2) ∧ b.1 ≤ x ∧ x < b.1 + b.2) := by
      rw [← hrange, List.pairwise_map]
      exact h.disjoint
    rw [List.pairwise_map] at hpairs
    refine (List.Perm.pairwise_iff ?_ (List.mergeSort_perm records _)).mpr hpairs
    intro a b hab x hx
    exact hab x ⟨hx.2, hx.1⟩
  constructor
  · exact hpos
  · have hsorted := pairwise_sortRecords image.addr records
    refine (hsorted.and hapart).imp_of_mem fun {a b} _ hb hab => ?_
    by_contra hlt
    have hposb := hpos b hb
    refine hab.2 (image.funcAddr b) ⟨⟨hab.1, Nat.lt_of_not_le hlt⟩, Nat.le_refl _, ?_⟩
    exact Nat.lt_add_of_pos_right hposb
  · intro rec hrec
    obtain ⟨rec', hrec', haddr, hlen⟩ := hmem rec hrec
    have hblock := h.funcEnd rec' hrec'
    rwa [haddr, hlen] at hblock

end Order

section Merge

variable [DecidableEq τ] {image : Image σ τ} {target : Target}

theorem canMerge_spec {addr : σ → ℕ} {a b : EhFrame.UnwindRecord σ τ}
    (h : canMerge target addr a b = true) :
    getFuncAddr addr a + a.codeLen = getFuncAddr addr b ∧ a.encoding = b.encoding ∧
      a.personality = b.personality ∧ a.fde = b.fde ∧ a.lsda = none ∧
      b.lsda = none := by
  simp only [canMerge, Bool.and_eq_true, beq_iff_eq, Option.isNone_iff_eq_none] at h
  obtain ⟨⟨⟨⟨⟨⟨-, hend⟩, hencoding⟩, hpersonality⟩, hfde⟩, ha⟩, hb⟩ := h
  exact ⟨hend, hencoding, hpersonality, hfde, ha, hb⟩

omit [DecidableEq τ] in
theorem codeLen_add {rec next : EhFrame.UnwindRecord σ τ}
    (hend : image.funcAddr rec + rec.codeLen = image.funcAddr next)
    (hblock : (image.funcAddr next + next.codeLen) / 2 ^ 32 = image.machHdrAddr / 2 ^ 32) :
    (rec.codeLen + next.codeLen) % 2 ^ 32 = rec.codeLen + next.codeLen := by
  have hle := image.machHdrAddr_le_funcAddr rec
  apply Nat.mod_eq_of_lt
  omega

variable {rest : List (EhFrame.UnwindRecord σ τ)}

omit [DecidableEq τ] in
theorem Image.Ordered.merge {rec next : EhFrame.UnwindRecord σ τ}
    (h : image.Ordered (rec :: next :: rest))
    (hend : image.funcAddr rec + rec.codeLen = image.funcAddr next) :
    image.Ordered ({ rec with codeLen := (rec.codeLen + next.codeLen) % 2 ^ 32 } :: rest) := by
  have hnext := h.block next (List.mem_cons_of_mem _ List.mem_cons_self)
  have hlen := codeLen_add hend hnext
  have hpos := h.codeLen_pos rec List.mem_cons_self
  have hprecedes := (List.pairwise_cons.mp h.tail.precedes).1
  rw [hlen]
  constructor
  · intro r hr
    rcases List.mem_cons.mp hr with rfl | hr
    · exact Nat.add_pos_left hpos _
    · exact h.tail.tail.codeLen_pos r hr
  · refine List.pairwise_cons.mpr ⟨?_, h.tail.tail.precedes⟩
    intro r hr
    calc
      image.funcAddr rec + (rec.codeLen + next.codeLen) =
          image.funcAddr next + next.codeLen := by rw [← Nat.add_assoc, hend]
      _ ≤ image.funcAddr r := hprecedes r hr
  · intro r hr
    rcases List.mem_cons.mp hr with rfl | hr
    · calc
        (image.funcAddr rec + (rec.codeLen + next.codeLen)) / 2 ^ 32 =
            (image.funcAddr next + next.codeLen) / 2 ^ 32 := by
          rw [← Nat.add_assoc, hend]
        _ = image.machHdrAddr / 2 ^ 32 := hnext
    · exact h.tail.tail.block r hr

/-- The last of the records that does not begin behind `x` has the encoding. -/
def Image.Found (image : Image σ τ) (records : List (EhFrame.UnwindRecord σ τ))
    (x encoding : ℕ) : Prop :=
  ∃ front rec back, records = front ++ rec :: back ∧ image.funcAddr rec ≤ x ∧
    (∀ b ∈ back, x < image.funcAddr b) ∧ rec.encoding = encoding

variable {records : List (EhFrame.UnwindRecord σ τ)}

omit [DecidableEq τ] in
theorem Image.Found.cons {x e : ℕ} (h : image.Found records x e) (rec : EhFrame.UnwindRecord σ τ) :
    image.Found (rec :: records) x e := by
  obtain ⟨front, r, back, rfl, hle, hback, he⟩ := h
  exact ⟨rec :: front, r, back, rfl, hle, hback, he⟩

theorem exists_of_mem_mergeFrom {rec m : EhFrame.UnwindRecord σ τ}
    (hm : m ∈ mergeFrom target image.addr rec rest) :
    ∃ r ∈ rec :: rest, image.funcAddr r = image.funcAddr m := by
  have hmem := (mergeFrom_sublist target image.addr rec rest).subset (List.mem_map_of_mem hm)
  obtain ⟨r, hr, heq⟩ := List.mem_map.mp hmem
  have haddr : image.funcAddr (withoutLen r) = image.funcAddr (withoutLen m) := by
    rw [heq]
  exact ⟨r, hr, haddr⟩

theorem mergeFrom_found {rec s : EhFrame.UnwindRecord σ τ} (hord : image.Ordered (rec :: rest))
    (hs : s ∈ rec :: rest) {x : ℕ} (hx : image.InRange s x) :
    image.Found (mergeFrom target image.addr rec rest) x s.encoding := by
  induction rest generalizing rec s with
  | nil =>
    obtain rfl := List.mem_singleton.mp hs
    exact ⟨[], s, [], rfl, hx.1, by simp, rfl⟩
  | cons next rest ih =>
    rw [mergeFrom]
    split
    · next hmerge =>
        obtain ⟨hend, hencoding, -⟩ := canMerge_spec hmerge
        have hord' := hord.merge hend
        have hlen := codeLen_add hend (hord.block next (List.mem_cons_of_mem _ List.mem_cons_self))
        -- the merged record covers both functions
        have hcover : s = rec ∨ s = next → image.InRange
            { rec with codeLen := (rec.codeLen + next.codeLen) % 2 ^ 32 } x ∧
              s.encoding = rec.encoding := by
          have hend' : image.funcAddr rec + rec.codeLen = image.funcAddr next := hend
          rw [hlen]
          rintro (rfl | rfl)
          · refine ⟨⟨hx.1, Nat.lt_of_lt_of_le hx.2 ?_⟩, rfl⟩
            exact Nat.add_le_add_left (Nat.le_add_right _ _) _
          · refine ⟨⟨?_, ?_⟩, hencoding.symm⟩
            · refine Nat.le_trans ?_ hx.1
              rw [← hend']
              exact Nat.le_add_right _ _
            · have hlt := hx.2
              rw [← hend', Nat.add_assoc] at hlt
              exact hlt
        rw [List.mem_cons, List.mem_cons, ← or_assoc] at hs
        rcases hs with hs | hs
        · obtain ⟨hrange, he⟩ := hcover hs
          have hfound := ih hord' List.mem_cons_self hrange
          rw [he]
          exact hfound
        · exact ih hord' (List.mem_cons_of_mem _ hs) hx
    · rcases List.mem_cons.mp hs with rfl | hs
      · refine ⟨[], s, _, rfl, hx.1, ?_, rfl⟩
        intro m hm
        obtain ⟨r, hr, heq⟩ := exists_of_mem_mergeFrom hm
        rw [← heq]
        exact Nat.lt_of_lt_of_le hx.2 ((List.pairwise_cons.mp hord.precedes).1 r hr)
      · exact (ih hord.tail hs hx).cons rec

theorem mergeUnwindRecords_found
    (hord : image.Ordered records) {s : EhFrame.UnwindRecord σ τ} (hs : s ∈ records)
    {x : ℕ} (hx : image.InRange s x) :
    image.Found (mergeUnwindRecords target image.addr records) x s.encoding := by
  cases records with
  | nil => exact absurd hs List.not_mem_nil
  | cons rec rest => exact mergeFrom_found hord hs hx

theorem mergeFrom_filter_lsda (rec : EhFrame.UnwindRecord σ τ)
    (rest : List (EhFrame.UnwindRecord σ τ)) :
    (mergeFrom target image.addr rec rest).filter (fun r => r.lsda.isSome) =
      (rec :: rest).filter fun r => r.lsda.isSome := by
  induction rest generalizing rec with
  | nil => rfl
  | cons next rest ih =>
    rw [mergeFrom]
    split
    · next hmerge =>
        obtain ⟨-, -, -, -, hrec, hnext⟩ := canMerge_spec hmerge
        rw [ih, List.filter_cons_of_neg (by simp [hrec]), List.filter_cons_of_neg (by simp [hrec]),
          List.filter_cons_of_neg (by simp [hnext])]
    · simp only [List.filter_cons, ih]

theorem mergeUnwindRecords_filter_lsda (records : List (EhFrame.UnwindRecord σ τ)) :
    (mergeUnwindRecords target image.addr records).filter (fun r => r.lsda.isSome) =
      records.filter fun r => r.lsda.isSome := by
  cases records with
  | nil => rfl
  | cons rec rest => exact mergeFrom_filter_lsda rec rest

theorem getLast_mergeFrom {rec first prev : EhFrame.UnwindRecord σ τ}
    (hord : image.Ordered (rec :: rest))
    (hprev : ∀ next, canMerge target image.addr rec next = canMerge target image.addr prev next)
    (hfirst : rec.subsec = first.subsec) :
    (mergeFrom target image.addr rec rest).getLast?.map (fun r => r.subsec) =
      some (lastRunFrom target image.addr first prev rest).subsec := by
  induction rest generalizing rec first prev with
  | nil =>
    rw [mergeFrom, lastRunFrom, ← hfirst]
    rfl
  | cons next rest ih =>
    rw [mergeFrom, lastRunFrom, ← hprev next]
    split
    · next hmerge =>
        obtain ⟨hend, hencoding, hpersonality, hfde, hrec, hnext⟩ :=
          canMerge_spec hmerge
        have hlen := codeLen_add hend (hord.block next (List.mem_cons_of_mem _ List.mem_cons_self))
        refine ih (hord.merge hend) ?_ hfirst
        intro r
        have hsum : getFuncAddr image.addr rec + (rec.codeLen + next.codeLen) =
            getFuncAddr image.addr next + next.codeLen := by
          rw [← Nat.add_assoc, hend]
        rw [hlen, canMerge, canMerge, ← hencoding, ← hpersonality, ← hfde, hrec, hnext, ← hsum]
        rfl
    · have hlast : ∀ l : List (EhFrame.UnwindRecord σ τ), l ≠ [] →
          (rec :: l).getLast? = l.getLast? := by
        intro l hl
        rw [List.getLast?_cons, List.getLast?_eq_some_getLast hl, Option.getD_some]
      rw [hlast]
      · exact ih hord.tail (fun _ => rfl) rfl
      · intro hnil
        have hself : image.InRange next (image.funcAddr next) :=
          ⟨Nat.le_refl _, Nat.lt_add_of_pos_right (hord.tail.codeLen_pos next List.mem_cons_self)⟩
        have hfound : image.Found (mergeFrom target image.addr next rest)
            (image.funcAddr next) next.encoding :=
          mergeFrom_found hord.tail List.mem_cons_self hself
        rw [hnil] at hfound
        obtain ⟨front, r, back, hnil', -⟩ := hfound
        simp at hnil'

theorem getLast_mergeUnwindRecords (hord : image.Ordered records) :
    (mergeUnwindRecords target image.addr records).getLast?.map (fun r => r.subsec) =
      (lastRun target image.addr records).map fun r => r.subsec := by
  cases records with
  | nil => rfl
  | cons rec rest => exact getLast_mergeFrom hord (fun _ => rfl) rfl

end Merge

end Mold.MachO.UnwindInfo
