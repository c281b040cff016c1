import Mold.Elf.I386Relocs

/-!
# What the scan asks for

The entries that `scan_relocations` makes, each for the relocations that want it.  The loop over
all sections accepts what it accepts in each sequence by itself, as it skips only the calls that
belong to sequences.
-/

namespace Mold.Elf.I386

open Mold.Lib Mold.Lib.I386

section Asks

variable {σ : Type*} {L : Link σ} {contents : Memory} {rel : Rel σ} {next : Option RelType}
  {asks asks' : List (Entry σ)} {skip : Bool}

/-- A relocation asks for a GOT entry whatever its symbol is. -/
def Link.needsGot (L : Link σ) (contents : Memory) (rel : Rel σ) : Bool :=
  match rel.rType with
  | .got32 | .gotpc => true
  | .got32x => !doRelax contents rel (L.symbols rel.rSym)
  | _ => false

def Link.Wants (L : Link σ) (contents : Memory) (rel : Rel σ) : Entry σ → Prop
  | .got sym => rel.rSym = sym ∧
      (rel.rType ≠ .none ∧ (L.symbols sym).isIfunc = true ∨ L.needsGot contents rel = true)
  | .tlsgd sym => rel.rSym = sym ∧ rel.rType = .tlsGd ∧ L.relaxTls (L.symbols sym) = false
  | .tlsdesc sym =>
    rel.rSym = sym ∧ rel.rType = .tlsGotdesc ∧ L.relaxTls (L.symbols sym) = false
  | .tlsld => rel.rType = .tlsLdm ∧ L.relaxLdm = false

def Link.relaxesPair (L : Link σ) (rel : Rel σ) : Bool :=
  match rel.rType with
  | .tlsGd => L.relaxTls (L.symbols rel.rSym)
  | .tlsLdm => L.relaxLdm
  | _ => false

theorem scanPair_eq_some {relaxes : Bool} {entry : Entry σ}
    (h : scanPair rel next relaxes entry asks = some (asks', skip)) :
    skip = relaxes ∧ asks' = if relaxes then asks else asks ++ [entry] := by
  rw [scanPair, Option.bind_eq_some_iff] at h
  obtain ⟨ty, -, hty⟩ := h
  split at hty
  case isFalse => cases hty
  case isTrue =>
    split at hty
    case isTrue hrelaxes =>
      obtain ⟨n, -, hn⟩ := Option.bind_eq_some_iff.mp hty
      obtain ⟨-, -, heq⟩ := Option.map_eq_some_iff.mp hn
      obtain ⟨rfl, rfl⟩ := Prod.mk.injEq _ _ _ _ ▸ heq
      exact ⟨hrelaxes.symm, (if_pos hrelaxes).symm⟩
    case isFalse hrelaxes =>
      obtain ⟨rfl, rfl⟩ := Prod.mk.injEq _ _ _ _ ▸ Option.some_inj.mp hty
      exact ⟨((Bool.not_eq_true _).mp hrelaxes).symm, (if_neg hrelaxes).symm⟩

theorem scanStep_eq_some (h : L.scanStep contents rel next asks = some (asks', skip)) :
    skip = L.relaxesPair rel ∧ ∀ e, e ∈ asks' ↔ e ∈ asks ∨ L.Wants contents rel e := by
  rw [Link.scanStep] at h
  cases htype : rel.rType with
  | none | pc32 | plt32 | tlsDescCall | other | got32 | gotpc | got32x =>
    simp only [htype] at h
    obtain ⟨rfl, rfl⟩ := Prod.mk.injEq _ _ _ _ ▸ Option.some_inj.mp h
    refine ⟨by rw [Link.relaxesPair, htype], fun e => ?_⟩
    cases e <;> simp [Link.Wants, Link.needsGot, htype] <;> grind
  | tlsGd | tlsLdm =>
    simp only [htype] at h
    obtain ⟨rfl, rfl⟩ := scanPair_eq_some h
    refine ⟨by rw [Link.relaxesPair, htype], fun e => ?_⟩
    cases e <;> simp [Link.Wants, Link.needsGot, htype] <;> grind
  | tlsGotdesc =>
    simp only [htype] at h
    split at h
    case isTrue hrelaxes =>
      obtain ⟨-, -, heq⟩ := Option.map_eq_some_iff.mp h
      obtain ⟨rfl, rfl⟩ := Prod.mk.injEq _ _ _ _ ▸ heq
      refine ⟨by rw [Link.relaxesPair, htype], fun e => ?_⟩
      cases e <;> simp [Link.Wants, Link.needsGot, htype] <;> grind
    case isFalse hrelaxes =>
      obtain ⟨rfl, rfl⟩ := Prod.mk.injEq _ _ _ _ ▸ Option.some_inj.mp h
      refine ⟨by rw [Link.relaxesPair, htype], fun e => ?_⟩
      cases e <;> simp [Link.Wants, Link.needsGot, htype] <;> grind

def Link.lookedAt (L : Link σ) : List (Rel σ) → List (Rel σ)
  | [] => []
  | rel :: rels => if L.relaxesPair rel then [rel] else rel :: rels

theorem relaxesPair_of_not_isPair (h : rel.rType.isPair = false) : L.relaxesPair rel = false := by
  cases htype : rel.rType <;> rw [htype] at h <;>
    first
      | exact absurd h (by decide)
      | rw [Link.relaxesPair, htype]

theorem not_isPair_of_isCall {ty : RelType} (h : ty.isCall = true) : ty.isPair = false := by
  cases ty <;>
    first
      | rfl
      | exact absurd h (by decide)

def IsGroup (g : List (Rel σ)) : Prop :=
  (∃ rel, g = [rel] ∧ rel.rType.isPair = false) ∨
    ∃ rel call, g = [rel, call] ∧ rel.rType.isPair = true ∧ call.rType.isCall = true

variable {g : List (Rel σ)}

theorem mem_scanGroup (hg : IsGroup g)
    (h : L.scanGroup contents g asks = some asks') (e : Entry σ) :
    e ∈ asks' ↔ e ∈ asks ∨ ∃ rel ∈ L.lookedAt g, L.Wants contents rel e := by
  rcases hg with ⟨rel, rfl, hpair⟩ | ⟨rel, call, rfl, -, hcall⟩
  · obtain ⟨⟨asks₁, skip₁⟩, hstep, hrest⟩ := Option.bind_eq_some_iff.mp h
    obtain rfl : asks₁ = asks' := by
      cases skip₁ <;> exact Option.some_inj.mp hrest
    rw [(scanStep_eq_some hstep).2, Link.lookedAt, relaxesPair_of_not_isPair hpair]
    simp
  · obtain ⟨⟨asks₁, skip₁⟩, hstep, hrest⟩ := Option.bind_eq_some_iff.mp h
    obtain ⟨hskip, hmem⟩ := scanStep_eq_some hstep
    cases hrelaxes : L.relaxesPair rel with
    | true =>
      obtain rfl : skip₁ = true := hskip.trans hrelaxes
      obtain rfl : asks₁ = asks' := Option.some_inj.mp hrest
      rw [hmem, Link.lookedAt, hrelaxes]
      simp
    | false =>
      obtain rfl : skip₁ = false := hskip.trans hrelaxes
      obtain ⟨⟨asks₂, skip₂⟩, hstep₂, hrest₂⟩ := Option.bind_eq_some_iff.mp hrest
      obtain rfl : asks₂ = asks' := by
        cases skip₂ <;> exact Option.some_inj.mp hrest₂
      rw [(scanStep_eq_some hstep₂).2, hmem, Link.lookedAt, hrelaxes]
      simp [or_assoc]

variable {e : Entry σ}

theorem mem_asks : e ∈ L.asks ↔ ∃ s ∈ L.sections, ∃ g ∈ s.groups, ∃ asks,
    L.scanGroup s.contents g [] = some asks ∧ e ∈ asks := by
  simp only [Link.asks, List.mem_flatMap]
  refine exists_congr fun s => and_congr_right fun _ => exists_congr fun g =>
    and_congr_right fun _ => ?_
  cases L.scanGroup s.contents g [] <;> simp

theorem exists_wants (h : e ∈ L.asks) : ∃ s ∈ L.sections, ∃ g ∈ s.groups,
    ∃ rel ∈ L.lookedAt g, L.Wants s.contents rel e := by
  obtain ⟨s, hs, g, hg, asks, hscan, hmem⟩ := mem_asks.mp h
  rcases (mem_scanGroup (s.wellFormed g hg) hscan e).mp hmem with hnil | hwants
  · cases hnil
  · exact ⟨s, hs, g, hg, hwants⟩

/-- A sequence with such an entry is left as it is, whatever the other sequences are. -/
def Link.leaves (L : Link σ) : Entry σ → Bool
  | .got _ => true
  | .tlsgd sym | .tlsdesc sym => !L.relaxTls (L.symbols sym)
  | .tlsld => !L.relaxLdm

theorem leaves_of_wants (h : L.Wants contents rel e) : L.leaves e = true := by
  cases e with
  | got sym => rfl
  | tlsgd sym => rw [Link.leaves, h.2.2]; rfl
  | tlsdesc sym => rw [Link.leaves, h.2.2]; rfl
  | tlsld => rw [Link.leaves, h.2]; rfl

theorem mem_asks_iff_leaves {s : Section σ} (hs : s ∈ L.sections)
    (hg : g ∈ s.groups) (hscan : L.scanGroup s.contents g [] = some asks)
    (howns : L.leaves e = true → ∃ rel ∈ L.lookedAt g, L.Wants s.contents rel e) :
    (e ∈ asks ↔ L.leaves e = true) ∧ (e ∈ L.asks ↔ L.leaves e = true) := by
  have hmem := mem_scanGroup (s.wellFormed g hg) hscan e
  have howns' : L.leaves e = true → e ∈ asks := fun h => hmem.mpr (.inr (howns h))
  refine ⟨⟨fun h => ?_, howns'⟩, fun h => ?_, fun h => mem_asks.mpr ⟨s, hs, g, hg, asks, hscan, howns' h⟩⟩
  · rcases hmem.mp h with hnil | ⟨rel, -, hwants⟩
    · cases hnil
    · exact leaves_of_wants hwants
  · obtain ⟨_, _, _, _, _, _, hwants⟩ := exists_wants h
    exact leaves_of_wants hwants

def Link.AsksGot (L : Link σ) (sym : σ) : Prop :=
  ∃ s ∈ L.sections, ∃ g ∈ s.groups, ∃ rel ∈ L.lookedAt g,
    rel.rSym = sym ∧ L.needsGot s.contents rel = true

def pairEntry (rel : Rel σ) : Entry σ :=
  match rel.rType with
  | .tlsGd => .tlsgd rel.rSym
  | _ => .tlsld

theorem scanStep_pair (L : Link σ) (contents : Memory) (next : Option RelType)
    (hpair : rel.rType.isPair = true) (asks : List (Entry σ)) :
    ∃ asks', L.scanStep contents rel next asks =
      scanPair rel next (L.relaxesPair rel) (pairEntry rel) asks' := by
  cases htype : rel.rType with
  | tlsGd =>
    simp only [Link.scanStep, Link.relaxesPair, pairEntry, htype]
    exact ⟨_, rfl⟩
  | tlsLdm =>
    simp only [Link.scanStep, Link.relaxesPair, pairEntry, htype]
    exact ⟨_, rfl⟩
  | _ =>
    rw [htype] at hpair
    cases hpair

theorem scanStep_call (L : Link σ) (contents : Memory) (rel : Rel σ)
    (h : rel.rType = .gotpc ∨ rel.rType.isCall = true) (next : Option RelType) (asks : List (Entry σ)) : ∃ asks', L.scanStep contents rel next asks = some (asks', false) := by
  cases htype : rel.rType <;> rw [htype] at h <;>
    first
      | exact absurd h (by decide)
      | (rw [Link.scanStep, htype]; exact ⟨_, rfl⟩)

theorem scanGroup_single (h : L.scanStep contents rel none asks = some (asks', false)) :
    L.scanGroup contents [rel] asks = some asks' := by
  rw [Link.scanGroup, relLoop, List.head?_nil, Option.map_none, h]
  rfl

theorem scanGroup_pair (contents : Memory) {call : Rel σ} (hpair : rel.rType.isPair = true)
    (hcall : call.rType.isCall = true) (hbefore : L.relaxesPair rel = true →
      ∃ n, tlsRelaxPrefix call.rType = some n ∧ n ≤ rel.rOffset) :
    ∃ asks, L.scanGroup contents [rel, call] [] = some asks := by
  obtain ⟨asks, hstep⟩ := scanStep_pair L contents (some call.rType) hpair []
  cases hrelaxes : L.relaxesPair rel with
  | true =>
    obtain ⟨n, hn, hle⟩ := hbefore hrelaxes
    have hfirst : L.scanStep contents rel (some call.rType) [] = some (asks, true) := by
      rw [hstep, scanPair, Option.bind_some, if_pos hcall, if_pos hrelaxes, hn, Option.bind_some,
        checkRelaxPrefix, if_neg (Nat.not_lt.mpr hle), Option.map_some]
    exact ⟨asks, Option.bind_eq_some_iff.mpr ⟨_, hfirst, rfl⟩⟩
  | false =>
    have hfirst : L.scanStep contents rel (some call.rType) [] =
        some (asks ++ [pairEntry rel], false) := by
      rw [hstep, scanPair, Option.bind_some, if_pos hcall, hrelaxes, if_neg Bool.false_ne_true]
    obtain ⟨asks', hsecond⟩ := scanStep_call L contents call (.inr hcall) none
      (asks ++ [pairEntry rel])
    exact ⟨asks', Option.bind_eq_some_iff.mpr ⟨_, hfirst,
      Option.bind_eq_some_iff.mpr ⟨_, hsecond, rfl⟩⟩⟩

theorem isCall_of_needsGot (h : L.needsGot contents rel = true) :
    rel.rType = .gotpc ∨ rel.rType.isCall = true := by
  rw [Link.needsGot] at h
  cases htype : rel.rType <;> rw [htype] at h <;>
    first
      | exact absurd h Bool.false_ne_true
      | simp [RelType.isCall]

theorem exists_scanGroup (hg : IsGroup g) (hrel : rel ∈ L.lookedAt g)
    (hneeds : L.needsGot contents rel = true) : ∃ asks, L.scanGroup contents g [] = some asks := by
  have htype := isCall_of_needsGot hneeds
  rcases hg with ⟨rel', rfl, hpair⟩ | ⟨rel', call, rfl, hpair, hcall⟩
  · rw [Link.lookedAt, relaxesPair_of_not_isPair hpair, if_neg Bool.false_ne_true,
      List.mem_singleton] at hrel
    subst hrel
    obtain ⟨asks, hstep⟩ := scanStep_call L contents rel htype none []
    exact ⟨asks, scanGroup_single hstep⟩
  · refine scanGroup_pair contents hpair hcall fun hrelaxes => ?_
    rw [Link.lookedAt, hrelaxes, if_pos rfl, List.mem_singleton] at hrel
    subst hrel
    rcases htype with h | h
    · rw [h] at hpair
      cases hpair
    · exact absurd (hpair.symm.trans (not_isPair_of_isCall h)) (by decide)

theorem leaves_pairEntry (hpair : rel.rType.isPair = true) :
    L.leaves (pairEntry rel) = !L.relaxesPair rel := by
  cases htype : rel.rType with
  | tlsGd => rw [pairEntry, Link.relaxesPair, htype]; rfl
  | tlsLdm => rw [pairEntry, Link.relaxesPair, htype]; rfl
  | _ =>
    rw [htype] at hpair
    cases hpair

theorem relaxGot32x_eq_zero {loc : ℕ} (h : contents loc ≠ 0x8b) :
    relaxGot32x contents loc = 0 := if_neg h

theorem needsGot_call (htype : rel.rType = .got32x)
    (h : contents (rel.rOffset - 2) = 0xff) : L.needsGot contents rel = true := by
  have hzero : relaxGot32x contents (rel.rOffset - 2) = 0 :=
    relaxGot32x_eq_zero (by rw [h]; decide)
  simp [Link.needsGot, htype, doRelax, hzero]

theorem got_mem_asks_iff {sym : σ} (hifunc : (L.symbols sym).isIfunc = false) :
    .got sym ∈ L.asks ↔ L.AsksGot sym := by
  constructor
  · intro h
    obtain ⟨s, hs, g, hg, rel, hrel, hsym, hwants⟩ := exists_wants h
    rcases hwants with ⟨-, htrue⟩ | hneeds
    · exact absurd (hifunc.symm.trans htrue) Bool.false_ne_true
    · exact ⟨s, hs, g, hg, rel, hrel, hsym, hneeds⟩
  · rintro ⟨s, hs, g, hg, rel, hrel, hsym, hneeds⟩
    obtain ⟨asks, hscan⟩ := exists_scanGroup (s.wellFormed g hg) hrel hneeds
    refine mem_asks.mpr ⟨s, hs, g, hg, asks, hscan, ?_⟩
    exact (mem_scanGroup (s.wellFormed g hg) hscan _).mpr (.inr ⟨rel, hrel, hsym, .inr hneeds⟩)

end Asks

section Groups

variable {σ α : Type*}

theorem relLoop_flatten {step : Rel σ → Option RelType → α → Option (α × Bool)}
    (hstep : ∀ rel next a, rel.rType.isPair = false →
      ∃ x, step rel next a = (x : Option α).map (·, false) ∧ step rel none a = x.map (·, false))
    {groups : List (List (Rel σ))} (hgroups : ∀ g ∈ groups, IsGroup g) (a : α) :
    relLoop step false groups.flatten a = groups.foldlM (fun a g => relLoop step false g a) a := by
  have hsingle : ∀ (rel : Rel σ) (rels : List (Rel σ)) a, rel.rType.isPair = false →
      relLoop step false (rel :: rels) a =
        (relLoop step false [rel] a).bind (relLoop step false rels) := by
    intro rel rels a hpair
    obtain ⟨x, hx, hnone⟩ := hstep rel (rels.head?.map Rel.rType) a hpair
    rw [relLoop, relLoop, hx, List.head?_nil, Option.map_none, hnone]
    cases x <;> rfl
  induction groups generalizing a with
  | nil => rfl
  | cons g groups ih =>
    obtain ⟨hg, hgroups⟩ := List.forall_mem_cons.mp hgroups
    have hrest : relLoop step false (g ++ groups.flatten) a =
        (relLoop step false g a).bind (relLoop step false groups.flatten) := by
      rcases hg with ⟨rel, rfl, hpair⟩ | ⟨rel, call, rfl, -, hcall⟩
      · exact hsingle rel groups.flatten a hpair
      · change (step rel (some call.rType) a).bind _ = ((step rel (some call.rType) a).bind _).bind _
        rw [Option.bind_assoc]
        congr 1
        funext r
        obtain ⟨a', skip⟩ := r
        cases skip with
        | true => rfl
        | false => exact hsingle call groups.flatten a' (not_isPair_of_isCall hcall)
    rw [List.flatten_cons, hrest, List.foldlM_cons]
    exact congrArg _ (funext fun a' => ih hgroups a')

variable {L : Link σ}

theorem scan_rels (s : Section σ) (asks : List (Entry σ)) :
    relLoop (L.scanStep s.contents) false s.rels asks =
      s.groups.foldlM (fun asks g => L.scanGroup s.contents g asks) asks := by
  refine relLoop_flatten (fun rel next asks hpair => ?_) s.wellFormed asks
  refine ⟨(L.scanStep s.contents rel none asks).map Prod.fst, ?_, ?_⟩
  all_goals
    simp only [Link.scanStep]
    cases htype : rel.rType with
    | tlsGd | tlsLdm =>
      rw [htype] at hpair
      cases hpair
    | tlsGotdesc =>
      dsimp only
      split
      · rw [Option.map_map, Option.map_map]
        rfl
      · rfl
    | _ => rfl

theorem scanStep_append (contents : Memory) (rel : Rel σ) (next : Option RelType)
    (asks : List (Entry σ)) : L.scanStep contents rel next asks =
      (L.scanStep contents rel next []).map fun r => (asks ++ r.1, r.2) := by
  simp only [Link.scanStep, scanPair]
  cases rel.rType with
  | tlsGd | tlsLdm =>
    cases next with
    | none => rfl
    | some ty =>
      cases tlsRelaxPrefix ty <;> dsimp only [Option.bind_some] <;> split_ifs <;>
        simp [Function.comp_def]
  | _ => dsimp only; split_ifs <;> simp [Function.comp_def]

theorem scan_append (contents : Memory) (skip : Bool) (rels : List (Rel σ))
    (asks : List (Entry σ)) : relLoop (L.scanStep contents) skip rels asks =
      (relLoop (L.scanStep contents) skip rels []).map (asks ++ ·) := by
  induction rels generalizing skip asks with
  | nil => simp [relLoop]
  | cons rel rels ih =>
    cases skip with
    | true => exact ih false asks
    | false =>
      rw [relLoop, relLoop, scanStep_append]
      cases L.scanStep contents rel (rels.head?.map Rel.rType) [] with
      | none => rfl
      | some r =>
        change relLoop _ r.2 rels (asks ++ r.1) = (relLoop _ r.2 rels r.1).map _
        rw [ih r.2 (asks ++ r.1), ih r.2 r.1, Option.map_map]
        simp [Function.comp_def]

theorem foldlM_append {β γ : Type*} (f : β → Option (List γ)) (l : List β) (a : List γ) :
    l.foldlM (fun a b => (f b).map (a ++ ·)) a = if ∀ b ∈ l, (f b).isSome = true then
      some (a ++ l.flatMap fun b => (f b).getD []) else none := by
  induction l generalizing a with
  | nil => simp
  | cons b l ih =>
    rw [List.foldlM_cons]
    cases h : f b <;> simp [h, ih]

/-- The scan of all sections accepts what it accepts in each sequence, and then asks for what
they ask for. -/
theorem scan_sections (L : Link σ) :
    L.sections.foldlM (fun asks s => relLoop (L.scanStep s.contents) false s.rels asks) [] =
      if ∀ s ∈ L.sections, ∀ g ∈ s.groups, (L.scanGroup s.contents g []).isSome = true then
        some L.asks else none := by
  have hsection : ∀ (s : Section σ) asks, relLoop (L.scanStep s.contents) false s.rels asks =
      (s.groups.foldlM (fun a g => (L.scanGroup s.contents g []).map (a ++ ·)) []).map
        (asks ++ ·) := by
    intro s asks
    rw [scan_append, scan_rels]
    congr 2
    funext a g
    exact scan_append s.contents false g a
  simp only [hsection, foldlM_append, List.nil_append, Option.isSome_ite, Link.asks]
  refine if_ctx_congr Iff.rfl (fun h => ?_) fun _ => rfl
  exact congrArg some (List.flatMap_congr fun s hs => by rw [if_pos (h s hs), Option.getD_some])

end Groups

end Mold.Elf.I386
