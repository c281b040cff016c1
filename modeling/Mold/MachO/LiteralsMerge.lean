import Mathlib.Data.List.Pairwise
import Mold.Lib.Takeover
import Mold.MachO.Literals

/-!
# Merging leaves no dangling pointers

Both passes are merges by keys.  The owner of some contents is the member of
highest priority that is inserted first, and the owner of a pointee is the first
literal pointer.  The lists of `__objc_stubs` are not rewritten, so their
subsections have to be owners; and since literal pointers are compared by the
subsections that they point to, their offsets have to agree.
-/

namespace Mold.MachO.Literals

open Mold.Lib

variable {τ σ ι κ : Type*}

namespace State

variable {S : State τ σ ι κ}

section LiteralOwner

variable [DecidableEq κ]

/-- The value for which members take contents over: a high priority is low. -/
def rank (S : State τ σ ι κ) (s : σ) : ℕᵒᵈ :=
  OrderDual.toDual (S.subsec s).filePriority

theorem foldl_insertLiteral (order : List σ) (owner : κ → Option σ) (c : κ) :
    order.foldl S.insertLiteral owner c =
      match owner c, order.filter fun s => decide ((S.subsec s).contents = c) with
      | none, [] => none
      | none, s :: rest => some (takeovers S.rank S.rank s rest)
      | some existing, rest => some (takeovers S.rank S.rank existing rest) := by
  induction order generalizing owner with
  | nil => cases h : owner c <;> simp [h]
  | cons s order ih =>
    rw [List.foldl_cons, ih]
    by_cases hc : (S.subsec s).contents = c
    · rw [List.filter_cons_of_pos (by simpa using hc)]
      cases howner : owner c with
      | none => simp [insertLiteral, hc, howner]
      | some existing =>
        have hstep : S.insertLiteral owner s c = some (takeover S.rank S.rank existing s) := by
          have hlt : (S.subsec existing).filePriority < (S.subsec s).filePriority ↔
              S.rank s < S.rank existing := Iff.rfl
          simp only [insertLiteral, hc, howner, takeover, hlt]
          split <;> simp [howner]
        rw [hstep]
        rfl
    · rw [List.filter_cons_of_neg (by simpa using hc)]
      have hsame : S.insertLiteral owner s c = owner c := by
        have hne : c ≠ (S.subsec s).contents := Ne.symm hc
        simp only [insertLiteral]
        cases owner (S.subsec s).contents with
        | none => exact Function.update_of_ne hne _ _
        | some existing =>
          dsimp only
          split
          · exact Function.update_of_ne hne _ _
          · rfl
      rw [hsame]

theorem literalOwner_spec {order : List σ} {s : σ} (hs : s ∈ order) :
    ∃ o ∈ order, S.literalOwner order (S.subsec s).contents = some o ∧
      (S.subsec o).contents = (S.subsec s).contents ∧
      (S.subsec s).filePriority ≤ (S.subsec o).filePriority := by
  have hmem : s ∈ order.filter fun r =>
      decide ((S.subsec r).contents = (S.subsec s).contents) := by
    simp [hs]
  have hfold := foldl_insertLiteral (S := S) order (fun _ => none) (S.subsec s).contents
  cases hfilter : order.filter fun r =>
      decide ((S.subsec r).contents = (S.subsec s).contents) with
  | nil => simp [hfilter] at hmem
  | cons first rest =>
    rw [hfilter] at hfold hmem
    have howner : takeovers S.rank S.rank first rest ∈ first :: rest := by
      rcases @takeovers_eq_or_mem _ _ _ S.rank S.rank first rest with h | h
      · rw [h]
        exact List.mem_cons_self
      · exact List.mem_cons_of_mem _ h
    have hle : S.rank (takeovers S.rank S.rank first rest) ≤ S.rank s := by
      obtain ⟨hfirst, hrest⟩ := @takeovers_value_le _ _ _ S.rank first rest
      rcases List.mem_cons.mp hmem with rfl | h
      · exact hfirst
      · exact hrest s h
    rw [← hfilter, List.mem_filter, decide_eq_true_eq] at howner
    exact ⟨_, howner.1, hfold, howner.2, hle⟩

theorem literalOwner_first {s o : σ} {rest : List σ}
    (h : S.literalOwner (s :: rest) (S.subsec s).contents = some o) :
    o = s ∨ (S.subsec s).filePriority < (S.subsec o).filePriority := by
  have hfold := foldl_insertLiteral (S := S) (s :: rest) (fun _ => none) (S.subsec s).contents
  rw [List.filter_cons_of_pos (by simp)] at hfold
  rw [literalOwner, hfold] at h
  obtain rfl := Option.some.inj h
  exact @takeovers_eq_or_lt _ _ _ S.rank s _

theorem isOwner_literalOwner {order members : List σ} (hperm : order.Perm members) :
    IsOwner members (fun s => some (S.subsec s).contents) (S.literalOwner order) := by
  intro s hs c hc
  obtain rfl := Option.some.inj hc
  obtain ⟨o, ho, howner, hcontents, -⟩ :=
    literalOwner_spec (S := S) (hperm.mem_iff.mpr hs)
  exact ⟨o, hperm.mem_iff.mp ho, howner, congrArg some hcontents⟩

end LiteralOwner

section PointerOwner

variable {members : List σ} {R : σ → Option σ}

theorem pointerTarget_eq (s : σ) : S.pointerTarget R s = (S.pointee s).map (rep R) := by
  rw [pointerTarget, pointee]
  split <;> rfl

variable [DecidableEq σ]

theorem isOwner_pointerOwner : IsOwner members (S.pointerTarget R) (S.pointerOwner members R) := by
  intro s hs t ht
  have hsome : (S.pointerOwner members R t).isSome := by
    rw [pointerOwner, List.find?_isSome]
    exact ⟨s, hs, decide_eq_true ht⟩
  obtain ⟨o, ho⟩ := Option.isSome_iff_exists.mp hsome
  have hp := List.find?_some ho
  exact ⟨o, List.mem_of_find?_eq_some ho, ho, of_decide_eq_true hp⟩

theorem idxOf_pointerOwner_le {t o r : σ} (ho : S.pointerOwner members R t = some o)
    (hr : r ∈ members) (ht : S.pointerTarget R r = some t) :
    members.idxOf o ≤ members.idxOf r := by
  obtain ⟨hp, front, back, rfl, hfront⟩ := List.find?_eq_some_iff_append.mp ho
  have hnot {x : σ} (hx : S.pointerTarget R x = some t) : x ∉ front := by
    intro hmem
    have := hfront x hmem
    simp [hx] at this
  rw [List.idxOf_append_of_notMem (hnot (of_decide_eq_true hp)),
    List.idxOf_append_of_notMem (hnot ht), List.idxOf_cons_self]
  omega

theorem pointerOwner_eq_some_iff {t o : σ} :
    S.pointerOwner members R t = some o ↔ o ∈ members ∧
      S.pointerTarget R o = some t ∧
        ∀ r ∈ members, S.pointerTarget R r = some t → members.idxOf o ≤ members.idxOf r := by
  constructor
  · intro ho
    have hp := List.find?_some ho
    exact ⟨List.mem_of_find?_eq_some ho, of_decide_eq_true hp,
      fun r hr ht => idxOf_pointerOwner_le ho hr ht⟩
  · rintro ⟨hmem, htarget, hfirst⟩
    obtain ⟨p, hp, howner, hptarget⟩ := isOwner_pointerOwner o hmem t htarget
    have hidx := le_antisymm (hfirst p hp hptarget) (idxOf_pointerOwner_le howner hmem htarget)
    rw [howner, (List.idxOf_inj hmem).mp hidx]

end PointerOwner

/-! ## The run over the sections -/

theorem isLiterals_eq_false {osec : OutputSection σ}
    (h : osec.isLiteralPointers = true) : osec.isLiterals = false := by
  rw [OutputSection.isLiteralPointers, beq_iff_eq] at h
  simp [OutputSection.isLiterals, h]

section Run

variable [DecidableEq σ] [DecidableEq κ] {order : OutputSection σ → List σ}

def mergeStep (S : State τ σ ι κ) (order : OutputSection σ → List σ)
    (R : σ → Option σ) (osec : OutputSection σ) : σ → Option σ :=
  if osec.isLiterals then S.uniquifyLiterals (order osec) osec R
  else S.uniquifyLiteralPointers osec R

def mergeAll (S : State τ σ ι κ) (order : OutputSection σ → List σ)
    (done : List (OutputSection σ)) : σ → Option σ :=
  done.foldl (S.mergeStep order) fun _ => none

theorem replacer_eq (sched : Schedule S) : replacer sched = S.mergeAll sched.order S.passes := by
  rw [replacer, mergeAll, passes, List.foldl_append, List.foldl_filter, List.foldl_filter]
  have hpointers (R : σ → Option σ) (osec : OutputSection σ) :
      (if osec.isLiteralPointers = true then S.uniquifyLiteralPointers osec R else R) =
        if osec.isLiteralPointers = true then S.mergeStep sched.order R osec else R := by
    split
    case isTrue h =>
      rw [mergeStep, if_neg]
      simp [isLiterals_eq_false h]
    case isFalse => rfl
  have hliterals (R : σ → Option σ) (osec : OutputSection σ) :
      (if osec.isLiterals = true then
          S.uniquifyLiterals (sched.order osec) osec R else R) =
        if osec.isLiterals = true then S.mergeStep sched.order R osec else R := by
    split
    case isTrue h => rw [mergeStep, if_pos h]
    case isFalse => rfl
  simp only [hpointers, hliterals]

section Step

variable {R : σ → Option σ} {old : List σ} {osec : OutputSection σ}

theorem mergeStep_of_notMem {s : σ} (hs : s ∉ osec.members) :
    S.mergeStep order R osec s = R s := by
  rw [mergeStep]
  split <;> exact mergeBy_of_notMem hs

variable (hR : Replaces R old) (hdisjoint : ∀ s ∈ osec.members, s ∉ old)
  (hperm : (order osec).Perm osec.members)

include hR hdisjoint hperm

theorem replaces_mergeStep : Replaces (S.mergeStep order R osec) (old ++ osec.members) := by
  rw [mergeStep]
  split
  · exact hR.mergeBy hdisjoint (isOwner_literalOwner hperm)
  · exact hR.mergeBy hdisjoint isOwner_pointerOwner

theorem rep_mergeStep_eq_iff {s t : σ} :
    rep (S.mergeStep order R osec) s = rep (S.mergeStep order R osec) t ↔
      rep R s = rep R t ∨ s ∈ osec.members ∧ t ∈ osec.members ∧
        if osec.isLiterals then (S.subsec s).contents = (S.subsec t).contents
        else ∃ u v, S.pointee s = some u ∧ S.pointee t = some v ∧ rep R u = rep R v := by
  rw [mergeStep]
  split
  · rw [uniquifyLiterals, rep_mergeBy_eq_iff hR hdisjoint (isOwner_literalOwner hperm)]
    simp [eq_comm]
  · rw [uniquifyLiteralPointers, rep_mergeBy_eq_iff hR hdisjoint isOwner_pointerOwner]
    simp only [pointerTarget_eq, Option.map_eq_some_iff]
    constructor
    · rintro (h | ⟨hs, ht, k, ⟨u, hu, rfl⟩, v, hv, hvu⟩)
      · exact Or.inl h
      · exact Or.inr ⟨hs, ht, u, v, hu, hv, hvu.symm⟩
    · rintro (h | ⟨hs, ht, u, v, hu, hv, huv⟩)
      · exact Or.inl h
      · exact Or.inr ⟨hs, ht, _, ⟨u, hu, rfl⟩, v, hv, huv.symm⟩

end Step

theorem mergeAll_spec {done : List (OutputSection σ)}
    (hnodup : (done.flatMap OutputSection.members).Nodup)
    (hperm : ∀ osec ∈ done, (order osec).Perm osec.members) :
    Replaces (S.mergeAll order done) (done.flatMap OutputSection.members) ∧
      ∀ s t, rep (S.mergeAll order done) s = rep (S.mergeAll order done) t ↔
        S.Merged done.reverse s t := by
  induction done using List.reverseRecOn with
  | nil => exact ⟨⟨by simp [mergeAll], by simp [mergeAll]⟩, fun s t => Iff.rfl⟩
  | append_singleton done osec ih =>
    rw [List.flatMap_append, List.flatMap_singleton, List.nodup_append] at hnodup
    obtain ⟨hold, -, hne⟩ := hnodup
    obtain ⟨hreplaces, hmerged⟩ :=
      ih hold fun o ho => hperm o (List.mem_append_left _ ho)
    have hdisjoint : ∀ s ∈ osec.members, s ∉ done.flatMap OutputSection.members :=
      fun s hs hmem => hne s hmem s hs rfl
    have hosec := hperm osec (List.mem_append_right _ List.mem_cons_self)
    have hstep : S.mergeAll order (done ++ [osec]) =
        S.mergeStep order (S.mergeAll order done) osec := by
      rw [mergeAll, List.foldl_append]
      rfl
    rw [hstep, List.flatMap_append, List.flatMap_singleton, List.reverse_append]
    refine ⟨replaces_mergeStep hreplaces hdisjoint hosec, fun s t => ?_⟩
    rw [rep_mergeStep_eq_iff hreplaces hdisjoint hosec]
    simp only [hmerged]
    rfl

theorem foldl_mergeStep_of_notMem {s : σ} {rest : List (OutputSection σ)}
    (hs : s ∉ rest.flatMap OutputSection.members) (R : σ → Option σ) :
    rest.foldl (S.mergeStep order) R s = R s := by
  induction rest generalizing R with
  | nil => rfl
  | cons osec rest ih =>
    rw [List.flatMap_cons, List.mem_append, not_or] at hs
    rw [List.foldl_cons, ih hs.2, mergeStep_of_notMem hs.1]

end Run

section Pass

variable [DecidableEq σ] [DecidableEq κ] {order : OutputSection σ → List σ}
  {done rest : List (OutputSection σ)} {osec : OutputSection σ}
  (hnodup : ((done ++ osec :: rest).flatMap OutputSection.members).Nodup)
  (hperm : ∀ o ∈ done ++ osec :: rest, (order o).Perm o.members)

include hnodup

theorem mergeAll_eq_mergeStep {s : σ} (hs : s ∈ osec.members) :
    S.mergeAll order (done ++ osec :: rest) s =
      S.mergeStep order (S.mergeAll order done) osec s := by
  rw [List.flatMap_append, List.flatMap_cons, List.nodup_append, List.nodup_append]
    at hnodup
  have hrest : s ∉ rest.flatMap OutputSection.members :=
    fun h => hnodup.2.1.2.2 s hs s h rfl
  rw [mergeAll, List.foldl_append, List.foldl_cons, foldl_mergeStep_of_notMem hrest]
  rfl

include hperm

theorem mergeAll_spec_of_pass :
    Replaces (S.mergeAll order done) (done.flatMap OutputSection.members) ∧
      (∀ s t, rep (S.mergeAll order done) s = rep (S.mergeAll order done) t ↔
        S.Merged done.reverse s t) ∧
      ∀ s ∈ osec.members, S.mergeAll order done s = none := by
  rw [List.flatMap_append, List.nodup_append] at hnodup
  obtain ⟨hold, -, hne⟩ := hnodup
  obtain ⟨hreplaces, hmerged⟩ := mergeAll_spec (S := S) hold
    fun o ho => hperm o (List.mem_append_left _ ho)
  refine ⟨hreplaces, hmerged, fun s hs => hreplaces.none_of_notMem fun hmem => ?_⟩
  exact hne s hmem s (by simp [hs]) rfl

theorem mergeAll_eq_none_iff_of_isLiterals (htype : osec.isLiterals = true) {s : σ}
    (hs : s ∈ osec.members) :
    S.mergeAll order (done ++ osec :: rest) s = none ↔
      S.literalOwner (order osec) (S.subsec s).contents = some s := by
  obtain ⟨-, -, hnone⟩ := mergeAll_spec_of_pass (S := S) hnodup hperm
  have hosec := hperm osec (by simp)
  have hkey : (fun r => some (S.subsec r).contents) s = some (S.subsec s).contents :=
    rfl
  obtain ⟨o, -, ho, -⟩ := isOwner_literalOwner hosec s hs _ hkey
  rw [mergeAll_eq_mergeStep hnodup hs, mergeStep, if_pos htype, uniquifyLiterals,
    mergeBy_eq_none_iff hs (hnone s hs) hkey ho, ho, Option.some.injEq]
  exact eq_comm

theorem mergeAll_eq_some_of_isLiterals (htype : osec.isLiterals = true) {s t : σ}
    (hs : s ∈ osec.members)
    (h : S.mergeAll order (done ++ osec :: rest) s = some t) :
    t ∈ osec.members ∧ (S.subsec t).contents = (S.subsec s).contents ∧
      (S.subsec s).filePriority ≤ (S.subsec t).filePriority := by
  obtain ⟨-, -, hnone⟩ := mergeAll_spec_of_pass (S := S) hnodup hperm
  rw [mergeAll_eq_mergeStep hnodup hs, mergeStep, if_pos htype] at h
  rcases mergeBy_eq_some h with hold | ⟨-, c, hc, ho⟩
  · rw [hnone s hs] at hold
    exact absurd hold (by simp)
  · obtain rfl := Option.some.inj hc
    have hosec := hperm osec (by simp)
    obtain ⟨o, hmem, ho', hcontents, hle⟩ :=
      literalOwner_spec (S := S) (hosec.mem_iff.mpr hs)
    obtain rfl : t = o := by rwa [ho, Option.some.injEq] at ho'
    exact ⟨hosec.mem_iff.mp hmem, hcontents, hle⟩

theorem pointerOwner_eq_some_iff_owns {s u q : σ} (hu : S.pointee s = some u) :
    S.pointerOwner osec.members (S.mergeAll order done)
        (rep (S.mergeAll order done) u) = some q ↔ S.Owns done.reverse osec q s := by
  obtain ⟨-, hmerged, -⟩ := mergeAll_spec_of_pass (S := S) hnodup hperm
  have htarget (r : σ) : S.pointerTarget (S.mergeAll order done) r =
      some (rep (S.mergeAll order done) u) ↔ S.SamePointee done.reverse r s := by
    rw [pointerTarget_eq, Option.map_eq_some_iff]
    constructor
    · rintro ⟨v, hv, hvu⟩
      exact ⟨v, u, hv, hu, (hmerged v u).mp hvu⟩
    · rintro ⟨v, u', hv, hu', hvu⟩
      rw [hu, Option.some.injEq] at hu'
      subst hu'
      exact ⟨v, hv, (hmerged v u).mpr hvu⟩
  rw [pointerOwner_eq_some_iff]
  simp only [htarget]
  exact ⟨fun ⟨h₁, h₂, h₃⟩ => ⟨h₁, h₂, h₃⟩, fun ⟨h₁, h₂, h₃⟩ => ⟨h₁, h₂, h₃⟩⟩

theorem rep_mergeAll_eq_iff_owns (htype : osec.isLiteralPointers = true) {s u q : σ}
    (hs : s ∈ osec.members) (hu : S.pointee s = some u) :
    rep (S.mergeAll order (done ++ osec :: rest)) s = q ↔ S.Owns done.reverse osec q s := by
  obtain ⟨hreplaces, -, hnone⟩ := mergeAll_spec_of_pass (S := S) hnodup hperm
  have hkey : S.pointerTarget (S.mergeAll order done) s =
      some (rep (S.mergeAll order done) u) := by
    rw [pointerTarget_eq, hu, Option.map_some]
  obtain ⟨o, -, ho, -⟩ := isOwner_pointerOwner s hs _ hkey
  have hdisjoint : ∀ r ∈ osec.members, r ∉ done.flatMap OutputSection.members := by
    rw [List.flatMap_append, List.nodup_append] at hnodup
    exact fun r hr hmem => hnodup.2.2 r hmem r (by simp [hr]) rfl
  have hrep : rep (S.mergeAll order (done ++ osec :: rest)) s = o := by
    rw [rep, mergeAll_eq_mergeStep hnodup hs, mergeStep,
      if_neg (by simp [isLiterals_eq_false htype])]
    exact rep_mergeBy hreplaces hdisjoint hs hkey ho
  rw [hrep, ← pointerOwner_eq_some_iff_owns hnodup hperm hu, ho, Option.some.injEq]

theorem mergeAll_eq_none_of_pointee (htype : osec.isLiteralPointers = true) {s : σ}
    (hs : s ∈ osec.members) (hu : S.pointee s = none) :
    S.mergeAll order (done ++ osec :: rest) s = none := by
  obtain ⟨-, -, hnone⟩ := mergeAll_spec_of_pass (S := S) hnodup hperm
  rw [mergeAll_eq_mergeStep hnodup hs, mergeStep,
    if_neg (by simp [isLiterals_eq_false htype]), uniquifyLiteralPointers,
    mergeBy_of_none (by rw [pointerTarget_eq, hu, Option.map_none]), hnone s hs]

end Pass

end State

namespace Context

variable {C : Context τ σ ι κ}

/-! ## The sections of a link -/

theorem members_disjoint {o p : OutputSection σ} (ho : o ∈ C.chunks)
    (hp : p ∈ C.chunks) (hne : o ≠ p) : o.members.Disjoint p.members := by
  have hsymm : Std.Symm (Function.onFun List.Disjoint
      (OutputSection.members (σ := σ))) := ⟨fun _ _ h => List.disjoint_symm h⟩
  exact (List.nodup_flatMap.mp C.disjoint).2.forall ho hp hne

variable {osec : OutputSection σ}

theorem mem_chunks_of_mem_passes (h : osec ∈ C.passes) :
    osec ∈ C.chunks ∧ (osec.isLiterals = true ∨ osec.isLiteralPointers = true) := by
  rw [State.passes, List.mem_append, List.mem_filter, List.mem_filter] at h
  rcases h with h | h
  · exact ⟨h.1, Or.inl h.2⟩
  · exact ⟨h.1, Or.inr h.2⟩

theorem mem_passes (h : osec ∈ C.chunks)
    (htype : osec.isLiterals = true ∨ osec.isLiteralPointers = true) :
    osec ∈ C.passes := by
  rw [State.passes, List.mem_append, List.mem_filter, List.mem_filter]
  rcases htype with ht | ht
  · exact Or.inl ⟨h, ht⟩
  · exact Or.inr ⟨h, ht⟩

theorem passes_nodup : (C.passes.flatMap OutputSection.members).Nodup := by
  obtain ⟨hmembers, hpairwise⟩ := List.nodup_flatMap.mp C.disjoint
  rw [List.nodup_flatMap]
  refine ⟨fun o ho => hmembers o (mem_chunks_of_mem_passes ho).1, ?_⟩
  rw [State.passes, List.pairwise_append]
  refine ⟨hpairwise.filter _, hpairwise.filter _, ?_⟩
  intro o ho p hp
  rw [List.mem_filter] at ho hp
  have hne : o ≠ p := by
    rintro rfl
    simp [State.isLiterals_eq_false hp.2] at ho
  exact members_disjoint ho.1 hp.1 hne

section Schedule

variable (sched : Schedule C.toState)

theorem order_perm_of_mem_passes : ∀ osec ∈ C.passes, (sched.order osec).Perm osec.members :=
  fun osec h => sched.order_perm osec (mem_chunks_of_mem_passes h).1

variable [DecidableEq σ] [DecidableEq κ]

theorem replacer_spec :
    Replaces (State.replacer sched) (C.passes.flatMap OutputSection.members) ∧
      ∀ s t, rep (State.replacer sched) s = rep (State.replacer sched) t ↔
        C.Merged C.passes.reverse s t := by
  rw [State.replacer_eq]
  exact State.mergeAll_spec passes_nodup (order_perm_of_mem_passes sched)

theorem replacer_eq_some {s t : σ} (h : State.replacer sched s = some t) :
    ∃ osec ∈ C.chunks, s ∈ osec.members ∧ t ∈ osec.members ∧
      (osec.isLiterals = true ∧ (C.subsec s).contents = (C.subsec t).contents ∧
          (C.subsec s).filePriority ≤ (C.subsec t).filePriority ∨
        osec.isLiteralPointers = true ∧ ∃ done rest,
          C.passes = done ++ osec :: rest ∧ C.Owns done.reverse osec t s) := by
  obtain ⟨hmem, -⟩ := (replacer_spec sched).1.mem s t h
  obtain ⟨osec, hosec, hs⟩ := List.mem_flatMap.mp hmem
  obtain ⟨done, rest, hpasses⟩ := List.append_of_mem hosec
  obtain ⟨hchunk, htype⟩ := mem_chunks_of_mem_passes hosec
  have hnodup := passes_nodup (C := C)
  have hperm := order_perm_of_mem_passes sched
  rw [State.replacer_eq, hpasses] at h
  rw [hpasses] at hnodup hperm
  by_cases hliterals : osec.isLiterals = true
  · obtain ⟨ht, hcontents, hle⟩ :=
      State.mergeAll_eq_some_of_isLiterals hnodup hperm hliterals hs h
    exact ⟨osec, hchunk, hs, ht, Or.inl ⟨hliterals, hcontents.symm, hle⟩⟩
  · have hpointers : osec.isLiteralPointers = true := htype.resolve_left hliterals
    cases hpointee : C.pointee s with
    | none =>
      rw [State.mergeAll_eq_none_of_pointee hnodup hperm hpointers hs hpointee] at h
      exact absurd h (by simp)
    | some u =>
      have howns := (State.rep_mergeAll_eq_iff_owns hnodup hperm hpointers hs
        hpointee).mp (show rep _ s = t by rw [rep, h, Option.getD_some])
      exact ⟨osec, hchunk, hs, howns.mem, Or.inr ⟨hpointers, done, rest, hpasses, howns⟩⟩

end Schedule

section Rewrite

variable (R : σ → Option σ)

theorem rewriteRel_fields (rel : Relocation τ σ) :
    (State.rewriteRel R rel).offset = rel.offset ∧ (State.rewriteRel R rel).addend = rel.addend ∧
      (State.rewriteRel R rel).type = rel.type ∧
      (State.rewriteRel R rel).size = rel.size := by
  obtain ⟨target, addend, offset, type, size⟩ := rel
  cases target <;> exact ⟨rfl, rfl, rfl, rfl⟩

variable [DecidableEq τ] [DecidableEq ι]

theorem sym_rewrite (s : τ) :
    ((C.rewrite R).sym s).subsec = (C.sym s).subsec.map (rep R) ∧
      ((C.rewrite R).sym s).value = (C.sym s).value := by
  simp only [State.rewrite]
  split
  case isTrue => exact ⟨rfl, rfl⟩
  case isFalse h =>
    refine ⟨?_, rfl⟩
    cases hsubsec : (C.sym s).subsec with
    | none => rfl
    | some t => exact absurd (C.owned s (by rw [hsubsec]; rfl)) h

theorem relTarget_rewriteRel (rel : Relocation τ σ) :
    (C.rewrite R).relTarget (State.rewriteRel R rel) = (C.relTarget rel).map (rep R) := by
  obtain ⟨target, addend, offset, type, size⟩ := rel
  cases target with
  | sym s => exact (sym_rewrite R s).1
  | subsec s => rfl

theorem relOffset_rewriteRel (rel : Relocation τ σ) :
    (C.rewrite R).relOffset (State.rewriteRel R rel) = C.relOffset rel := by
  obtain ⟨target, addend, offset, type, size⟩ := rel
  cases target with
  | sym s =>
    simp only [State.relOffset, State.rewriteRel]
    rw [(sym_rewrite R s).2]
  | subsec s => rfl

theorem rels_rewrite {i : ι} (h : ∃ obj ∈ C.objs, i ∈ obj.sections) :
    (C.rewrite R).rels i = (C.rels i).map (State.rewriteRel R) := by
  simp only [State.rewrite]
  rw [if_pos h]

theorem getRels_rewrite (hosec : osec ∈ C.chunks) {s : σ} (hs : s ∈ osec.members) :
    (C.rewrite R).getRels s = (C.getRels s).map (State.rewriteRel R) := by
  have hrels := rels_rewrite R (C.parsed osec hosec s hs)
  rw [State.getRels, State.getRels, List.map_take, List.map_drop, ← hrels]
  rfl

theorem samePointer_rewriteRel {rel rel' : Relocation τ σ} :
    (C.rewrite R).SamePointer (State.rewriteRel R rel) (State.rewriteRel R rel') ↔
      C.SamePointer rel rel' := by
  obtain ⟨hoffset, -, htype, hsize⟩ := rewriteRel_fields R rel
  obtain ⟨hoffset', -, htype', hsize'⟩ := rewriteRel_fields R rel'
  constructor
  · rintro ⟨h₁, h₂, h₃, h₄⟩
    rw [relOffset_rewriteRel, relOffset_rewriteRel] at h₁
    exact ⟨h₁, hoffset ▸ hoffset' ▸ h₂, htype ▸ htype' ▸ h₃, hsize ▸ hsize' ▸ h₄⟩
  · rintro ⟨h₁, h₂, h₃, h₄⟩
    refine ⟨by rw [relOffset_rewriteRel, relOffset_rewriteRel, h₁], ?_, ?_, ?_⟩
    · rw [hoffset, hoffset', h₂]
    · rw [htype, htype', h₃]
    · rw [hsize, hsize', h₄]

end Rewrite

theorem getRels_of_pointee {s u : σ} (h : C.pointee s = some u) :
    ∃ rel, C.getRels s = [rel] ∧ C.relTarget rel = some u := by
  rw [State.pointee] at h
  split at h
  · next rel hrel => exact ⟨rel, hrel, h⟩
  · exact absurd h (by simp)

theorem merged_append {more done : List (OutputSection σ)} {s t : σ}
    (h : C.Merged done s t) : C.Merged (more ++ done) s t := by
  induction more with
  | nil => exact h
  | cons osec more ih => exact Or.inl ih

section Sound

variable [DecidableEq σ] [DecidableEq κ]

theorem replacer_eq_none_of_safe (h : C.MergeSafe) (sched : Schedule C.toState) {x : σ}
    (hx : x ∈ C.methnames ++ C.selrefs) : State.replacer sched x = none := by
  cases hrep : State.replacer sched x with
  | none => rfl
  | some t =>
    exfalso
    have hnodup := passes_nodup (C := C)
    have hperm := order_perm_of_mem_passes sched
    have hspec := (replacer_spec sched).1
    obtain ⟨osec, hosec, hmem, ht, ⟨htype, hcontents, hle⟩ |
      ⟨htype, done, rest, hpasses, howns⟩⟩ := replacer_eq_some sched hrep
    · have hne : t ≠ x := by
        rintro rfl
        rw [hspec.owner t t hrep] at hrep
        exact absurd hrep (by simp)
      have hlt := h.contents x hx osec hosec htype hmem t ht hne hcontents.symm
      exact absurd hle (not_le.mpr hlt)
    · obtain ⟨v, u, hv, hu, -⟩ := howns.same
      have hself := h.pointees x hx done osec rest hpasses htype hmem (by rw [hu]; rfl)
      rw [hpasses] at hnodup hperm
      have hrepx : rep (State.replacer sched) x = x := by
        rw [State.replacer_eq, hpasses]
        exact (State.rep_mergeAll_eq_iff_owns hnodup hperm htype hmem hu).mpr hself
      have hnone := hspec.replaced_rep x
      rw [hrepx, hrep] at hnone
      exact absurd hnone (by simp)

variable [DecidableEq τ] [DecidableEq ι]

def MergesSoundly (C : Context τ σ ι κ) : Prop :=
  ∀ sched : Schedule C.toState,
    MergeSound C.toState (State.mergeMergeableSections sched) (State.replacer sched)

theorem interchangeable_rep (h : C.MergeSafe) (sched : Schedule C.toState) {s : σ}
    (href : C.Referenced s) :
    State.Interchangeable C.toState (State.mergeMergeableSections sched) s
      (rep (State.replacer sched) s) := by
  cases hs : State.replacer sched s with
  | none => exact .same (by rw [rep, hs, Option.getD_none])
  | some t =>
    rw [rep, hs, Option.getD_some]
    obtain ⟨osec, hosec, hmem, ht, ⟨htype, hcontents, -⟩ |
      ⟨htype, done, rest, hpasses, howns⟩⟩ := replacer_eq_some sched hs
    · exact .literal hosec htype hmem ht hcontents
    · obtain ⟨v, u, hv, hu, hmerged⟩ := howns.same
      obtain ⟨rs, hrs, hrsu⟩ := getRels_of_pointee hu
      obtain ⟨rt, hrt, hrtv⟩ := getRels_of_pointee hv
      have hreps : rep (State.replacer sched) u = rep (State.replacer sched) v := by
        symm
        apply ((replacer_spec sched).2 v u).mpr
        rw [hpasses, List.reverse_append, List.reverse_cons, List.append_assoc]
        exact merged_append (merged_append hmerged)
      have hrs' := getRels_rewrite (State.replacer sched) hosec hmem
      have hrt' := getRels_rewrite (State.replacer sched) hosec ht
      rw [hrs] at hrs'
      rw [hrt] at hrt'
      refine .pointer hosec htype hmem ht hrs' hrt' ?_ ?_
      · refine (relTarget_rewriteRel _ rs).trans (Eq.trans ?_ (relTarget_rewriteRel _ rt).symm)
        rw [hrsu, hrtv, Option.map_some, Option.map_some, hreps]
      · exact (samePointer_rewriteRel _).mpr
          (h.offsets s href done osec rest hpasses htype hmem t howns rs rt hrs hrt)

theorem mergesSoundly_of_safe (h : C.MergeSafe) : C.MergesSoundly := by
  intro sched
  have hreplaced (t : σ) : State.replacer sched (rep (State.replacer sched) t) = none :=
    (replacer_spec sched).1.replaced_rep t
  refine ⟨?_, ?_, ?_⟩
  · intro t ht
    cases ht with
    | @rel obj i rel t hobj hi hrel ht =>
      obtain ⟨obj', hobj', rfl⟩ := List.mem_map.mp hobj
      have hrels := rels_rewrite (State.replacer sched) ⟨obj', hobj', hi⟩
      rw [State.mergeMergeableSections, hrels] at hrel
      obtain ⟨rel', -, rfl⟩ := List.mem_map.mp hrel
      rw [State.mergeMergeableSections, relTarget_rewriteRel, Option.map_eq_some_iff] at ht
      obtain ⟨s, -, rfl⟩ := ht
      exact hreplaced s
    | @sym s t ht =>
      rw [State.mergeMergeableSections, (sym_rewrite _ s).1, Option.map_eq_some_iff] at ht
      obtain ⟨u, -, rfl⟩ := ht
      exact hreplaced u
    | methname ht =>
      exact replacer_eq_none_of_safe h sched (List.mem_append_left _ ht)
    | selref ht =>
      exact replacer_eq_none_of_safe h sched (List.mem_append_right _ ht)
    | @member osec t hosec ht =>
      obtain ⟨osec', hosec', rfl⟩ := List.mem_map.mp hosec
      dsimp only at ht
      split at ht
      case isTrue => simpa using (List.mem_filter.mp ht).2
      case isFalse htype =>
        apply (replacer_spec sched).1.none_of_notMem
        intro hmem
        obtain ⟨other, hother, ht'⟩ := List.mem_flatMap.mp hmem
        obtain ⟨hchunk, hother'⟩ := mem_chunks_of_mem_passes hother
        have hne : osec' ≠ other := by
          rintro rfl
          exact htype (by simpa using hother')
        exact members_disjoint hosec' hchunk hne ht ht'
    | @subsection obj t hobj ht =>
      obtain ⟨obj', -, rfl⟩ := List.mem_map.mp hobj
      simpa using (List.mem_filter.mp ht).2
  · intro obj hobj i hi
    rw [State.mergeMergeableSections, rels_rewrite _ ⟨obj, hobj, hi⟩,
      List.forall₂_map_right_iff, List.forall₂_same]
    intro rel hrel
    obtain ⟨hoffset, haddend, -, -⟩ := rewriteRel_fields (State.replacer sched) rel
    refine ⟨hoffset, haddend, relOffset_rewriteRel _ rel, ?_⟩
    rw [relTarget_rewriteRel]
    cases htarget : C.relTarget rel with
    | none => exact .none
    | some s =>
      exact .some (interchangeable_rep h sched (Or.inl ⟨obj, hobj, i, hi, rel, hrel, htarget⟩))
  · intro s
    obtain ⟨hsubsec, hvalue⟩ := sym_rewrite (C := C) (State.replacer sched) s
    refine ⟨hvalue, ?_⟩
    rw [State.mergeMergeableSections, hsubsec]
    cases hs : (C.sym s).subsec with
    | none => exact .none
    | some t => exact .some (interchangeable_rep h sched (Or.inr ⟨s, hs⟩))

/-! ## Necessity -/

def inOrder (C : Context τ σ ι κ) : Schedule C.toState where
  order := OutputSection.members
  order_perm _ _ := List.Perm.refl _

/-- The same order, but with `s` in front. -/
def startingWith (C : Context τ σ ι κ) (s : σ) : Schedule C.toState where
  order osec := if s ∈ osec.members then s :: osec.members.erase s else osec.members
  order_perm osec _ := by
    split
    case isTrue h => exact (List.perm_cons_erase h).symm
    case isFalse => exact List.Perm.refl _

theorem MergesSoundly.replacer_eq_none (h : C.MergesSoundly)
    (sched : Schedule C.toState) {x : σ} (hx : x ∈ C.methnames ++ C.selrefs) :
    State.replacer sched x = none := by
  rcases List.mem_append.mp hx with hx | hx
  · exact (h sched).inPlace x (.methname hx)
  · exact (h sched).inPlace x (.selref hx)

theorem MergesSoundly.interchangeable (h : C.MergesSoundly)
    (sched : Schedule C.toState) {p : σ} (href : C.Referenced p) :
    State.Interchangeable C.toState (State.mergeMergeableSections sched) p
      (rep (State.replacer sched) p) := by
  rcases href with ⟨obj, hobj, i, hi, rel, hrel, htarget⟩ | ⟨s, hs⟩
  · have hrels := (h sched).rels obj hobj i hi
    rw [State.mergeMergeableSections, rels_rewrite _ ⟨obj, hobj, hi⟩,
      List.forall₂_map_right_iff, List.forall₂_same] at hrels
    obtain ⟨-, -, -, hoption⟩ := hrels rel hrel
    rw [relTarget_rewriteRel, htarget, Option.map_some] at hoption
    cases hoption with
    | some hinter => exact hinter
  · obtain ⟨-, hoption⟩ := (h sched).syms s
    rw [State.mergeMergeableSections, (sym_rewrite _ s).1, hs, Option.map_some] at hoption
    cases hoption with
    | some hinter => exact hinter

theorem safe_of_mergesSoundly (h : C.MergesSoundly) : C.MergeSafe := by
  have hnodup := passes_nodup (C := C)
  refine ⟨?_, ?_, ?_⟩
  · intro x hx osec hosec htype hmem s hs hne hcontents
    by_contra hlt
    obtain ⟨done, rest, hpasses⟩ := List.append_of_mem (mem_passes hosec (Or.inl htype))
    have hperm := order_perm_of_mem_passes (C.startingWith s)
    have hnone := h.replacer_eq_none (C.startingWith s) hx
    rw [hpasses] at hnodup hperm
    rw [State.replacer_eq, hpasses,
      State.mergeAll_eq_none_iff_of_isLiterals hnodup hperm htype hmem] at hnone
    have horder : (C.startingWith s).order osec = s :: osec.members.erase s :=
      if_pos hs
    rw [horder, ← hcontents] at hnone
    rcases State.literalOwner_first hnone with hxs | hlower
    · exact hne hxs.symm
    · exact hlt hlower
  · intro x hx done osec rest hpasses htype hmem hpointee
    obtain ⟨u, hu⟩ := Option.isSome_iff_exists.mp hpointee
    have hperm := order_perm_of_mem_passes C.inOrder
    have hnone := h.replacer_eq_none C.inOrder hx
    rw [hpasses] at hnodup hperm
    rw [State.replacer_eq, hpasses] at hnone
    apply (State.rep_mergeAll_eq_iff_owns hnodup hperm htype hmem hu).mp
    rw [rep, hnone, Option.getD_none]
  · intro p href done osec rest hpasses htype hmem q howns rp rq hrp hrq
    have hinter := h.interchangeable C.inOrder href
    have hperm := order_perm_of_mem_passes C.inOrder
    obtain ⟨-, u, -, hu, -⟩ := howns.same
    have hosec : osec ∈ C.chunks :=
      (mem_chunks_of_mem_passes (hpasses ▸ by simp)).1
    have hrep : rep (State.replacer C.inOrder) p = q := by
      rw [hpasses] at hnodup hperm
      rw [State.replacer_eq, hpasses]
      exact (State.rep_mergeAll_eq_iff_owns hnodup hperm htype hmem hu).mpr howns
    rw [hrep] at hinter
    cases hinter with
    | same heq =>
      subst heq
      obtain rfl : rp = rq := by rwa [hrp, List.cons.injEq, and_iff_left rfl] at hrq
      exact ⟨rfl, rfl, rfl, rfl⟩
    | @literal other hother htype' hp _ _ =>
      have hne : osec ≠ other := by
        rintro rfl
        simp [State.isLiterals_eq_false htype] at htype'
      exact absurd hp (members_disjoint hosec hother hne hmem)
    | @pointer other hother htype' hp hq rs rt hrs hrt _ hsame =>
      rw [State.mergeMergeableSections, getRels_rewrite _ hosec hmem, hrp] at hrs
      rw [State.mergeMergeableSections, getRels_rewrite _ hosec howns.mem, hrq] at hrt
      obtain rfl := List.singleton_inj.mp hrs
      obtain rfl := List.singleton_inj.mp hrt
      exact (samePointer_rewriteRel _).mp hsame

/-- Merging leaves no dangling pointer and keeps every reference, whatever the
order of the insertions is, if and only if the subsections of `__objc_stubs` own
their contents and pointees and every literal pointer that something refers to
is the same pointer as its owner. -/
theorem mergesSoundly_iff (C : Context τ σ ι κ) : C.MergesSoundly ↔ C.MergeSafe :=
  ⟨safe_of_mergesSoundly, mergesSoundly_of_safe⟩

end Sound

end Context

/-- `__TEXT,__objc_methname` of a link in which an object file contains the
method name of a stub.  Subsection `true` is the one that the linker made. -/
def methnameInTwoFiles : Context Unit Bool Bool String where
  subsec internal :=
    { contents := "foo", filePriority := if internal then 0 else 10000, isec := internal }
  sym _ := {}
  rels _ := []
  chunks := [{ type := 0x2, members := [false, true] }]
  objs :=
    [{ file := .obj 0, sections := [false], syms := [], subsections := [false] },
      { file := .obj 1, sections := [true], syms := [], subsections := [true] }]
  methnames := [true]
  disjoint := by decide
  parsed := by decide
  owned := by simp

/-- `methnames` still contains the subsection that was replaced. -/
theorem not_mergesSoundly_methnameInTwoFiles : ¬ methnameInTwoFiles.MergesSoundly := by
  intro h
  have hsafe := (Context.safe_of_mergesSoundly h).contents true (by decide) _
    List.mem_cons_self rfl (by decide) false (by decide) (by decide) rfl
  exact absurd hsafe (by decide)

end Mold.MachO.Literals
