import Mold.MachO.LiteralsMerge

/-!
# Which literal pointers are merged

`uniquify_literal_pointers` compares the subsections that literal pointers refer
to.  What a pointer resolves to also depends on its addend and on the place of a
symbol in its subsection, so the pointers that are merged resolve to one address
exactly if these agree for every pointer and the owner of its pointee.
-/

namespace Mold.MachO.Literals

open Mold.Lib

variable {τ σ ι κ : Type*}

namespace State

variable (st : State τ σ ι κ)

/-- The address of a relocation behind the merges, if the subsections that are
left are at the addresses `addr`. -/
def resolve (R : σ → Option σ) (addr : σ → ℤ) (rel : Relocation τ σ) : Option ℤ :=
  (st.relTarget rel).map fun s => addr (rep R s) + st.relOffset rel

/-- Each of two subsections holds a single relocation, and wherever subsections
are placed, these are pointers to one address. -/
def EqualPointers (R : σ → Option σ) (p q : σ) : Prop :=
  ∃ rp rq, st.getRels p = [rp] ∧ st.getRels q = [rq] ∧
    rp.offset = rq.offset ∧ rp.type = rq.type ∧ rp.size = rq.size ∧
      ∀ addr, ∃ a, st.resolve R addr rp = some a ∧ st.resolve R addr rq = some a

/-- Every literal pointer of a section is the same pointer as the first one with
its pointee, up to the merges of the sections before. -/
def OwnersAgree [DecidableEq σ] : Prop :=
  ∀ done osec rest, st.passes = done ++ osec :: rest → osec.isLiteralPointers = true →
    ∀ p ∈ osec.members, ∀ q, st.Owns done.reverse osec q p →
      ∀ rp rq, st.getRels p = [rp] → st.getRels q = [rq] → st.SamePointer rp rq

variable {st}

theorem resolve_eq_iff {R : σ → Option σ} {rp rq : Relocation τ σ} {u v : σ}
    (hp : st.relTarget rp = some u) (hq : st.relTarget rq = some v)
    (huv : rep R u = rep R v) :
    (∀ addr, ∃ a, st.resolve R addr rp = some a ∧ st.resolve R addr rq = some a) ↔
      st.relOffset rp = st.relOffset rq := by
  simp only [resolve, hp, hq, Option.map_some, Option.some.injEq, huv]
  constructor
  · intro h
    obtain ⟨a, ha, ha'⟩ := h fun _ => 0
    omega
  · intro h addr
    exact ⟨_, rfl, by rw [h]⟩

end State

namespace Context

variable [DecidableEq σ] [DecidableEq κ]

def MergesEqualPointers (C : Context τ σ ι κ) : Prop :=
  ∀ sched : Schedule C.toState, ∀ osec ∈ C.chunks, osec.isLiteralPointers = true →
    ∀ p ∈ osec.members, ∀ q, State.replacer sched p = some q →
      C.EqualPointers (State.replacer sched) p q

variable {C : Context τ σ ι κ}

theorem rep_eq_of_owns (sched : Schedule C.toState) {done rest : List (OutputSection σ)}
    {osec : OutputSection σ} (hpasses : C.passes = done ++ osec :: rest) {p q : σ}
    (howns : C.Owns done.reverse osec q p) :
    ∃ rp rq u v, C.getRels p = [rp] ∧ C.getRels q = [rq] ∧ C.relTarget rp = some u ∧
      C.relTarget rq = some v ∧ rep (State.replacer sched) u = rep (State.replacer sched) v := by
  obtain ⟨v, u, hv, hu, hmerged⟩ := howns.same
  obtain ⟨rp, hrp, hrpu⟩ := getRels_of_pointee hu
  obtain ⟨rq, hrq, hrqv⟩ := getRels_of_pointee hv
  refine ⟨rp, rq, u, v, hrp, hrq, hrpu, hrqv, ?_⟩
  symm
  apply ((replacer_spec sched).2 v u).mpr
  rw [hpasses, List.reverse_append, List.reverse_cons, List.append_assoc]
  exact merged_append (merged_append hmerged)

theorem mergesEqualPointers_of_agree (h : C.OwnersAgree) : C.MergesEqualPointers := by
  intro sched osec hosec htype p hp q hq
  obtain ⟨other, hother, hp', -, ⟨htype', -⟩ | ⟨htype', done, rest, hpasses, howns⟩⟩ :=
    replacer_eq_some sched hq
  · have hne : osec ≠ other := by
      rintro rfl
      simp [State.isLiterals_eq_false htype] at htype'
    exact absurd hp' (members_disjoint hosec hother hne hp)
  · obtain ⟨rp, rq, u, v, hrp, hrq, hu, hv, hrep⟩ := rep_eq_of_owns sched hpasses howns
    have hsame := h done other rest hpasses htype' p hp' q howns rp rq hrp hrq
    exact ⟨rp, rq, hrp, hrq, hsame.offset, hsame.type, hsame.size,
      (State.resolve_eq_iff hu hv hrep).mpr hsame.relOffset⟩

theorem agree_of_mergesEqualPointers (h : C.MergesEqualPointers) : C.OwnersAgree := by
  intro done osec rest hpasses htype p hp q howns rp rq hrp hrq
  have hosec : osec ∈ C.chunks := (mem_chunks_of_mem_passes (hpasses ▸ by simp)).1
  obtain ⟨rp', rq', u, v, hrp', hrq', hu, hv, hrep⟩ :=
    rep_eq_of_owns C.inOrder hpasses howns
  obtain rfl : rp = rp' := by simpa [hrp] using hrp'
  obtain rfl : rq = rq' := by simpa [hrq] using hrq'
  by_cases hpq : p = q
  · subst hpq
    obtain rfl : rp = rq := by simpa [hrp] using hrq
    exact ⟨rfl, rfl, rfl, rfl⟩
  · have hpointee : C.pointee p = some u := by
      rw [State.pointee, hrp]
      exact hu
    have hreplaced : State.replacer C.inOrder p = some q := by
      have hnodup := passes_nodup (C := C)
      have hperm := order_perm_of_mem_passes C.inOrder
      rw [hpasses] at hnodup hperm
      have hq := (State.rep_mergeAll_eq_iff_owns hnodup hperm htype hp hpointee).mpr howns
      rw [← hpasses, ← State.replacer_eq, rep] at hq
      cases hreplacer : State.replacer C.inOrder p with
      | none =>
        rw [hreplacer, Option.getD_none] at hq
        exact absurd hq hpq
      | some o =>
        rw [hreplacer, Option.getD_some] at hq
        rw [hq]
    obtain ⟨rp', rq', hrp', hrq', hoffset, htype', hsize, haddr⟩ :=
      h C.inOrder osec hosec htype p hp q hreplaced
    obtain rfl : rp = rp' := by simpa [hrp] using hrp'
    obtain rfl : rq = rq' := by simpa [hrq] using hrq'
    exact ⟨(State.resolve_eq_iff hu hv hrep).mp haddr, hoffset, htype', hsize⟩

/-- Only equal literal pointers are merged if and only if every literal pointer
has the offset, the type and the size of the first one with its pointee. -/
theorem mergesEqualPointers_iff (C : Context τ σ ι κ) : C.MergesEqualPointers ↔ C.OwnersAgree :=
  ⟨agree_of_mergesEqualPointers, mergesEqualPointers_of_agree⟩

end Context

def pointersIntoString : Context Unit ℕ Bool String where
  subsec s :=
    if s = 0 then { contents := "foobar", filePriority := 1, isec := false }
    else { contents := "", filePriority := 1, isec := true, relOffset := s - 1, nrels := 1 }
  sym _ := {}
  rels isec :=
    if isec then [{ target := .subsec 0 }, { target := .subsec 0, addend := 3 }] else []
  chunks := [{ type := 0x2, members := [0] }, { type := 0x5, members := [1, 2] }]
  objs := [{ file := .obj 0, sections := [false, true], syms := [], subsections := [0, 1, 2] }]
  disjoint := by decide
  parsed := by decide
  owned := by simp

/-- The pointer to the middle of the string is replaced by the one to its start. -/
theorem not_mergesEqualPointers_pointersIntoString : ¬ pointersIntoString.MergesEqualPointers := by
  intro h
  obtain ⟨rp, rq, hrp, hrq, -, -, -, haddr⟩ :=
    h pointersIntoString.inOrder { type := 0x5, members := [1, 2] }
      (List.mem_cons_of_mem _ List.mem_cons_self) rfl 2 (by decide) 1 (by decide)
  obtain rfl := List.singleton_inj.mp hrp
  obtain rfl := List.singleton_inj.mp hrq
  obtain ⟨a, ha, ha'⟩ := haddr fun _ => 0
  have hne : pointersIntoString.resolve (State.replacer pointersIntoString.inOrder)
      (fun _ => 0) { target := .subsec 0, addend := 3 } ≠
      pointersIntoString.resolve (State.replacer pointersIntoString.inOrder)
        (fun _ => 0) { target := .subsec 0 } := by
    decide
  exact hne (ha.trans ha'.symm)

end Mold.MachO.Literals
