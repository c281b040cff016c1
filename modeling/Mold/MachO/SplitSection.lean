import Mold.MachO.SplitFile

/-!
# Splitting a section by its symbols

The symbols come in the order of their addresses.  Each of them that is no alternate entry
and is inside of the section cuts it, so a symbol is in the subsection that the last cut
before it begins, unless the next cut is at the same address.
-/

namespace Mold.MachO.Subsections

theorem bmod_pos_iff {x : Int} (hlo : -18446744073709551616 < x) (hhi : x < 18446744073709551616) :
    0 < x.bmod 18446744073709551616 ↔
      0 < x ∧ x < 9223372036854775808 ∨ x < -9223372036854775808 := by
  have hcast : ((18446744073709551616 : ℕ) : Int) = 18446744073709551616 := rfl
  rw [Int.bmod_def, hcast]
  by_cases hx : 0 ≤ x
  · rw [Int.emod_eq_of_lt hx hhi]
    split <;> omega
  · have hmod : x % 18446744073709551616 = x + 18446744073709551616 := by
      rw [← Int.add_emod_right, Int.emod_eq_of_lt (by omega) (by omega)]
    rw [hmod]
    split <;> omega

theorem toInt_toInt64 (x : UInt64) :
    x.toInt64.toInt = (x.toNat : Int).bmod 18446744073709551616 := by
  rw [← Int64.toInt_toBitVec, UInt64.toBitVec_toInt64, BitVec.toInt_eq_toNat_bmod]
  rfl

def InputSection.inputEnd (isec : InputSection) : ℕ := isec.addr.toNat + isec.size.toNat

theorem isBoundary_iff {isec : InputSection} {last : Span} (msym : SectSym)
    (hend : isec.inputEnd < 2 ^ 33) (hlast : last.inputAddr.toNat ≤ isec.inputEnd) :
    isBoundary isec last msym = true ↔
      msym.altEntry = false ∧ last.inputAddr.toNat < msym.value.toNat ∧
        msym.value.toNat < isec.inputEnd := by
  have hv : msym.value.toNat < 18446744073709551616 := msym.value.toNat_lt
  have hzero : (0 : Int64).toInt = 0 := rfl
  rw [InputSection.inputEnd] at *
  rw [isBoundary]
  simp only [Bool.and_eq_true, Bool.not_eq_true', decide_eq_true_eq, Int64.lt_iff_toInt_lt,
    and_assoc]
  refine and_congr Iff.rfl ?_
  rw [Int64.toInt_sub, Int64.toInt_sub, Int64.toInt_add, hzero, toInt_toInt64, toInt_toInt64,
    toInt_toInt64, toInt_toInt64, UInt32.toNat_toUInt64]
  simp only [Nat.reducePow, Int.bmod_sub_bmod, Int.sub_bmod_bmod, Int.bmod_add_bmod,
    Int.add_bmod_bmod]
  rw [bmod_pos_iff (by omega) (by omega), bmod_pos_iff (by omega) (by omega)]
  omega

/-- The last subsection ends where the next one begins. -/
def Span.cutAt (last : Span) (addr : UInt64) : Span :=
  { last with inputSize := (addr - last.inputAddr.toUInt64).toUInt32 }

/-- The subsections from the last one on and the subsections given to the symbols, where `n`
is the position of the last one. -/
def splitFrom (idx : ℕ) (isec : InputSection) :
    Span → ℕ → List (SectSym × ℕ) → List Span × List (ℕ × ℕ)
  | last, _, [] => ([last], [])
  | last, n, ent :: l =>
    if isBoundary isec last ent.1 then
      let rest := splitFrom idx isec (addSubsec idx isec ent.1.value) (n + 1) l
      (last.cutAt ent.1.value :: rest.1, (ent.2, n + 1) :: rest.2)
    else
      let rest := splitFrom idx isec last n l
      (rest.1, (ent.2, n) :: rest.2)

variable {idx : ℕ} {isec : InputSection}

theorem foldl_splitStep (ents : List (SectSym × ℕ)) (st : SplitState) :
    ((ents.foldl (splitStep idx isec) st).finished ++ [(ents.foldl (splitStep idx isec) st).last],
        (ents.foldl (splitStep idx isec) st).given) =
      (st.finished ++ (splitFrom idx isec st.last st.finished.length ents).1,
        st.given ++ (splitFrom idx isec st.last st.finished.length ents).2) := by
  induction ents generalizing st with
  | nil => rw [splitFrom, List.append_nil, List.foldl_nil]
  | cons ent l ih =>
    rw [List.foldl_cons, ih, splitFrom]
    cases h : isBoundary isec st.last ent.1 <;> simp [splitStep, h, Span.cutAt]

theorem splitSection_eq (ents : List (SectSym × ℕ)) :
    splitSection idx isec ents = splitFrom idx isec (addSubsec idx isec isec.addr) 0 ents := by
  rw [splitSection]
  simp only [foldl_splitStep, List.nil_append, List.length_nil]

/-! ## Cuts -/

structure IsCut (isec : InputSection) (msym : SectSym) : Prop where
  ordinary : msym.altEntry = false
  above : isec.addr.toNat < msym.value.toNat
  below : msym.value.toNat < isec.inputEnd

/-- The subsections from the one at `start` on begin below 4 GiB, and the last one is
smaller than that. -/
structure CutsFit (isec : InputSection) (start : ℕ) (syms : List SectSym) : Prop where
  low : start < 2 ^ 32
  cuts : ∀ msym ∈ syms, IsCut isec msym → msym.value.toNat < 2 ^ 32
  last : isec.inputEnd < start + 2 ^ 32 ∨
    ∃ msym ∈ syms, IsCut isec msym ∧ isec.inputEnd < msym.value.toNat + 2 ^ 32

variable {start : ℕ} {syms : List SectSym}

theorem CutsFit.inputEnd_lt (h : CutsFit isec start syms) : isec.inputEnd < 2 ^ 33 := by
  have hlow := h.low
  rcases h.last with hlt | ⟨msym, hmem, hcut, hlt⟩
  · omega
  · have hcuts := h.cuts msym hmem hcut
    omega

def Ascending (ents : List (SectSym × ℕ)) : Prop :=
  ents.Pairwise fun a b => a.1.value ≤ b.1.value

/-- What is known of the beginning of the last subsection: it is the section's, or no
symbol behind is below. -/
structure LastAt (isec : InputSection) (u : UInt64) (ents : List (SectSym × ℕ)) : Prop where
  above : isec.addr.toNat ≤ u.toNat
  below : u.toNat ≤ isec.inputEnd
  next : u = isec.addr ∨ ∀ ent ∈ ents, u.toNat ≤ ent.1.value.toNat

theorem addSubsec_inputAddr (u : UInt64) :
    (addSubsec idx isec u).inputAddr.toNat = u.toNat % 2 ^ 32 :=
  UInt64.toNat_toUInt32 u

variable {u : UInt64}

theorem addSubsec_inputSize (hend : isec.inputEnd < 2 ^ 33) (hu : u.toNat ≤ isec.inputEnd) :
    (addSubsec idx isec u).inputSize.toNat = (isec.inputEnd - u.toNat % 2 ^ 32) % 2 ^ 32 := by
  rw [InputSection.inputEnd] at *
  have hsum : (isec.addr + isec.size).toNat = isec.addr.toNat + isec.size.toNat := by
    rw [UInt64.toNat_add]
    omega
  have htrunc : u.toUInt32.toUInt64.toNat = u.toNat % 2 ^ 32 := by
    rw [UInt32.toNat_toUInt64, UInt64.toNat_toUInt32]
  have hle : u.toUInt32.toUInt64 ≤ isec.addr + isec.size := by
    rw [UInt64.le_iff_toNat_le, hsum, htrunc]
    omega
  rw [addSubsec]
  simp only
  rw [UInt64.toNat_toUInt32, UInt64.toNat_sub_of_le _ _ hle, hsum, htrunc]

theorem cutAt_addSubsec (idx : ℕ) (isec : InputSection) {u v : UInt64}
    (hlt : u.toNat < v.toNat) (hv : v.toNat < 2 ^ 32) :
    ((addSubsec idx isec u).cutAt v).inputAddr.toNat = u.toNat ∧
      ((addSubsec idx isec u).cutAt v).inputEnd = v.toNat ∧
      0 < ((addSubsec idx isec u).cutAt v).inputSize.toNat := by
  have haddr : (addSubsec idx isec u).inputAddr.toNat = u.toNat := by
    rw [addSubsec_inputAddr]
    omega
  have hinput : (addSubsec idx isec u).inputAddr.toUInt64.toNat = u.toNat := by
    rw [UInt32.toNat_toUInt64, haddr]
  have hle : (addSubsec idx isec u).inputAddr.toUInt64 ≤ v := by
    rw [UInt64.le_iff_toNat_le, hinput]
    exact Nat.le_of_lt hlt
  have hsize : ((addSubsec idx isec u).cutAt v).inputSize.toNat = v.toNat - u.toNat := by
    rw [Span.cutAt, UInt64.toNat_toUInt32, UInt64.toNat_sub_of_le _ _ hle, hinput]
    omega
  have hstart : ((addSubsec idx isec u).cutAt v).inputAddr.toNat = u.toNat := haddr
  refine ⟨hstart, ?_, ?_⟩
  · rw [Span.inputEnd, hstart, hsize]
    omega
  · omega

section

variable {u : UInt64} {ent : SectSym × ℕ} {l : List (SectSym × ℕ)}

theorem isBoundary_addSubsec_iff (hend : isec.inputEnd < 2 ^ 33)
    (hu : u.toNat ≤ isec.inputEnd) (msym : SectSym) :
    isBoundary isec (addSubsec idx isec u) msym = true ↔
      msym.altEntry = false ∧ u.toNat % 2 ^ 32 < msym.value.toNat ∧
        msym.value.toNat < isec.inputEnd := by
  have hle : (addSubsec idx isec u).inputAddr.toNat ≤ isec.inputEnd := by
    rw [addSubsec_inputAddr]
    omega
  rw [isBoundary_iff msym hend hle, addSubsec_inputAddr]

theorem le_of_not_isBoundary (hend : isec.inputEnd < 2 ^ 33) (hu : u.toNat ≤ isec.inputEnd)
    (h : ¬ isBoundary isec (addSubsec idx isec u) ent.1 = true) (hcut : IsCut isec ent.1) :
    ent.1.value.toNat ≤ u.toNat := by
  rw [isBoundary_addSubsec_iff hend hu] at h
  have hle : ¬ u.toNat % 2 ^ 32 < ent.1.value.toNat := fun hlt =>
    h ⟨hcut.ordinary, hlt, hcut.below⟩
  omega

theorem isCut_of_isBoundary (hend : isec.inputEnd < 2 ^ 33) (haddr : isec.addr.toNat < 2 ^ 32)
    (hlast : LastAt isec u (ent :: l)) (hasc : Ascending (ent :: l))
    (h : isBoundary isec (addSubsec idx isec u) ent.1 = true) :
    IsCut isec ent.1 ∧ u.toNat ≤ ent.1.value.toNat ∧ LastAt isec ent.1.value l := by
  obtain ⟨hord, habove, hbelow⟩ := (isBoundary_addSubsec_iff hend hlast.below ent.1).mp h
  have hsection := hlast.above
  have hle : u.toNat ≤ ent.1.value.toNat ∧ isec.addr.toNat < ent.1.value.toNat := by
    rcases hlast.next with rfl | hnext
    · omega
    · have hu := hnext ent List.mem_cons_self
      omega
  exact ⟨⟨hord, hle.2, hbelow⟩, hle.1, Nat.le_of_lt hle.2, Nat.le_of_lt hbelow,
    .inr (List.pairwise_cons.mp hasc).1⟩

theorem LastAt.tail (h : LastAt isec u (ent :: l)) : LastAt isec u l :=
  ⟨h.above, h.below, h.next.imp_right fun h => (List.forall_mem_cons.mp h).2⟩

end

/-! ## The last subsection -/

variable {ents : List (SectSym × ℕ)}

theorem getLast_splitFrom (n : ℕ)
    (hend : isec.inputEnd < 2 ^ 33) (haddr : isec.addr.toNat < 2 ^ 32)
    (hlast : LastAt isec u ents) (hasc : Ascending ents) :
    ∃ u', (splitFrom idx isec (addSubsec idx isec u) n ents).1.getLast? =
        some (addSubsec idx isec u') ∧ u.toNat ≤ u'.toNat ∧ u'.toNat ≤ isec.inputEnd ∧
      (∀ ent ∈ ents, IsCut isec ent.1 → ent.1.value.toNat ≤ u'.toNat) ∧
      (u' = u ∨ ∃ ent ∈ ents, IsCut isec ent.1 ∧ ent.1.value = u') := by
  induction ents generalizing u n with
  | nil =>
    exact ⟨u, rfl, Nat.le_refl _, hlast.below, fun ent hent => absurd hent List.not_mem_nil,
      .inl rfl⟩
  | cons ent l ih =>
    have hl := (List.pairwise_cons.mp hasc).2
    rw [splitFrom]
    split
    case isTrue hcut =>
      obtain ⟨hcut, hle, hnext⟩ := isCut_of_isBoundary hend haddr hlast hasc hcut
      obtain ⟨u', hget, hvalue, hbelow, hcuts, hsome⟩ := ih (n + 1) hnext hl
      refine ⟨u', ?_, Nat.le_trans hle hvalue, hbelow,
        List.forall_mem_cons.mpr ⟨fun _ => hvalue, hcuts⟩, .inr ?_⟩
      · rw [List.getLast?_cons, hget]
        rfl
      · rcases hsome with rfl | ⟨ent', hmem, h⟩
        · exact ⟨ent, List.mem_cons_self, hcut, rfl⟩
        · exact ⟨ent', List.mem_cons_of_mem _ hmem, h⟩
    case isFalse hno =>
      obtain ⟨u', hget, hvalue, hbelow, hcuts, hsome⟩ := ih n hlast.tail hl
      refine ⟨u', hget, hvalue, hbelow, List.forall_mem_cons.mpr ⟨fun hcut => ?_, hcuts⟩,
        hsome.imp_right fun ⟨ent', hmem, h⟩ => ⟨ent', List.mem_cons_of_mem _ hmem, h⟩⟩
      exact Nat.le_trans (le_of_not_isBoundary hend hlast.below hno hcut) hvalue

theorem Tiles.getLast {lo hi : ℕ} {l : List Span} {s : Span} (h : Tiles lo l hi)
    (hlast : l.getLast? = some s) : s.inputEnd = hi := by
  induction l generalizing lo with
  | nil => cases hlast
  | cons t l ih =>
    cases l with
    | nil =>
      obtain rfl := Option.some.inj hlast
      exact h.2
    | cons t' l => exact ih h.2 hlast

theorem exists_splitFrom_cons (idx : ℕ) (isec : InputSection) (last : Span) (n : ℕ)
    (ents : List (SectSym × ℕ)) :
    ∃ s rest, (splitFrom idx isec last n ents).1 = s :: rest ∧ s.inputAddr = last.inputAddr := by
  induction ents generalizing last n with
  | nil => exact ⟨last, [], rfl, rfl⟩
  | cons ent l ih =>
    rw [splitFrom]
    split
    · exact ⟨_, _, rfl, rfl⟩
    · exact ih last n

theorem lastAt_addr (ents : List (SectSym × ℕ)) : LastAt isec isec.addr ents :=
  ⟨Nat.le_refl _, Nat.le_add_right _ _, .inl rfl⟩

theorem cutsFit_of_tiles (hasc : Ascending ents)
    (h : Tiles isec.addr.toNat (splitSection idx isec ents).1 isec.inputEnd) :
    CutsFit isec isec.addr.toNat (ents.map Prod.fst) := by
  rw [splitSection_eq] at h
  have haddr : isec.addr.toNat < 2 ^ 32 := by
    obtain ⟨s, rest, heq, -⟩ := exists_splitFrom_cons idx isec
      (addSubsec idx isec isec.addr) 0 ents
    rw [heq] at h
    rw [← h.1]
    exact s.inputAddr.toNat_lt
  have hend : isec.inputEnd < 2 ^ 33 := by
    cases hlast : (splitFrom idx isec (addSubsec idx isec isec.addr) 0 ents).1.getLast? with
    | none =>
      obtain ⟨s, rest, heq, -⟩ := exists_splitFrom_cons idx isec
        (addSubsec idx isec isec.addr) 0 ents
      rw [heq] at hlast
      simp at hlast
    | some s =>
      have hs := h.getLast hlast
      have hlo := s.inputAddr.toNat_lt
      have hsize := s.inputSize.toNat_lt
      rw [Span.inputEnd] at hs
      omega
  obtain ⟨u, hget, habove, hbelow, hcuts, hsome⟩ := getLast_splitFrom 0 hend haddr
    (lastAt_addr ents) hasc
  have hfits : u.toNat < 2 ^ 32 ∧ isec.inputEnd < u.toNat + 2 ^ 32 := by
    have hu := h.getLast hget
    rw [Span.inputEnd, addSubsec_inputAddr, addSubsec_inputSize hend hbelow] at hu
    omega
  refine ⟨haddr, List.forall_mem_map.mpr fun ent hent hcut =>
    Nat.lt_of_le_of_lt (hcuts ent hent hcut) hfits.1, ?_⟩
  rcases hsome with rfl | ⟨ent, hent, hcut, rfl⟩
  · exact .inl hfits.2
  · exact .inr ⟨ent.1, List.mem_map_of_mem hent, hcut, hfits.2⟩

theorem CutsFit.next {msym : SectSym}
    (h : CutsFit isec start (msym :: syms)) (hcut : IsCut isec msym)
    (hle : start ≤ msym.value.toNat) : CutsFit isec msym.value.toNat syms where
  low := h.cuts msym List.mem_cons_self hcut
  cuts := (List.forall_mem_cons.mp h.cuts).2
  last := by
    rcases h.last with hlt | ⟨msym', hmem, hcut', hlt⟩
    · exact .inl (by omega)
    · rcases List.mem_cons.mp hmem with rfl | hmem
      · exact .inl hlt
      · exact .inr ⟨msym', hmem, hcut', hlt⟩

theorem CutsFit.skip {msym : SectSym} (h : CutsFit isec start (msym :: syms))
    (hle : IsCut isec msym → msym.value.toNat ≤ start) : CutsFit isec start syms where
  low := h.low
  cuts := (List.forall_mem_cons.mp h.cuts).2
  last := by
    rcases h.last with hlt | ⟨msym', hmem, hcut', hlt⟩
    · exact .inl hlt
    · rcases List.mem_cons.mp hmem with rfl | hmem
      · exact .inl (Nat.lt_of_lt_of_le hlt (Nat.add_le_add_right (hle hcut') _))
      · exact .inr ⟨msym', hmem, hcut', hlt⟩

structure First (isec : InputSection) (idx start : ℕ) (ents : List (SectSym × ℕ)) (s : Span) :
    Prop where
  owner : s.isec = idx
  inputAddr : s.inputAddr.toNat = start
  size : start < isec.inputEnd → 0 < s.inputSize.toNat
  next : ∀ v < isec.inputEnd, (v < s.inputEnd ↔
    ∀ ent ∈ ents, IsCut isec ent.1 → start < ent.1.value.toNat → v < ent.1.value.toNat)

theorem splitFrom_tiles (idx : ℕ) (n : ℕ)
    (haddr : isec.addr.toNat < 2 ^ 32) (hfit : CutsFit isec u.toNat (ents.map Prod.fst))
    (hlast : LastAt isec u ents) (hasc : Ascending ents) :
    ∃ s rest, (splitFrom idx isec (addSubsec idx isec u) n ents).1 = s :: rest ∧
      First isec idx u.toNat ents s ∧ Tiles s.inputEnd rest isec.inputEnd ∧
      ∀ t ∈ rest, t.isec = idx ∧ 0 < t.inputSize.toNat := by
  have hend := hfit.inputEnd_lt
  have hmod : u.toNat % 2 ^ 32 = u.toNat := Nat.mod_eq_of_lt hfit.low
  have hbelow := hlast.below
  induction ents generalizing u n with
  | nil =>
    have hlt : isec.inputEnd < u.toNat + 2 ^ 32 := by
      rcases hfit.last with h | ⟨msym, hmem, -⟩
      · exact h
      · exact absurd hmem List.not_mem_nil
    have hsize : (addSubsec idx isec u).inputSize.toNat = isec.inputEnd - u.toNat := by
      rw [addSubsec_inputSize hend hbelow, hmod]
      omega
    have hstop : (addSubsec idx isec u).inputEnd = isec.inputEnd := by
      rw [Span.inputEnd, addSubsec_inputAddr, hsize, hmod]
      omega
    refine ⟨_, [], rfl, ⟨rfl, by rw [addSubsec_inputAddr, hmod], fun h => by omega,
      fun v hv => ?_⟩, hstop, fun t ht => absurd ht List.not_mem_nil⟩
    exact iff_of_true (hstop ▸ hv) fun ent hent => absurd hent List.not_mem_nil
  | cons ent l ih =>
    obtain ⟨hle, hl⟩ := List.pairwise_cons.mp hasc
    rw [splitFrom]
    split
    case isTrue hbound =>
      obtain ⟨hcut, -, hnext⟩ := isCut_of_isBoundary hend haddr hlast hasc hbound
      have hlt : u.toNat < ent.1.value.toNat := by
        have h := ((isBoundary_addSubsec_iff hend hbelow ent.1).mp hbound).2.1
        omega
      have hfit' := hfit.next hcut (Nat.le_of_lt hlt)
      obtain ⟨s, rest, heq, hs, htiles, hrest⟩ := ih (n + 1) hfit' hnext hl
        (Nat.mod_eq_of_lt hfit'.low) hnext.below
      obtain ⟨hstart, hstop, hsize⟩ := cutAt_addSubsec idx isec hlt hfit'.low
      refine ⟨_, _, rfl, ⟨rfl, hstart, fun _ => hsize, fun v hv => ?_⟩, ?_, ?_⟩
      · rw [hstop]
        constructor
        · intro hv' ent' hmem _ _
          rcases List.mem_cons.mp hmem with rfl | hmem
          · exact hv'
          · exact Nat.lt_of_lt_of_le hv' (hle ent' hmem)
        · exact fun h => h ent List.mem_cons_self hcut hlt
      · rw [hstop, heq]
        exact ⟨hs.inputAddr, htiles⟩
      · rw [heq]
        exact List.forall_mem_cons.mpr ⟨⟨hs.owner, hs.size hcut.below⟩, hrest⟩
    case isFalse hbound =>
      have hno := le_of_not_isBoundary hend hbelow hbound
      obtain ⟨s, rest, heq, hs, hrest⟩ := ih n (hfit.skip hno) hlast.tail hl hmod hbelow
      refine ⟨s, rest, heq, ⟨hs.owner, hs.inputAddr, hs.size, fun v hv => ?_⟩, hrest⟩
      rw [hs.next v hv, List.forall_mem_cons]
      exact ⟨fun h => ⟨fun hcut hlt => absurd hlt (Nat.not_lt.mpr (hno hcut)), h⟩, And.right⟩

/-- No cut behind the symbol separates it from its address: it is no alternate entry, or a
subsection begins at its address before it, or there is no cut at its address. -/
def Stays (isec : InputSection) (start : ℕ) (pre : List (SectSym × ℕ)) (ent : SectSym × ℕ)
    (post : List (SectSym × ℕ)) : Prop :=
  ent.1.altEntry = false ∨ ent.1.value.toNat = start ∨
    (∃ c ∈ pre, IsCut isec c.1 ∧ c.1.value = ent.1.value) ∨
      ∀ c ∈ post, IsCut isec c.1 → c.1.value ≠ ent.1.value

theorem given_splitFrom {ents pre post : List (SectSym × ℕ)}
    {ent : SectSym × ℕ} (n : ℕ) (hents : ents = pre ++ ent :: post)
    (haddr : isec.addr.toNat < 2 ^ 32) (hfit : CutsFit isec u.toNat (ents.map Prod.fst))
    (hlast : LastAt isec u ents) (hasc : Ascending ents) (hlo : u.toNat ≤ ent.1.value.toNat)
    (hhi : ent.1.value.toNat < isec.inputEnd) :
    ∃ p s, (splitFrom idx isec (addSubsec idx isec u) n ents).2[pre.length]? =
        some (ent.2, n + p) ∧
      (splitFrom idx isec (addSubsec idx isec u) n ents).1[p]? = some s ∧ s.isec = idx ∧
      (s.Contains ent.1.value.toNat ↔ Stays isec u.toNat pre ent post) := by
  have hend := hfit.inputEnd_lt
  have hbelow := hlast.below
  induction pre generalizing u n ents with
  | nil =>
    subst hents
    obtain ⟨hle, hl⟩ := List.pairwise_cons.mp hasc
    rw [List.nil_append, splitFrom]
    split
    case isTrue hbound =>
      obtain ⟨hcut, hu, hnext⟩ := isCut_of_isBoundary hend haddr hlast hasc hbound
      obtain ⟨s, rest, heq, hs, -⟩ := splitFrom_tiles idx (n + 1) haddr (hfit.next hcut hu)
        hnext hl
      have hsize := hs.size hcut.below
      refine ⟨1, s, rfl, by rw [List.getElem?_cons_succ, heq]; rfl, hs.owner, ?_⟩
      refine iff_of_true ⟨Nat.le_of_eq hs.inputAddr, ?_⟩ (.inl hcut.ordinary)
      rw [Span.inputEnd, hs.inputAddr]
      omega
    case isFalse hbound =>
      have hno := le_of_not_isBoundary hend hbelow hbound
      obtain ⟨s, rest, heq, hs, -⟩ := splitFrom_tiles idx n haddr (hfit.skip hno) hlast.tail hl
      refine ⟨0, s, rfl, by rw [heq]; rfl, hs.owner, ?_⟩
      rw [Span.Contains, hs.inputAddr, hs.next _ hhi, and_iff_right hlo]
      constructor
      · intro h
        by_cases hstart : ent.1.value.toNat = u.toNat
        · exact .inr (.inl hstart)
        · refine .inr (.inr (.inr fun c hc hcut heq => ?_))
          have hlt := h c hc hcut (by rw [heq]; omega)
          rw [heq] at hlt
          exact Nat.lt_irrefl _ hlt
      · intro h c hc hcut hlt
        have hvalue : ent.1.value.toNat ≤ c.1.value.toNat := hle c hc
        have hstart (h : ent.1.value.toNat = u.toNat) :
            ent.1.value.toNat < c.1.value.toNat := h ▸ hlt
        rcases h with hord | h | ⟨c', hc', -⟩ | h
        · by_contra hge
          have hnot : ¬ u.toNat % 2 ^ 32 < ent.1.value.toNat := fun hlt' =>
            hbound ((isBoundary_addSubsec_iff hend hbelow ent.1).mpr ⟨hord, hlt', hhi⟩)
          have hlow := hfit.low
          omega
        · exact hstart h
        · exact absurd hc' List.not_mem_nil
        · have hne := h c hc hcut
          rw [Ne, ← UInt64.toNat_inj] at hne
          omega
  | cons ent' pre ih =>
    subst hents
    obtain ⟨hle, hl⟩ := List.pairwise_cons.mp hasc
    have hvalue : ent'.1.value.toNat ≤ ent.1.value.toNat :=
      hle ent (List.mem_append_right _ List.mem_cons_self)
    rw [List.cons_append, splitFrom]
    split
    case isTrue hbound =>
      obtain ⟨hcut, hu, hnext⟩ := isCut_of_isBoundary hend haddr hlast hasc hbound
      have hlt := ((isBoundary_addSubsec_iff hend hbelow ent'.1).mp hbound).2.1
      obtain ⟨p, s, hgiven, hspan, howner, hiff⟩ := ih (n + 1) rfl (hfit.next hcut hu) hnext hl
        hvalue hnext.below
      refine ⟨p + 1, s, ?_, hspan, howner, ?_⟩
      · rw [List.length_cons, List.getElem?_cons_succ, hgiven]
        congr 2
        omega
      · have hlow := hfit.low
        rw [hiff, Stays, Stays, UInt64.toNat_inj]
        refine or_congr Iff.rfl ?_
        constructor
        · rintro (h | ⟨c, hc, h⟩ | h)
          · exact .inr (.inl ⟨ent', List.mem_cons_self, hcut, h.symm⟩)
          · exact .inr (.inl ⟨c, List.mem_cons_of_mem _ hc, h⟩)
          · exact .inr (.inr h)
        · rintro (h | ⟨c, hc, hcut', h⟩ | h)
          · omega
          · rcases List.mem_cons.mp hc with rfl | hc
            · exact .inl h.symm
            · exact .inr (.inl ⟨c, hc, hcut', h⟩)
          · exact .inr (.inr h)
    case isFalse hbound =>
      have hno := le_of_not_isBoundary hend hbelow hbound
      obtain ⟨p, s, hgiven, hspan, howner, hiff⟩ := ih n rfl (hfit.skip hno) hlast.tail hl hlo
        hbelow
      refine ⟨p, s, hgiven, hspan, howner, ?_⟩
      rw [hiff, Stays, Stays]
      refine or_congr Iff.rfl ?_
      constructor
      · rintro (h | ⟨c, hc, h⟩ | h)
        · exact .inl h
        · exact .inr (.inl ⟨c, List.mem_cons_of_mem _ hc, h⟩)
        · exact .inr (.inr h)
      · rintro (h | ⟨c, hc, hcut', h⟩ | h)
        · exact .inl h
        · rcases List.mem_cons.mp hc with rfl | hc
          · refine .inl (Nat.le_antisymm ?_ hlo)
            rw [← h]
            exact hno hcut'
          · exact .inr (.inl ⟨c, hc, hcut', h⟩)
        · exact .inr (.inr h)

end Mold.MachO.Subsections
