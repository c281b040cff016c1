import Mathlib.Data.List.Pairwise
import Mathlib.Data.List.Count
import Mathlib.Order.Basic
import Mold.MachO.DataInCode

/-!
# When data in code is translated

The loop compares the entry and the subsection that it has come to.  Each of the
comparisons leaves one of the two lists shorter, and the condition under which the
translation is right says the same about the shorter lists.
-/

namespace Mold.MachO.DataInCode

variable {σ : Type*} {place : Placement σ} {subsec : Subsection σ}
  {subsecs commons : List (Subsection σ)} {ent : Entry} {entries : List Entry}

def AgreesIn (subsecs commons : List (Subsection σ)) (entries : List Entry) : Prop :=
  ∀ place, translate place (subsecs ++ commons) entries = expectedIn place subsecs entries

/-! ## Where the translation comes from -/

theorem fst_of_mem_expectedIn {x : Entry × Entry} (h : x ∈ expectedIn place subsecs entries) :
    ∃ s ∈ subsecs, s.Contains x.1.offset := by
  obtain ⟨e, -, he⟩ := List.mem_filterMap.mp h
  obtain ⟨s, hs, rfl⟩ := Option.map_eq_some_iff.mp he
  have hcontains := List.find?_some hs
  exact ⟨s, List.mem_of_find?_eq_some hs, of_decide_eq_true hcontains⟩

theorem expectedIn_cons_of_not (h : ∀ e ∈ entries, ¬ subsec.Contains e.offset) :
    expectedIn place (subsec :: subsecs) entries = expectedIn place subsecs entries := by
  refine List.filterMap_congr fun e he => ?_
  rw [List.find?_cons_of_neg (by simpa using h e he)]

theorem expectedIn_cons_of_contains (h : subsec.Contains ent.offset) :
    expectedIn place (subsec :: subsecs) (ent :: entries) =
      (ent, moveEntry place subsec ent) :: expectedIn place (subsec :: subsecs) entries := by
  refine List.filterMap_cons_some ?_
  rw [List.find?_cons_of_pos (by simpa using h), Option.map_some]

theorem expectedIn_cons_of_none (h : ∀ s ∈ subsecs, ¬ s.Contains ent.offset) :
    expectedIn place subsecs (ent :: entries) = expectedIn place subsecs entries := by
  refine List.filterMap_cons_none ?_
  have hnone : (subsecs.find? fun s => decide (s.Contains ent.offset)) = none :=
    List.find?_eq_none.mpr fun s hs => by simpa using h s hs
  rw [hnone, Option.map_none]

theorem map_fst_expectedIn :
    (expectedIn place subsecs entries).map Prod.fst =
      entries.filter fun e => (subsecs.find? fun s => s.Contains e.offset).isSome := by
  induction entries with
  | nil => rfl
  | cons e entries ih =>
    rw [expectedIn, List.filterMap_cons, List.filter_cons]
    cases subsecs.find? fun s => decide (s.Contains e.offset) with
    | none => simpa [expectedIn] using ih
    | some s => simpa [expectedIn] using ih

theorem map_fst_translate_sublist :
    ((translate place subsecs entries).map Prod.fst).Sublist entries := by
  induction subsecs generalizing entries with
  | nil => exact List.nil_sublist _
  | cons s subsecs ih =>
    cases entries with
    | nil => exact List.Sublist.refl _
    | cons e entries =>
      rw [translate]
      split
      case isTrue => exact ih
      case isFalse =>
        split
        case isTrue => exact ih.cons_cons e
        case isFalse => exact ih.cons e

theorem translate_congr {a b : σ → ℕ} {text : ℕ} (h : ∀ s ∈ subsecs, a s.id = b s.id) :
    translate ⟨a, text⟩ subsecs entries = translate ⟨b, text⟩ subsecs entries := by
  induction subsecs generalizing entries with
  | nil => rfl
  | cons s subsecs ih =>
    obtain ⟨hs, hsubsecs⟩ := List.forall_mem_cons.mp h
    cases entries with
    | nil => rfl
    | cons e entries =>
      have hmake : makeEntry ⟨a, text⟩ s e = makeEntry ⟨b, text⟩ s e := by
        simp only [makeEntry, hs]
      rw [translate, translate, ih hsubsecs, ih hsubsecs, hmake]

theorem makeEntry_eq_moveEntry_iff (h : subsec.inputAddr ≤ ent.offset) :
    (∀ place, makeEntry place subsec ent = moveEntry place subsec ent) ↔
      (ent.offset - subsec.inputAddr) % 2 ^ 31 = 0 := by
  simp only [makeEntry, moveEntry, Entry.mk.injEq, and_self, and_true]
  constructor
  · intro hplace
    have hzero := hplace ⟨fun _ => 0, 0⟩
    dsimp only at hzero
    omega
  · intro hdist place
    omega

section Step

variable (hsubsecs : ∀ s ∈ subsecs, subsec.inputEnd ≤ s.inputAddr)
  (hentries : ∀ e ∈ entries, ent.offset ≤ e.offset)
variable {offset : ℕ}

theorem not_contains_of_le (h : subsec.inputEnd ≤ offset) :
    ¬ subsec.Contains offset := fun hc => absurd hc.2 (not_lt.mpr h)

section Agrees

include hentries

theorem agreesIn_skip (h : subsec.inputEnd < ent.offset) :
    AgreesIn (subsec :: subsecs) commons (ent :: entries) ↔
      AgreesIn subsecs commons (ent :: entries) := by
  have hnone : ∀ e ∈ ent :: entries, ¬ subsec.Contains e.offset := by
    refine List.forall_mem_cons.mpr ⟨not_contains_of_le h.le, fun e he => ?_⟩
    exact not_contains_of_le (h.le.trans (hentries e he))
  refine forall_congr' fun place => ?_
  rw [expectedIn_cons_of_not hnone, List.cons_append, translate, if_pos h]

theorem agreesIn_end (h : subsec.inputEnd = ent.offset)
    (hnot : ∀ s ∈ subsecs, ¬ s.Contains ent.offset) :
    AgreesIn (subsec :: subsecs) commons (ent :: entries) ↔ AgreesIn subsecs commons entries := by
  have hnone : ∀ e ∈ entries, ¬ subsec.Contains e.offset :=
    fun e he => not_contains_of_le (h.le.trans (hentries e he))
  have hall : ∀ s ∈ subsec :: subsecs, ¬ s.Contains ent.offset :=
    List.forall_mem_cons.mpr ⟨not_contains_of_le h.le, hnot⟩
  refine forall_congr' fun place => ?_
  rw [expectedIn_cons_of_none hall, expectedIn_cons_of_not hnone, List.cons_append, translate,
    if_neg (by omega), if_neg (by omega)]

end Agrees

theorem agreesIn_take (h : subsec.Contains ent.offset)
    (hnone : ∀ e ∈ entries, ¬ subsec.Contains e.offset) :
    AgreesIn (subsec :: subsecs) commons (ent :: entries) ↔
      (ent.offset - subsec.inputAddr) % 2 ^ 31 = 0 ∧ AgreesIn subsecs commons entries := by
  obtain ⟨hle, hlt⟩ := id h
  have hcons (place : Placement σ) :
      translate place (subsec :: subsecs ++ commons) (ent :: entries) =
          expectedIn place (subsec :: subsecs) (ent :: entries) ↔
        makeEntry place subsec ent = moveEntry place subsec ent ∧
          translate place (subsecs ++ commons) entries = expectedIn place subsecs entries := by
    rw [expectedIn_cons_of_contains h, expectedIn_cons_of_not hnone, List.cons_append,
      translate, if_neg (by omega), if_pos hlt, List.cons.injEq, Prod.mk.injEq]
    simp only [true_and]
  rw [AgreesIn, ← makeEntry_eq_moveEntry_iff hle, AgreesIn, ← forall_and]
  exact forall_congr' hcons

theorem not_agreesIn_gap (hsubsecs : ∀ s ∈ subsecs, subsec.inputEnd ≤ s.inputAddr)
    (h : ent.offset < subsec.inputAddr) :
    ¬ AgreesIn (subsec :: subsecs) commons (ent :: entries) := by
  intro hagree
  have hend : subsec.inputAddr ≤ subsec.inputEnd := Nat.le_add_right _ _
  have heq := hagree ⟨fun _ => 0, 0⟩
  rw [List.cons_append, translate, if_neg (by omega), if_pos (by omega)] at heq
  obtain ⟨s, hs, hcontains⟩ := fst_of_mem_expectedIn (heq ▸ List.mem_cons_self)
  rcases List.mem_cons.mp hs with rfl | hs
  · exact absurd hcontains.1 (not_le.mpr h)
  · have hle := hcontains.1
    have hs' := hsubsecs s hs
    dsimp only at hle
    omega

theorem not_agreesIn_second (hentries : (ent :: entries).Pairwise fun d e => d.offset ≤ e.offset)
    (hid : ∀ s ∈ subsecs ++ commons, s.id ≠ subsec.id) (h : subsec.Contains ent.offset)
    {second : Entry} (hsecond : second ∈ entries) (hcontains : subsec.Contains second.offset) :
    ¬ AgreesIn (subsec :: subsecs) commons (ent :: entries) := by
  classical
  intro hagree
  obtain ⟨hle, htail⟩ := List.pairwise_cons.mp hentries
  obtain ⟨next, rest, rfl⟩ : ∃ next rest, entries = next :: rest := by
    cases entries with
    | nil => exact absurd hsecond List.not_mem_nil
    | cons next rest => exact ⟨next, rest, rfl⟩
  have hnext : subsec.Contains next.offset := by
    have hlow := hle next List.mem_cons_self
    refine ⟨h.1.trans hlow, ?_⟩
    rcases List.mem_cons.mp hsecond with rfl | hsecond
    · exact hcontains.2
    · exact ((List.pairwise_cons.mp htail).1 second hsecond).trans_lt hcontains.2
  have hplaced (place : Placement σ) :
      translate place (subsecs ++ commons) (next :: rest) =
        (next, moveEntry place subsec next) :: expectedIn place (subsec :: subsecs) rest := by
    have heq := hagree place
    rw [List.cons_append, translate, if_neg (not_lt.mpr h.2.le), if_pos h.2,
      expectedIn_cons_of_contains h, expectedIn_cons_of_contains hnext, List.cons.injEq] at heq
    exact heq.2
  -- only the right side knows where the subsection is
  have hfirst := hplaced ⟨fun _ => 0, 0⟩
  have hmoved := hplaced ⟨Function.update (fun _ => 0) subsec.id 1, 0⟩
  rw [translate_congr (b := fun _ => 0)
    fun s hs => Function.update_of_ne (hid s hs) _ _, hfirst, List.cons.injEq,
    Prod.mk.injEq] at hmoved
  have hoffset := congrArg Entry.offset hmoved.1.2
  have hlow := hnext.1
  simp only [moveEntry, Function.update_self] at hoffset
  omega

theorem not_agreesIn_end (h : subsec.inputEnd = ent.offset)
    (hcontains : ∃ s ∈ subsecs, s.Contains ent.offset) :
    ¬ AgreesIn (subsec :: subsecs) commons (ent :: entries) := by
  intro hagree
  have heq := congrArg (List.map Prod.fst) (hagree ⟨fun _ => 0, 0⟩)
  rw [List.cons_append, translate, if_neg (by omega), if_neg (by omega), map_fst_expectedIn] at heq
  set inside : Entry → Bool :=
    fun e => ((subsec :: subsecs).find? fun s => decide (s.Contains e.offset)).isSome
  have hent : inside ent = true := by
    obtain ⟨s, hs, hc⟩ := hcontains
    exact List.find?_isSome.mpr ⟨s, List.mem_cons_of_mem _ hs, decide_eq_true hc⟩
  have hsub : ((ent :: entries).filter inside).Sublist entries :=
    heq ▸ map_fst_translate_sublist
  have hlen : ((ent :: entries).filter inside).length ≤ (entries.filter inside).length := by
    simpa only [List.filter_filter, Bool.and_self] using (hsub.filter inside).length_le
  rw [List.filter_cons_of_pos hent, List.length_cons] at hlen
  omega

/-! ## The condition on what is left -/

variable {s : Subsection σ}

theorem isFree_eq_false_iff : IsFree entries s = false ↔ ∃ e ∈ entries, s.Contains e.offset := by
  simp [IsFree]

theorem isFree_eq_true_iff : IsFree entries s = true ↔ ∀ e ∈ entries, ¬ s.Contains e.offset := by
  simp [IsFree]

theorem isFree_cons_of_not (h : ¬ s.Contains ent.offset) :
    IsFree (ent :: entries) s = IsFree entries s := by
  simp [IsFree, h]

theorem countFree_cons_of_not (h : ∀ s ∈ subsecs, ¬ s.Contains ent.offset) :
    countFree subsecs (ent :: entries) offset = countFree subsecs entries offset := by
  refine List.countP_congr fun s hs => ?_
  rw [isFree_cons_of_not (h s hs)]

theorem countFree_cons_of_ne (h : subsec.inputEnd = offset → IsFree entries subsec = false) :
    countFree (subsec :: subsecs) entries offset = countFree subsecs entries offset := by
  refine List.countP_cons_of_neg ?_
  rw [decide_eq_true_eq]
  rintro ⟨hend, hfree⟩
  rw [h hend] at hfree
  cases hfree

theorem countFree_eq_zero (h : ∀ s ∈ subsecs, s.inputEnd ≠ offset) :
    countFree subsecs entries offset = 0 := by
  refine List.countP_eq_zero.mpr fun s hs => ?_
  rw [decide_eq_true_eq]
  exact fun hs' => h s hs hs'.1

theorem countAt_cons (offset : ℕ) : countAt (ent :: entries) offset =
    (if ent.offset = offset then 1 else 0) + countAt entries offset := by
  rw [countAt, List.countP_cons, ← countAt, Nat.add_comm]
  simp only [decide_eq_true_eq]

theorem countAt_cons_of_ne (h : ent.offset ≠ offset) :
    countAt (ent :: entries) offset = countAt entries offset := by
  rw [countAt_cons, if_neg h, Nat.zero_add]

theorem countFree_end (h : ∀ e ∈ ent :: entries, subsec.inputEnd ≤ e.offset)
    (hnot : ∀ s ∈ subsecs, ¬ s.Contains ent.offset) (offset : ℕ) :
    countFree (subsec :: subsecs) (ent :: entries) offset =
      (if subsec.inputEnd = offset then 1 else 0) + countFree subsecs entries offset := by
  have hnone : ∀ e ∈ ent :: entries, ¬ subsec.Contains e.offset :=
    fun e he => not_contains_of_le (h e he)
  rw [countFree, List.countP_cons, ← countFree, countFree_cons_of_not hnot, Nat.add_comm]
  simp only [isFree_eq_true_iff.mpr hnone, and_true, decide_eq_true_eq]

theorem countFree_take (h : subsec.Contains ent.offset)
    (hnot : ∀ s ∈ subsecs, ¬ s.Contains ent.offset) (offset : ℕ) :
    countFree (subsec :: subsecs) (ent :: entries) offset = countFree subsecs entries offset := by
  have hused : IsFree (ent :: entries) subsec = false :=
    isFree_eq_false_iff.mpr ⟨ent, List.mem_cons_self, h⟩
  rw [countFree_cons_of_ne fun _ => hused, countFree_cons_of_not hnot]

theorem countAt_pos {e : Entry} (h : e ∈ entries) : 0 < countAt entries e.offset :=
  List.countP_pos_iff.mpr ⟨e, h, decide_eq_true rfl⟩

section Safe

include hentries

theorem safeIn_skip (h : subsec.inputEnd < ent.offset) :
    SafeIn (subsec :: subsecs) (ent :: entries) ↔ SafeIn subsecs (ent :: entries) := by
  have hlt : ∀ e ∈ ent :: entries, subsec.inputEnd < e.offset :=
    List.forall_mem_cons.mpr ⟨h, fun e he => h.trans_le (hentries e he)⟩
  have hnone : ∀ e ∈ ent :: entries, ¬ subsec.Contains e.offset :=
    fun e he => not_contains_of_le (hlt e he).le
  have hfree {e : Entry} (he : e ∈ ent :: entries) :
      countFree (subsec :: subsecs) (ent :: entries) e.offset =
        countFree subsecs (ent :: entries) e.offset :=
    countFree_cons_of_ne fun hend => absurd hend (hlt e he).ne
  constructor
  · intro hsafe
    refine ⟨fun e he s hs => hsafe.atStart e he s (List.mem_cons_of_mem _ hs),
      fun s hs => hsafe.alone s (List.mem_cons_of_mem _ hs), ?_, ?_⟩
    · rintro e he ⟨s, hs, hc⟩ t ht
      exact hsafe.reached e he ⟨s, List.mem_cons_of_mem _ hs, hc⟩ t (List.mem_cons_of_mem _ ht)
    · intro e he hnot
      have hremoved := hsafe.removed e he (List.forall_mem_cons.mpr ⟨hnone e he, hnot⟩)
      rw [hfree he] at hremoved
      exact hremoved.imp_left fun hle s hs => hle s (List.mem_cons_of_mem _ hs)
  · intro hsafe
    refine ⟨fun e he => List.forall_mem_cons.mpr
      ⟨fun hc => absurd hc (hnone e he), hsafe.atStart e he⟩, ?_, ?_, ?_⟩
    · refine List.forall_mem_cons.mpr ⟨?_, hsafe.alone⟩
      rw [List.countP_eq_zero.mpr fun e he => by simpa using hnone e he]
      exact Nat.zero_le 1
    · rintro e he ⟨s, hs, hc⟩
      refine List.forall_mem_cons.mpr
        ⟨fun hend => absurd hend (hlt e he).ne, hsafe.reached e he ⟨s, ?_, hc⟩⟩
      exact (List.mem_cons.mp hs).resolve_left (by rintro rfl; exact hnone e he hc)
    · intro e he hnot
      rw [hfree he]
      refine (hsafe.removed e he fun s hs => hnot s (List.mem_cons_of_mem _ hs)).imp_left ?_
      exact fun hle => List.forall_mem_cons.mpr ⟨(hlt e he).le, hle⟩

theorem safeIn_end (h : subsec.inputEnd = ent.offset)
    (hnot : ∀ s ∈ subsecs, ¬ s.Contains ent.offset) :
    SafeIn (subsec :: subsecs) (ent :: entries) ↔ SafeIn subsecs entries := by
  have hle : ∀ e ∈ ent :: entries, subsec.inputEnd ≤ e.offset :=
    List.forall_mem_cons.mpr ⟨h.le, fun e he => h.le.trans (hentries e he)⟩
  have hnone : ∀ e ∈ ent :: entries, ¬ subsec.Contains e.offset :=
    fun e he => not_contains_of_le (hle e he)
  have hfree := countFree_end hle hnot
  have hat (offset : ℕ) : countAt (ent :: entries) offset =
      (if subsec.inputEnd = offset then 1 else 0) + countAt entries offset := by
    rw [countAt_cons, h]
  constructor
  · intro hsafe
    refine ⟨fun e he s hs => hsafe.atStart e (List.mem_cons_of_mem _ he) s
      (List.mem_cons_of_mem _ hs), fun s hs => ?_, ?_, ?_⟩
    · exact le_trans ((List.sublist_cons_self _ _).countP_le)
        (hsafe.alone s (List.mem_cons_of_mem _ hs))
    · rintro e he ⟨s, hs, hc⟩ t ht hend
      rw [← isFree_cons_of_not (hnot t ht)]
      exact hsafe.reached e (List.mem_cons_of_mem _ he) ⟨s, List.mem_cons_of_mem _ hs, hc⟩ t
        (List.mem_cons_of_mem _ ht) hend
    · intro e he hno
      have hmem := List.mem_cons_of_mem ent he
      have hremoved := hsafe.removed e hmem (List.forall_mem_cons.mpr ⟨hnone e hmem, hno⟩)
      rw [hfree, hat] at hremoved
      rcases hremoved with hle | hle
      · exact .inl fun s hs => hle s (List.mem_cons_of_mem _ hs)
      · exact .inr (by omega)
  · intro hsafe
    refine ⟨?_, ?_, ?_, ?_⟩
    · refine List.forall_mem_cons.mpr ⟨?_, fun e he => List.forall_mem_cons.mpr ⟨?_, ?_⟩⟩
      · exact List.forall_mem_cons.mpr ⟨fun hc => absurd hc (hnone ent List.mem_cons_self),
          fun s hs hc => absurd hc (hnot s hs)⟩
      · exact fun hc => absurd hc (hnone e (List.mem_cons_of_mem _ he))
      · exact hsafe.atStart e he
    · refine List.forall_mem_cons.mpr ⟨?_, fun s hs => ?_⟩
      · rw [List.countP_eq_zero.mpr fun e he => by simpa using hnone e he]
        exact Nat.zero_le 1
      · rw [List.countP_cons_of_neg (by simpa using hnot s hs)]
        exact hsafe.alone s hs
    · refine List.forall_mem_cons.mpr ⟨?_, fun e he => ?_⟩
      · rintro ⟨s, hs, hc⟩
        rcases List.mem_cons.mp hs with rfl | hs
        · exact absurd hc (hnone ent List.mem_cons_self)
        · exact absurd hc (hnot s hs)
      · rintro ⟨s, hs, hc⟩
        have hs' : s ∈ subsecs :=
          (List.mem_cons.mp hs).resolve_left
            (by rintro rfl; exact hnone e (List.mem_cons_of_mem _ he) hc)
        refine List.forall_mem_cons.mpr ⟨fun hend => ?_, fun t ht hend => ?_⟩
        · rw [← hend, h] at hc
          exact absurd hc (hnot s hs')
        · rw [isFree_cons_of_not (hnot t ht)]
          exact hsafe.reached e he ⟨s, hs', hc⟩ t ht hend
    · -- an entry at the same place is as good as the first one
      have hremoved : ∀ e ∈ entries, (∀ s ∈ subsecs, ¬ s.Contains e.offset) →
          (∀ s ∈ subsec :: subsecs, s.inputEnd ≤ e.offset) ∨
            countAt (ent :: entries) e.offset ≤
              countFree (subsec :: subsecs) (ent :: entries) e.offset := by
        intro e he hno
        rw [hfree, hat]
        rcases hsafe.removed e he hno with hle | hle
        · exact .inl (List.forall_mem_cons.mpr ⟨h.le.trans (hentries e he), hle⟩)
        · exact .inr (by omega)
      refine List.forall_mem_cons.mpr ⟨fun _ => ?_, fun e he hno =>
        hremoved e he fun s hs => hno s (List.mem_cons_of_mem _ hs)⟩
      by_cases hzero : countAt entries ent.offset = 0
      · rw [hfree, hat, hzero]
        exact .inr (Nat.add_le_add_left (Nat.zero_le _) _)
      · obtain ⟨e, he, heq⟩ := List.countP_pos_iff.mp (Nat.pos_of_ne_zero hzero)
        rw [decide_eq_true_eq] at heq
        rw [← heq]
        exact hremoved e he (heq ▸ hnot)

theorem not_safeIn_end (h : subsec.inputEnd = ent.offset)
    (hcontains : ∃ s ∈ subsecs, s.Contains ent.offset) :
    ¬ SafeIn (subsec :: subsecs) (ent :: entries) := by
  intro hsafe
  obtain ⟨s, hs, hc⟩ := hcontains
  have hfree := hsafe.reached ent List.mem_cons_self ⟨s, List.mem_cons_of_mem _ hs, hc⟩ subsec
    List.mem_cons_self h
  obtain ⟨e, he, hce⟩ := isFree_eq_false_iff.mp hfree
  have hle : ∀ e ∈ ent :: entries, ent.offset ≤ e.offset :=
    List.forall_mem_cons.mpr ⟨le_refl _, hentries⟩
  exact not_contains_of_le (h.le.trans (hle e he)) hce

end Safe

theorem not_safeIn_gap (hsubsecs : ∀ s ∈ subsecs, subsec.inputEnd ≤ s.inputAddr)
    (h : ent.offset < subsec.inputAddr) :
    ¬ SafeIn (subsec :: subsecs) (ent :: entries) := by
  intro hsafe
  have hend : ent.offset < subsec.inputEnd := h.trans_le (Nat.le_add_right _ _)
  have hlow : ∀ s ∈ subsec :: subsecs, ent.offset < s.inputAddr := by
    refine List.forall_mem_cons.mpr ⟨h, fun s hs => hend.trans_le (hsubsecs s hs)⟩
  have hends : ∀ s ∈ subsec :: subsecs, s.inputEnd ≠ ent.offset :=
    fun s hs => ((hlow s hs).trans_le (Nat.le_add_right _ _)).ne'
  rcases hsafe.removed ent List.mem_cons_self
    fun s hs hc => absurd hc.1 (not_le.mpr (hlow s hs)) with hle | hle
  · exact absurd (hle subsec List.mem_cons_self) (not_le.mpr hend)
  · rw [countFree_eq_zero hends] at hle
    exact absurd hle (not_le.mpr (countAt_pos List.mem_cons_self))

theorem not_safeIn_second (h : subsec.Contains ent.offset) {second : Entry}
    (hsecond : second ∈ entries) (hcontains : subsec.Contains second.offset) :
    ¬ SafeIn (subsec :: subsecs) (ent :: entries) := by
  intro hsafe
  have halone := hsafe.alone subsec List.mem_cons_self
  have hpos : 0 < entries.countP fun e => decide (subsec.Contains e.offset) :=
    List.countP_pos_iff.mpr ⟨second, hsecond, decide_eq_true hcontains⟩
  rw [List.countP_cons_of_pos (by simpa using h)] at halone
  omega

theorem safeIn_take (hsubsecs : ∀ s ∈ subsecs, subsec.inputEnd ≤ s.inputAddr)
    (hentries : ∀ e ∈ entries, ent.offset ≤ e.offset) (h : subsec.Contains ent.offset)
    (hnone : ∀ e ∈ entries, ¬ subsec.Contains e.offset) :
    SafeIn (subsec :: subsecs) (ent :: entries) ↔
      (ent.offset - subsec.inputAddr) % 2 ^ 31 = 0 ∧ SafeIn subsecs entries := by
  have hbehind : ∀ e ∈ entries, subsec.inputEnd ≤ e.offset := fun e he =>
    not_lt.mp fun hlt => hnone e he ⟨h.1.trans (hentries e he), hlt⟩
  have hother : ∀ s ∈ subsecs, ent.offset < s.inputAddr :=
    fun s hs => h.2.trans_le (hsubsecs s hs)
  have hnot : ∀ s ∈ subsecs, ¬ s.Contains ent.offset :=
    fun s hs hc => absurd hc.1 (not_le.mpr (hother s hs))
  have hused : IsFree (ent :: entries) subsec = false :=
    isFree_eq_false_iff.mpr ⟨ent, List.mem_cons_self, h⟩
  have hfree : ∀ offset, countFree (subsec :: subsecs) (ent :: entries) offset =
      countFree subsecs entries offset := countFree_take h hnot
  have hat : ∀ e ∈ entries, countAt (ent :: entries) e.offset = countAt entries e.offset :=
    fun e he => countAt_cons_of_ne (h.2.trans_le (hbehind e he)).ne
  constructor
  · intro hsafe
    refine ⟨hsafe.atStart ent List.mem_cons_self subsec List.mem_cons_self h,
      fun e he s hs => hsafe.atStart e (List.mem_cons_of_mem _ he) s (List.mem_cons_of_mem _ hs),
      fun s hs => ?_, ?_, ?_⟩
    · exact le_trans ((List.sublist_cons_self _ _).countP_le)
        (hsafe.alone s (List.mem_cons_of_mem _ hs))
    · rintro e he ⟨s, hs, hc⟩ t ht hend
      rw [← isFree_cons_of_not (hnot t ht)]
      exact hsafe.reached e (List.mem_cons_of_mem _ he) ⟨s, List.mem_cons_of_mem _ hs, hc⟩ t
        (List.mem_cons_of_mem _ ht) hend
    · intro e he hno
      have hremoved := hsafe.removed e (List.mem_cons_of_mem _ he)
        (List.forall_mem_cons.mpr ⟨hnone e he, hno⟩)
      rw [hfree, hat e he] at hremoved
      exact hremoved.imp_left fun hle s hs => hle s (List.mem_cons_of_mem _ hs)
  · rintro ⟨hdist, hsafe⟩
    refine ⟨?_, ?_, ?_, ?_⟩
    · refine List.forall_mem_cons.mpr ⟨?_, fun e he => List.forall_mem_cons.mpr ⟨?_, ?_⟩⟩
      · exact List.forall_mem_cons.mpr
          ⟨fun _ => hdist, fun s hs hc => absurd hc (hnot s hs)⟩
      · exact fun hc => absurd hc (hnone e he)
      · exact hsafe.atStart e he
    · refine List.forall_mem_cons.mpr ⟨?_, fun s hs => ?_⟩
      · rw [List.countP_cons_of_pos (by simpa using h),
          List.countP_eq_zero.mpr fun e he => by simpa using hnone e he]
      · rw [List.countP_cons_of_neg (by simpa using hnot s hs)]
        exact hsafe.alone s hs
    · refine List.forall_mem_cons.mpr ⟨fun _ => ?_, fun e he => ?_⟩
      · refine List.forall_mem_cons.mpr ⟨fun hend => absurd hend h.2.ne', fun s hs hend => ?_⟩
        have hle : s.inputAddr ≤ s.inputEnd := Nat.le_add_right _ _
        exact absurd hend ((hother s hs).trans_le hle).ne'
      · rintro ⟨s, hs, hc⟩
        have hs' : s ∈ subsecs :=
          (List.mem_cons.mp hs).resolve_left (by rintro rfl; exact hnone e he hc)
        refine List.forall_mem_cons.mpr ⟨fun _ => hused, fun t ht hend => ?_⟩
        rw [isFree_cons_of_not (hnot t ht)]
        exact hsafe.reached e he ⟨s, hs', hc⟩ t ht hend
    · refine List.forall_mem_cons.mpr
        ⟨fun hno => absurd h (hno subsec List.mem_cons_self), fun e he hno => ?_⟩
      rw [hfree, hat e he]
      refine (hsafe.removed e he fun s hs => hno s (List.mem_cons_of_mem _ hs)).imp_left ?_
      exact fun hle => List.forall_mem_cons.mpr ⟨hbehind e he, hle⟩

section LeftOver

theorem le_of_mem_behind {e : Entry} (h : e ∈ behind subsecs entries) :
    e ∈ entries ∧ ∀ s ∈ subsecs, s.inputEnd ≤ e.offset := by
  obtain ⟨he, hle⟩ := List.mem_filter.mp h
  exact ⟨he, of_decide_eq_true hle⟩

theorem behind_cons_of_le (h : ∀ e ∈ entries, subsec.inputEnd ≤ e.offset) :
    behind (subsec :: subsecs) entries = behind subsecs entries := by
  refine List.filter_congr fun e he => ?_
  simp only [List.forall_mem_cons, h e he, true_and]

theorem behind_cons_of_lt (h : ∃ s ∈ subsecs, ent.offset < s.inputEnd) :
    behind subsecs (ent :: entries) = behind subsecs entries := by
  obtain ⟨s, hs, hlt⟩ := h
  refine List.filter_cons_of_neg ?_
  rw [decide_eq_true_eq]
  exact fun hle => absurd (hle s hs) (not_le.mpr hlt)

theorem leftOver_congr {subsecs' : List (Subsection σ)} {entries' : List Entry}
    (hbehind : behind subsecs entries = behind subsecs' entries')
    (hcount : ∀ e ∈ behind subsecs' entries',
      countAt entries e.offset = countAt entries' e.offset ∧
        countFree subsecs entries e.offset = countFree subsecs' entries' e.offset) :
    leftOver subsecs entries = leftOver subsecs' entries' := by
  rw [leftOver, leftOver, hbehind]
  cases hb : behind subsecs' entries' with
  | nil => rfl
  | cons e rest =>
    obtain ⟨hat, hfree⟩ := hcount e (hb ▸ List.mem_cons_self)
    dsimp only
    rw [hat, hfree]

include hentries in
theorem leftOver_skip (h : subsec.inputEnd < ent.offset) :
    leftOver (subsec :: subsecs) (ent :: entries) = leftOver subsecs (ent :: entries) := by
  have hlt : ∀ e ∈ ent :: entries, subsec.inputEnd < e.offset :=
    List.forall_mem_cons.mpr ⟨h, fun e he => h.trans_le (hentries e he)⟩
  refine leftOver_congr (behind_cons_of_le fun e he => (hlt e he).le) fun e he => ⟨rfl, ?_⟩
  exact countFree_cons_of_ne fun hend => absurd hend (hlt e (le_of_mem_behind he).1).ne

include hentries in
theorem leftOver_end (hsorted : entries.Pairwise fun d e => d.offset ≤ e.offset)
    (h : subsec.inputEnd = ent.offset) (hnot : ∀ s ∈ subsecs, ¬ s.Contains ent.offset) :
    leftOver (subsec :: subsecs) (ent :: entries) = leftOver subsecs entries := by
  have hle : ∀ e ∈ ent :: entries, subsec.inputEnd ≤ e.offset :=
    List.forall_mem_cons.mpr ⟨h.le, fun e he => h.le.trans (hentries e he)⟩
  by_cases hback : ∀ s ∈ subsecs, s.inputEnd ≤ ent.offset
  · have hall : ∀ e ∈ ent :: entries, ∀ s ∈ subsecs, s.inputEnd ≤ e.offset :=
      List.forall_mem_cons.mpr ⟨hback, fun e he s hs => (hback s hs).trans (hentries e he)⟩
    have hbehind : behind (subsec :: subsecs) (ent :: entries) = ent :: entries := by
      rw [behind_cons_of_le hle]
      exact List.filter_eq_self.mpr fun e he => decide_eq_true (hall e he)
    have hrest : behind subsecs entries = entries :=
      List.filter_eq_self.mpr fun e he => decide_eq_true (hall e (List.mem_cons_of_mem _ he))
    rw [leftOver, leftOver, hbehind, hrest]
    dsimp only
    rw [countAt_cons, if_pos rfl, countFree_end hle hnot, if_pos h, Nat.add_min_add_left,
      Nat.add_comm 1, List.drop_succ_cons]
    cases entries with
    | nil => exact List.drop_nil
    | cons e rest =>
      rcases (hentries e List.mem_cons_self).eq_or_lt with heq | hlt
      · rw [heq]
      · have hat : countAt (e :: rest) ent.offset = 0 := by
          refine List.countP_eq_zero.mpr fun d hd => ?_
          rw [decide_eq_true_eq]
          have hle' : ∀ d ∈ e :: rest, e.offset ≤ d.offset :=
            List.forall_mem_cons.mpr ⟨le_refl _, (List.pairwise_cons.mp hsorted).1⟩
          exact (hlt.trans_le (hle' d hd)).ne'
        have hfree : countFree subsecs (e :: rest) e.offset = 0 :=
          countFree_eq_zero fun s hs => ((hback s hs).trans_lt hlt).ne
        dsimp only
        rw [hat, hfree, Nat.zero_min, Nat.min_zero]
  · obtain ⟨s, hs, hlt⟩ : ∃ s ∈ subsecs, ent.offset < s.inputEnd := by
      simpa only [not_forall, not_le, exists_prop] using hback
    refine leftOver_congr ?_ fun e he => ?_
    · rw [behind_cons_of_le hle, behind_cons_of_lt ⟨s, hs, hlt⟩]
    · have hne : ent.offset ≠ e.offset :=
        (hlt.trans_le ((le_of_mem_behind he).2 s hs)).ne
      rw [countAt_cons_of_ne hne, countFree_end hle hnot, if_neg (h ▸ hne), Nat.zero_add]
      exact ⟨rfl, rfl⟩

include hsubsecs hentries in
theorem leftOver_take (h : subsec.Contains ent.offset)
    (hnone : ∀ e ∈ entries, ¬ subsec.Contains e.offset) :
    leftOver (subsec :: subsecs) (ent :: entries) = leftOver subsecs entries := by
  have hbehind : ∀ e ∈ entries, subsec.inputEnd ≤ e.offset := fun e he =>
    not_lt.mp fun hlt => hnone e he ⟨h.1.trans (hentries e he), hlt⟩
  have hnot : ∀ s ∈ subsecs, ¬ s.Contains ent.offset := fun s hs hc =>
    absurd hc.1 (not_le.mpr (h.2.trans_le (hsubsecs s hs)))
  refine leftOver_congr ?_ fun e he => ?_
  · rw [behind_cons_of_lt ⟨subsec, List.mem_cons_self, h.2⟩, behind_cons_of_le hbehind]
  · have hlt : ent.offset < e.offset := h.2.trans_le (hbehind e (le_of_mem_behind he).1)
    rw [countAt_cons_of_ne hlt.ne, countFree_take h hnot]
    exact ⟨rfl, rfl⟩

end LeftOver

end Step

/-! ## The whole loop -/

theorem translate_eq_nil_iff : translate place subsecs entries = [] ↔ PassBy subsecs entries := by
  induction subsecs generalizing entries with
  | nil => simp only [translate, PassBy]
  | cons s subsecs ih =>
    cases entries with
    | nil => simp only [translate, PassBy]
    | cons e entries =>
      rw [translate, PassBy]
      rcases lt_trichotomy s.inputEnd e.offset with hlt | heq | hgt
      · rw [if_pos hlt, if_pos hlt, ih]
        exact (and_iff_right hlt.le).symm
      · rw [if_neg heq.not_lt, if_neg heq.not_gt, if_neg heq.not_lt, ih]
        exact (and_iff_right heq.le).symm
      · rw [if_neg hgt.not_gt, if_pos hgt]
        simp only [List.cons_ne_nil, not_le.mpr hgt, false_and]

theorem expectedIn_nil : expectedIn place [] entries = [] :=
  List.filterMap_eq_nil_iff.mpr fun _ _ => rfl

theorem agreesIn_nil_iff : AgreesIn [] commons entries ↔ PassBy commons entries := by
  simp only [AgreesIn, expectedIn_nil, List.nil_append, translate_eq_nil_iff]
  exact ⟨fun h => h ⟨fun _ => 0, 0⟩, fun h _ => h⟩

theorem leftOver_nil : leftOver ([] : List (Subsection σ)) entries = entries := by
  have hbehind : behind ([] : List (Subsection σ)) entries = entries :=
    List.filter_eq_self.mpr fun e _ => decide_eq_true fun s hs => absurd hs List.not_mem_nil
  rw [leftOver, hbehind]
  cases entries with
  | nil => rfl
  | cons e entries => simp [countFree]

theorem safeIn_nil : SafeIn ([] : List (Subsection σ)) entries := by
  constructor <;> simp

theorem agreesIn_iff (hsubsecs : subsecs.Pairwise fun s t => s.inputEnd ≤ t.inputAddr)
    (hentries : entries.Pairwise fun d e => d.offset ≤ e.offset)
    (hnodup : ((subsecs ++ commons).map Subsection.id).Nodup) :
    AgreesIn subsecs commons entries ↔
      SafeIn subsecs entries ∧ PassBy commons (leftOver subsecs entries) := by
  induction subsecs generalizing entries with
  | nil => rw [agreesIn_nil_iff, leftOver_nil, and_iff_right safeIn_nil]
  | cons s subsecs ih =>
    cases entries with
    | nil =>
      have hagree : AgreesIn (s :: subsecs) commons [] := fun place => rfl
      have hsafe : SafeIn (s :: subsecs) [] := by constructor <;> simp
      have hpass : PassBy commons [] := by cases commons <;> trivial
      exact iff_of_true hagree ⟨hsafe, hpass⟩
    | cons e entries =>
      obtain ⟨hs, hsubsecs⟩ := List.pairwise_cons.mp hsubsecs
      obtain ⟨he, hrest⟩ := List.pairwise_cons.mp hentries
      rw [List.cons_append, List.map_cons, List.nodup_cons] at hnodup
      have hid : ∀ t ∈ subsecs ++ commons, t.id ≠ s.id := fun t ht heq =>
        hnodup.1 (heq ▸ List.mem_map_of_mem ht)
      rcases lt_trichotomy s.inputEnd e.offset with hlt | heq | hgt
      · rw [agreesIn_skip he hlt, safeIn_skip he hlt, leftOver_skip he hlt]
        exact ih hsubsecs hentries hnodup.2
      · by_cases hc : ∃ t ∈ subsecs, t.Contains e.offset
        · exact iff_of_false (not_agreesIn_end heq hc)
            fun h => not_safeIn_end he heq hc h.1
        · have hnot : ∀ t ∈ subsecs, ¬ t.Contains e.offset :=
            fun t ht h => hc ⟨t, ht, h⟩
          rw [agreesIn_end he heq hnot, safeIn_end he heq hnot, leftOver_end he hrest heq hnot]
          exact ih hsubsecs hrest hnodup.2
      · by_cases hgap : e.offset < s.inputAddr
        · exact iff_of_false (not_agreesIn_gap hs hgap)
            fun h => not_safeIn_gap hs hgap h.1
        · have hc : s.Contains e.offset := ⟨not_lt.mp hgap, hgt⟩
          by_cases hsecond : ∃ d ∈ entries, s.Contains d.offset
          · obtain ⟨d, hd, hcd⟩ := hsecond
            exact iff_of_false (not_agreesIn_second hentries hid hc hd hcd)
              fun h => not_safeIn_second hc hd hcd h.1
          · have hnone : ∀ d ∈ entries, ¬ s.Contains d.offset :=
              fun d hd h => hsecond ⟨d, hd, h⟩
            rw [agreesIn_take hc hnone, safeIn_take hs he hc hnone,
              leftOver_take hs he hc hnone, ih hsubsecs hrest hnodup.2, and_assoc]

theorem ObjectFile.agrees_iff_safe (file : ObjectFile σ) :
    (∀ place, file.translated place = expectedIn place file.live file.entries) ↔ file.Safe := by
  have hnodup : ((file.live ++ file.liveCommons).map Subsection.id).Nodup := by
    refine file.nodup.sublist (List.Sublist.map _ ?_)
    exact List.filter_sublist.append List.filter_sublist
  have htranslated (place : Placement σ) : file.translated place =
      translate place (file.live ++ file.liveCommons) file.entries := by
    rw [translated, entries]
    cases file.dataInCode with
    | none => cases h : file.live ++ file.liveCommons <;> rfl
    | some entries => rfl
  have hiff := agreesIn_iff (file.apart.filter _) file.sorted hnodup
  simp only [htranslated]
  exact hiff.trans ⟨fun h => ⟨h.1, h.2⟩, fun h => ⟨h.safeIn, h.passBy⟩⟩

/-- Data in code is translated exactly if, in every file, a live subsection has at most
one entry, at its first byte, and no entry meets a subsection that it does not belong
to. -/
theorem translates_iff (objs : List (ObjectFile σ)) :
    Translates objs ↔ ∀ file ∈ objs, file.Safe := by
  simp only [← ObjectFile.agrees_iff_safe]
  constructor
  · exact fun h file hfile place => h place file hfile
  · exact fun h place file hfile => h file hfile place

def jumpTable : ObjectFile ℕ where
  parsed := [{ id := 0, inputSize := 16 }]
  commons := []
  dataInCode := some [{ offset := 8, length := 8, kind := 4 }]
  apart := List.pairwise_singleton _ _
  sorted := List.pairwise_singleton _ _
  fits := by decide
  nodup := by decide

/-- The table is 8 bytes behind the function and is said to be 8 bytes in front of it. -/
theorem not_translates_jumpTable :
    contents [jumpTable] ⟨fun _ => 4096, 0⟩ = [{ offset := 4088, length := 8, kind := 4 }] ∧
      ¬ Translates [jumpTable] := by
  refine ⟨by decide, fun h => ?_⟩
  have htable := h ⟨fun _ => 4096, 0⟩ jumpTable (List.mem_singleton.mpr rfl)
  revert htable
  decide

end Mold.MachO.DataInCode
