import Mathlib.Data.List.Destutter
import Mold.Lib.Uleb128

/-!
# Lists of numbers as a chain of differences

A strictly increasing list is stored as the LEB128 codes of the steps from each number to
the next, and a zero byte behind them.  No step is zero, so no code before the end starts
with a zero byte.
-/

namespace Mold.Lib

namespace Uleb

/-- Reading a number takes at least one byte. -/
theorem length_of_decode {bytes rest : List Byte} {n : ℕ} (h : decode bytes = some (n, rest)) :
    rest.length < bytes.length := by
  induction bytes generalizing n with
  | nil => exact absurd h (by simp [decode])
  | cons b bytes ih =>
    rw [decode] at h
    split at h
    case isTrue hlast =>
      simp only [Option.some.injEq, Prod.mk.injEq] at h
      rw [← h.2]
      exact Nat.lt_succ_self _
    case isFalse hmore =>
      cases hrest : decode bytes with
      | none => simp [hrest] at h
      | some result =>
        simp only [hrest, Option.some.injEq, Prod.mk.injEq] at h
        have hlt := ih (n := result.1) (by rw [hrest, ← h.2])
        exact hlt.trans (Nat.lt_succ_self _)

/-- The code of a number other than zero does not start with a zero byte. -/
theorem exists_encode_eq_cons {n : ℕ} (h : n ≠ 0) : ∃ b bytes, encode n = b :: bytes ∧ b ≠ 0 := by
  by_cases hlast : n / 128 = 0
  · refine ⟨_, _, encode_last hlast, fun hzero => h ?_⟩
    have hval := congrArg Fin.val hzero
    rw [val_last, Fin.val_zero] at hval
    omega
  · refine ⟨_, _, encode_more hlast, fun hzero => ?_⟩
    have hval := congrArg Fin.val hzero
    rw [val_more, Fin.val_zero] at hval
    omega

end Uleb

namespace DeltaCode

/-- The steps from `last` to the first number and from each number to the next. -/
def steps (last : ℕ) : List ℕ → List ℕ
  | [] => []
  | val :: vals => (val - last) :: steps val vals

def encodeSteps (deltas : List ℕ) : List Byte :=
  deltas.flatMap Uleb.encode

/-- The numbers that are reached from `last`, up to the first zero byte. -/
def decode (last : ℕ) (bytes : List Byte) : Option (List ℕ) :=
  match bytes with
  | [] => none
  | b :: tail =>
    if b = 0 then some []
    else
      match _ : Uleb.decode (b :: tail) with
      | none => none
      | some (delta, rest) => (decode (last + delta) rest).map (List.cons (last + delta))
termination_by bytes.length
decreasing_by exact Uleb.length_of_decode ‹_›

@[simp] theorem decode_zero_cons (last : ℕ) (rest : List Byte) :
    decode last (0 :: rest) = some [] := by
  rw [decode, if_pos rfl]

theorem decode_encode_append {delta : ℕ} (h : delta ≠ 0) (last : ℕ) (rest : List Byte) :
    decode last (Uleb.encode delta ++ rest) =
      (decode (last + delta) rest).map (List.cons (last + delta)) := by
  obtain ⟨b, bytes, hencode, hb⟩ := Uleb.exists_encode_eq_cons h
  have hread := Uleb.decode_encode_append delta rest
  rw [hencode, List.cons_append] at hread ⊢
  rw [decode, if_neg hb]
  split
  case h_1 hnone => rw [hread] at hnone; exact absurd hnone (by simp)
  case h_2 delta' rest' hsome =>
    rw [hread] at hsome
    simp only [Option.some.injEq, Prod.mk.injEq] at hsome
    rw [hsome.1, hsome.2]

theorem ne_zero_of_mem_steps {last : ℕ} {vals : List ℕ}
    (h : (last :: vals).Pairwise (· < ·)) : ∀ delta ∈ steps last vals, delta ≠ 0 := by
  induction vals generalizing last with
  | nil => exact List.forall_mem_nil _
  | cons val vals ih =>
    obtain ⟨hlast, hvals⟩ := List.pairwise_cons.mp h
    have hlt := hlast val List.mem_cons_self
    rw [steps]
    exact List.forall_mem_cons.mpr ⟨by omega, ih hvals⟩

/-- A strictly increasing list is read back, whatever comes after the zero byte. -/
theorem decode_encodeSteps {last : ℕ} {vals : List ℕ}
    (h : (last :: vals).Pairwise (· < ·)) (rest : List Byte) :
    decode last (encodeSteps (steps last vals) ++ 0 :: rest) = some vals := by
  induction vals generalizing last with
  | nil => exact decode_zero_cons last rest
  | cons val vals ih =>
    obtain ⟨hlast, hvals⟩ := List.pairwise_cons.mp h
    have hlt := hlast val List.mem_cons_self
    have hsum : last + (val - last) = val := by omega
    rw [steps, encodeSteps, List.flatMap_cons, List.append_assoc,
      decode_encode_append (by omega), hsum]
    have htail := ih hvals
    rw [encodeSteps] at htail
    rw [htail]
    rfl

end DeltaCode

section Destutter

variable {α : Type*} [LinearOrder α]

theorem pairwise_lt_destutter {l : List α} (h : l.Pairwise (· ≤ ·)) :
    (l.destutter (· ≠ ·)).Pairwise (· < ·) := by
  have hsub := List.destutter_sublist (· ≠ ·) l
  have hle := List.isChain_iff_getElem.mp (h.sublist hsub).isChain
  have hne := List.isChain_iff_getElem.mp (List.isChain_destutter (· ≠ ·) l)
  apply List.isChain_iff_pairwise.mp
  exact List.isChain_iff_getElem.mpr fun i hi => lt_of_le_of_ne (hle i hi) (hne i hi)

theorem mem_destutter {l : List α} {x : α} : x ∈ l.destutter (· ≠ ·) ↔ x ∈ l := by
  refine ⟨fun hx => (List.destutter_sublist _ l).mem hx, ?_⟩
  cases l with
  | nil => exact id
  | cons a l =>
    rw [List.destutter_cons']
    induction l generalizing a with
    | nil => exact id
    | cons b l ih =>
      intro hx
      by_cases hab : a ≠ b
      · rw [List.destutter'_cons_pos _ hab]
        rcases List.mem_cons.mp hx with rfl | hx
        · exact List.mem_cons_self
        · exact List.mem_cons_of_mem _ (ih b hx)
      · rw [List.destutter'_cons_neg _ hab]
        apply ih a
        rw [← not_not.mp hab] at hx
        simpa using hx

end Destutter

end Mold.Lib
