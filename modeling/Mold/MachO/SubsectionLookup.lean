import Mold.MachO.SplitSymbols

/-!
# The lookup table for subsections

`find_subsection` searches a sorted vector for the last subsection at or below an address.
A file with many subsections has a table that gives the subsection for the beginning of each
256 bytes, from which the search goes on one by one.  Both ways lead to the same subsection.
-/

namespace Mold.MachO.Subsections

def subsectionLookupShift : ℕ := 8

/-- The inner loop of `build_subsection_lookup` on `next` and `current`. -/
def advance (subsections : List Span) (addr : UInt32) : ℕ → ℕ × Option ℕ → ℕ × Option ℕ
  | 0, st => st
  | fuel + 1, st =>
    match subsections[st.1]? with
    | none => st
    | some subsec =>
      if subsec.inputAddr ≤ addr then
        advance subsections addr fuel (st.1 + 1, some st.1)
      else
        st

/-- The entries of the table from the bucket `i` on. -/
def fillBuckets (subsections : List Span) : ℕ → ℕ → ℕ × Option ℕ → List (Option ℕ)
  | 0, _, _ => []
  | n + 1, i, st =>
    let st' := advance subsections (UInt32.ofNat (i <<< subsectionLookupShift))
      subsections.length st
    st'.2 :: fillBuckets subsections n (i + 1) st'

/-- `build_subsection_lookup`.  An entry is none if it is `NO_SUBSECTION`. -/
def buildSubsectionLookup (subsections : List Span) : List (Option ℕ) :=
  let maxAddr := (subsections.map Span.inputEnd).foldl max 0
  if subsections.length < 1024 then []
  else if maxAddr = 0 then []
  else
    fillBuckets subsections
      ((maxAddr + (1 <<< subsectionLookupShift) - 1) >>> subsectionLookupShift) 0 (0, none)

/-! ## The place of an address -/

def AddrSorted (subsections : List Span) : Prop :=
  subsections.Pairwise fun s t => s.inputAddr ≤ t.inputAddr

def point (subsections : List Span) (addr : UInt32) : ℕ :=
  (subsections.takeWhile fun s => decide (s.inputAddr ≤ addr)).length

def lastAtOrBelow (subsections : List Span) (addr : UInt32) : Option Span :=
  match point subsections addr with
  | 0 => none
  | k + 1 => subsections[k]?

variable {subsections : List Span} {addr : UInt32}

theorem point_le_length (subsections : List Span) (addr : UInt32) :
    point subsections addr ≤ subsections.length :=
  (List.takeWhile_sublist _).length_le

theorem le_iff_lt_point (addr : UInt32) (hsorted : AddrSorted subsections) {k : ℕ} {s : Span}
    (hs : subsections[k]? = some s) : s.inputAddr ≤ addr ↔ k < point subsections addr := by
  induction subsections generalizing k with
  | nil => cases hs
  | cons t l ih =>
    obtain ⟨ht, hl⟩ := List.pairwise_cons.mp hsorted
    rw [point]
    by_cases hle : t.inputAddr ≤ addr
    · have hpos : decide (t.inputAddr ≤ addr) = true := decide_eq_true hle
      rw [List.takeWhile_cons, if_pos hpos, List.length_cons]
      cases k with
      | zero =>
        obtain rfl := Option.some.inj hs
        exact iff_of_true hle (Nat.succ_pos _)
      | succ k => exact (ih hl hs).trans Nat.succ_lt_succ_iff.symm
    · have hneg : ¬ decide (t.inputAddr ≤ addr) = true := by rwa [decide_eq_true_eq]
      rw [List.takeWhile_cons, if_neg hneg]
      refine iff_of_false (fun hs' => hle ?_) (Nat.not_lt_zero k)
      cases k with
      | zero =>
        obtain rfl := Option.some.inj hs
        exact hs'
      | succ k => exact UInt32.le_trans (ht s (List.mem_of_getElem? hs)) hs'

theorem point_mono (hsorted : AddrSorted subsections) {addr' : UInt32} (h : addr ≤ addr') :
    point subsections addr ≤ point subsections addr' := by
  by_contra hlt
  rw [Nat.not_le] at hlt
  have hk := Nat.lt_of_lt_of_le hlt (point_le_length _ _)
  have hs := List.getElem?_eq_getElem hk
  exact Nat.lt_irrefl _ ((le_iff_lt_point _ hsorted hs).mp
    (UInt32.le_trans ((le_iff_lt_point _ hsorted hs).mpr hlt) h))

theorem partitionPoint_eq (hsorted : AddrSorted subsections) {fuel first len : ℕ}
    (hfuel : len < fuel) (hlen : first + len ≤ subsections.length)
    (hfirst : first ≤ point subsections addr) (hlast : point subsections addr ≤ first + len) :
    partitionPoint Span.inputAddr subsections addr fuel first len = point subsections addr := by
  induction fuel generalizing first len with
  | zero => exact absurd hfuel (Nat.not_lt_zero len)
  | succ fuel ih =>
    rw [partitionPoint]
    split
    case isTrue hzero => omega
    case isFalse hpos =>
      have hhalf : len / 2 < len := Nat.div_lt_self (Nat.pos_of_ne_zero hpos) (by decide)
      have hs := List.getElem?_eq_getElem (show first + len / 2 < subsections.length by omega)
      have hiff := le_iff_lt_point addr hsorted hs
      simp only [hs]
      split
      case isTrue hle =>
        have hlt := hiff.mp hle
        exact ih (by omega) (by omega) (by omega) (by omega)
      case isFalse hgt =>
        have hge := mt hiff.mpr hgt
        exact ih (by omega) (by omega) hfirst (by omega)

theorem walkBucket_eq (fuel : ℕ) (hsorted : AddrSorted subsections) {idx : ℕ}
    (hidx : idx < point subsections addr)
    (hfuel : point subsections addr ≤ idx + fuel + 1) :
    walkBucket Span.inputAddr subsections addr fuel idx + 1 = point subsections addr := by
  induction fuel generalizing idx with
  | zero =>
    rw [walkBucket]
    omega
  | succ fuel ih =>
    have hlen : point subsections addr ≤ subsections.length :=
      point_le_length _ _
    rw [walkBucket]
    cases hs : subsections[idx + 1]? with
    | none =>
      rw [List.getElem?_eq_none_iff] at hs
      simp only
      omega
    | some s =>
      have hiff := le_iff_lt_point addr hsorted hs
      simp only
      split
      case isTrue hle => exact ih (hiff.mp hle) (by omega)
      case isFalse hgt =>
        have hge := mt hiff.mpr hgt
        omega

/-! ## Entries of the table -/

def loopState (n : ℕ) : ℕ × Option ℕ :=
  match n with
  | 0 => (0, none)
  | k + 1 => (k + 1, some k)

@[simp] theorem loopState_fst (n : ℕ) : (loopState n).1 = n := by
  cases n <;> rfl

theorem advance_eq (hsorted : AddrSorted subsections) {fuel n : ℕ}
    (hn : n ≤ point subsections addr) (hfuel : point subsections addr ≤ n + fuel) :
    advance subsections addr fuel (loopState n) = loopState (point subsections addr) := by
  induction fuel generalizing n with
  | zero =>
    rw [advance]
    congr 1
    omega
  | succ fuel ih =>
    have hlen : point subsections addr ≤ subsections.length :=
      point_le_length _ _
    rw [advance, loopState_fst]
    cases hs : subsections[n]? with
    | none =>
      rw [List.getElem?_eq_none_iff] at hs
      simp only
      congr 1
      omega
    | some s =>
      have hiff := le_iff_lt_point addr hsorted hs
      simp only
      split
      case isTrue hle => exact ih (hiff.mp hle) (by omega)
      case isFalse hgt =>
        have hge := mt hiff.mpr hgt
        congr 1
        omega

def bucketAddr (i : ℕ) : UInt32 := UInt32.ofNat (i <<< subsectionLookupShift)

theorem toNat_bucketAddr {i : ℕ} (hi : i < 2 ^ 24) : (bucketAddr i).toNat = i * 256 := by
  rw [bucketAddr, UInt32.toNat_ofNat', Nat.shiftLeft_eq, subsectionLookupShift,
    Nat.mod_eq_of_lt (by omega)]

theorem getElem?_fillBuckets (hsorted : AddrSorted subsections) {n i m k : ℕ}
    {entry : Option ℕ} (hm : m ≤ point subsections (bucketAddr i)) (hi : i + k < 2 ^ 24)
    (h : (fillBuckets subsections n i (loopState m))[k]? = some entry) :
    entry = (loopState (point subsections (bucketAddr (i + k)))).2 := by
  induction n generalizing i m k with
  | zero => cases h
  | succ n ih =>
    have hstep : advance subsections (UInt32.ofNat (i <<< subsectionLookupShift))
        subsections.length (loopState m) = loopState (point subsections (bucketAddr i)) :=
      advance_eq hsorted hm (Nat.le_trans (point_le_length _ _) (Nat.le_add_left _ _))
    rw [fillBuckets, hstep] at h
    cases k with
    | zero => exact (Option.some.inj h).symm
    | succ k =>
      have hmono : bucketAddr i ≤ bucketAddr (i + 1) := by
        rw [UInt32.le_iff_toNat_le, toNat_bucketAddr (by omega), toNat_bucketAddr (by omega)]
        omega
      rw [Nat.add_comm k 1, ← Nat.add_assoc] at hi ⊢
      exact ih (point_mono hsorted hmono) hi h

theorem findSubsection_nil (addr : UInt32) (hsorted : AddrSorted subsections) :
    findSubsection Span.inputAddr subsections [] addr = lastAtOrBelow subsections addr := by
  rw [findSubsection]
  simp only [List.getElem?_nil, Option.join_none]
  rw [partitionPoint_eq hsorted (Nat.lt_succ_self _) (Nat.le_of_eq (Nat.zero_add _))
    (Nat.zero_le _) (Nat.le_trans (point_le_length _ _) (Nat.le_of_eq (Nat.zero_add _).symm))]
  unfold lastAtOrBelow
  cases point subsections addr <;> rfl

theorem findSubsection_lookup (hsorted : AddrSorted subsections) :
    findSubsection Span.inputAddr subsections (buildSubsectionLookup subsections) addr =
      lastAtOrBelow subsections addr := by
  have hnil := findSubsection_nil addr hsorted
  rw [buildSubsectionLookup]
  split
  · exact hnil
  · split
    · exact hnil
    · have hbucket : (addr >>> 8).toNat = addr.toNat / 256 := by
        rw [UInt32.toNat_shiftRight]
        exact Nat.shiftRight_eq_div_pow addr.toNat 8
      have hsmall : addr.toNat / 256 < 2 ^ 24 := by
        have hlt := addr.toNat_lt
        omega
      cases hentry : ((fillBuckets subsections ((List.foldl max 0
          (subsections.map Span.inputEnd) + (1 <<< subsectionLookupShift) - 1) >>>
            subsectionLookupShift) 0 (0, none))[(addr >>> 8).toNat]?).join with
      | none =>
        rw [findSubsection, hentry]
        rw [findSubsection] at hnil
        simpa only [List.getElem?_nil, Option.join_none] using hnil
      | some idx =>
        have hget := Option.join_eq_some_iff.mp hentry
        rw [hbucket] at hget
        have hloop := getElem?_fillBuckets hsorted (m := 0) (Nat.zero_le _)
          (by rwa [Nat.zero_add]) hget
        rw [Nat.zero_add] at hloop
        have hbelow : bucketAddr (addr.toNat / 256) ≤ addr := by
          rw [UInt32.le_iff_toNat_le, toNat_bucketAddr hsmall]
          exact Nat.div_mul_le_self _ _
        have hmono := point_mono hsorted hbelow
        have hidx : idx < point subsections addr := by
          cases hpoint : point subsections (bucketAddr (addr.toNat / 256)) with
          | zero =>
            rw [hpoint] at hloop
            cases hloop
          | succ k =>
            rw [hpoint] at hloop hmono
            obtain rfl : idx = k := Option.some.inj hloop
            omega
        have hwalk := walkBucket_eq subsections.length hsorted hidx
          (Nat.le_trans (point_le_length _ _) (by omega))
        rw [findSubsection, hentry]
        simp only
        rw [lastAtOrBelow, ← hwalk]

end Mold.MachO.Subsections
