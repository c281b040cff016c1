import Mathlib.Data.List.Basic
import Mathlib.Data.List.GetD
import Mathlib.Data.List.Pairwise

/-!
# Segments written into a buffer

A serializer writes segments, each of them a list of values at an offset, into
a buffer of fixed length.  If the segments are disjoint and fit, every one of
them can be read back.  `Tiles` describes space reserved for the segments
without gaps; segments with reserved space are disjoint and fit exactly when
none of them is longer than its reservation.
-/

namespace Mold.Lib

variable {β : Type*}

structure Segment (β : Type*) where
  start : ℕ
  bytes : List β

namespace Segment

def stop (s : Segment β) : ℕ := s.start + s.bytes.length

def Disjoint (s t : Segment β) : Prop := s.stop ≤ t.start ∨ t.stop ≤ s.start

/-- Overwrite a buffer with a segment; values beyond the end are lost. -/
def write (buf : List β) (s : Segment β) : List β :=
  buf.mapIdx fun k b => if s.start ≤ k then s.bytes.getD (k - s.start) b else b

@[simp] theorem length_write (buf : List β) (s : Segment β) :
    (write buf s).length = buf.length := by
  simp [write]

theorem getElem?_write (buf : List β) (s : Segment β) (k : ℕ) :
    (write buf s)[k]? = buf[k]?.map fun b =>
      if s.start ≤ k then s.bytes.getD (k - s.start) b else b := by
  simp [write]

theorem getElem?_write_of_not_mem {buf : List β} {s : Segment β} {k : ℕ}
    (h : k < s.start ∨ s.stop ≤ k) : (write buf s)[k]? = buf[k]? := by
  rw [getElem?_write]
  cases hk : buf[k]? with
  | none => rfl
  | some b =>
    simp only [Option.map_some, Option.some.injEq]
    split
    · have hlen : s.bytes.length ≤ k - s.start := by
        rw [stop] at h
        omega
      rw [List.getD_eq_default _ _ hlen]
    · rfl

theorem getElem?_write_of_mem {buf : List β} {s : Segment β} {i : ℕ}
    (hi : i < s.bytes.length) (hfits : s.stop ≤ buf.length) :
    (write buf s)[s.start + i]? = s.bytes[i]? := by
  have hlt : s.start + i < buf.length := by
    rw [stop] at hfits
    omega
  rw [getElem?_write, List.getElem?_eq_getElem hlt, Option.map_some,
    if_pos (Nat.le_add_right _ _), Nat.add_sub_cancel_left,
    List.getD_eq_getElem _ _ hi, List.getElem?_eq_getElem hi]

theorem getElem?_foldl_write_of_not_mem {ss : List (Segment β)} {buf : List β}
    {k : ℕ} (h : ∀ s ∈ ss, k < s.start ∨ s.stop ≤ k) :
    (ss.foldl write buf)[k]? = buf[k]? := by
  induction ss generalizing buf with
  | nil => rfl
  | cons s ss ih =>
    rw [List.foldl_cons, ih fun t ht => h t (List.mem_cons_of_mem s ht)]
    exact getElem?_write_of_not_mem (h s List.mem_cons_self)

/-- Every one of several disjoint segments is found in the buffer. -/
theorem prefix_drop_foldl_write {ss : List (Segment β)} {buf : List β}
    (hdisjoint : ss.Pairwise Disjoint) (hfits : ∀ s ∈ ss, s.stop ≤ buf.length)
    {s : Segment β} (hs : s ∈ ss) :
    s.bytes <+: (ss.foldl write buf).drop s.start := by
  rw [List.prefix_iff_getElem?]
  intro i hi
  rw [List.getElem?_drop]
  induction ss generalizing buf with
  | nil => simp at hs
  | cons t ss ih =>
    rw [List.foldl_cons]
    rw [List.pairwise_cons] at hdisjoint
    rcases List.mem_cons.mp hs with rfl | hs
    · rw [getElem?_foldl_write_of_not_mem]
      · rw [getElem?_write_of_mem hi (hfits s List.mem_cons_self), List.getElem?_eq_getElem hi]
      · intro u hu
        rcases hdisjoint.1 u hu with h | h
        · left
          rw [stop] at h
          omega
        · right
          omega
    · apply ih hdisjoint.2 _ hs
      intro u hu
      rw [length_write]
      exact hfits u (List.mem_cons_of_mem t hu)

end Segment

/-! ## Reserved space -/

structure Placement (β : Type*) extends Segment β where
  reserved : ℕ

/-- The reservations fill the space from `lo` to `hi` without gaps. -/
def Tiles : List (Placement β) → ℕ → ℕ → Prop
  | [], lo, hi => lo = hi
  | p :: ps, lo, hi => p.start = lo ∧ Tiles ps (lo + p.reserved) hi

namespace Tiles

theorem append {ps qs : List (Placement β)} {lo mid hi : ℕ}
    (hps : Tiles ps lo mid) (hqs : Tiles qs mid hi) :
    Tiles (ps ++ qs) lo hi := by
  induction ps generalizing lo with
  | nil =>
    obtain rfl : lo = mid := hps
    exact hqs
  | cons p ps ih => exact ⟨hps.1, ih hps.2⟩

variable {ps : List (Placement β)} {lo hi : ℕ}

theorem le (h : Tiles ps lo hi) : lo ≤ hi := by
  induction ps generalizing lo with
  | nil => exact Nat.le_of_eq h
  | cons p ps ih =>
    have := ih h.2
    omega

theorem le_start (h : Tiles ps lo hi)
    {p : Placement β} (hp : p ∈ ps) : lo ≤ p.start := by
  induction ps generalizing lo with
  | nil => simp at hp
  | cons q ps ih =>
    rcases List.mem_cons.mp hp with rfl | hp
    · exact Nat.le_of_eq h.1.symm
    · have := ih h.2 hp
      omega

theorem start_add_reserved_le (h : Tiles ps lo hi) {p : Placement β} (hp : p ∈ ps) :
    p.start + p.reserved ≤ hi := by
  induction ps generalizing lo with
  | nil => simp at hp
  | cons q ps ih =>
    rcases List.mem_cons.mp hp with rfl | hp
    · rw [h.1]
      exact h.2.le
    · exact ih h.2 hp

theorem pairwise_disjoint (h : Tiles ps lo hi) (hkeep : ∀ p ∈ ps, p.bytes.length ≤ p.reserved) :
    ps.Pairwise fun p q => p.toSegment.Disjoint q.toSegment := by
  induction ps generalizing lo with
  | nil => exact List.Pairwise.nil
  | cons p ps ih =>
    rw [List.pairwise_cons]
    refine ⟨?_, ih h.2 fun q hq => hkeep q (List.mem_cons_of_mem p hq)⟩
    intro q hq
    left
    have hstart := h.2.le_start hq
    have hlen := hkeep p List.mem_cons_self
    rw [Segment.stop, h.1]
    omega

/-- Nonempty segments fit and are disjoint only if every one keeps to its
reservation. -/
theorem length_le_reserved (h : Tiles ps lo hi) (hne : ∀ p ∈ ps, p.bytes ≠ [])
    (hfits : ∀ p ∈ ps, p.stop ≤ hi)
    (hdisjoint : ps.Pairwise fun p q => p.toSegment.Disjoint q.toSegment)
    {p : Placement β} (hp : p ∈ ps) : p.bytes.length ≤ p.reserved := by
  induction ps generalizing lo with
  | nil => simp at hp
  | cons q ps ih =>
    rw [List.pairwise_cons] at hdisjoint
    rcases List.mem_cons.mp hp with rfl | hp
    · obtain ⟨hstart, htail⟩ := h
      cases ps with
      | nil =>
        have hend : lo + p.reserved = hi := htail
        have hstop := hfits p List.mem_cons_self
        rw [Segment.stop] at hstop
        omega
      | cons q ps =>
        have hq : q ∈ p :: q :: ps := by simp
        have hqstart := htail.1
        have hqpos := List.length_pos_iff.mpr (hne q hq)
        rcases hdisjoint.1 q List.mem_cons_self with hle | hle
        · rw [Segment.stop] at hle
          omega
        · rw [Segment.stop] at hle
          omega
    · exact ih h.2 (fun r hr => hne r (List.mem_cons_of_mem q hr))
        (fun r hr => hfits r (List.mem_cons_of_mem q hr)) hdisjoint.2 hp

end Tiles

def Segment.filled (s : Segment β) : Placement β :=
  { s with reserved := s.bytes.length }

theorem Tiles.pairwise_disjoint_of_filled {ss : List (Segment β)} {lo hi : ℕ}
    (h : Tiles (ss.map Segment.filled) lo hi) :
    ss.Pairwise Segment.Disjoint := by
  have hkeep : ∀ p ∈ ss.map Segment.filled, p.bytes.length ≤ p.reserved := by
    intro p hp
    obtain ⟨s, -, rfl⟩ := List.mem_map.mp hp
    exact Nat.le_refl _
  have hdisjoint := h.pairwise_disjoint hkeep
  rw [List.pairwise_map] at hdisjoint
  exact hdisjoint

theorem Tiles.stop_le_of_filled {ss : List (Segment β)} {lo hi : ℕ}
    (h : Tiles (ss.map Segment.filled) lo hi) {s : Segment β} (hs : s ∈ ss) :
    s.stop ≤ hi :=
  h.start_add_reserved_le (List.mem_map_of_mem hs)

end Mold.Lib
