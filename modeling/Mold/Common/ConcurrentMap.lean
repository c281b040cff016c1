import Mathlib.Data.Nat.Notation
import Mathlib.Logic.Function.Basic
import Mathlib.Logic.Relation

/-!
# The concurrent map

`ConcurrentMap` of `common.h` is a hash table of a fixed size, into which several threads
insert keys at the same time.  A slot is empty until a call of `insert` exchanges the null
pointer in `keys` for a marker.  That call then writes the value and the size of the key,
and at last stores the pointer to the key.  The other calls wait at a slot with a marker,
and go on from a slot with another key to the next slot of the shard.

A state holds the arrays of the map and where each call is.  A step is one access of a call
to the arrays.  Calls are interleaved in any order, and `compare_exchange_weak` may fail at
any time.
-/

namespace Mold.ConcurrentMap

variable {τ π α : Type*}

/-- A key as a `std::string_view`: the address of its bytes, and how many there are. -/
structure Key (π : Type*) where
  data : π
  size : ℕ
  deriving DecidableEq, Repr

/-- What an element of `keys` holds: the null pointer, `marker`, or the address of a key. -/
inductive Ptr (π : Type*) where
  | null
  | marker
  | data (p : π)
  deriving DecidableEq, Repr

/-- The calls of `insert` for a map of `nbuckets` slots.  `mem` is the memory that the keys
are in, which nobody writes to, and `hash` the hash function of the callers. -/
structure Calls (τ π α : Type*) where
  nbuckets : UInt64
  mem : π → ℕ → UInt8
  hash : List UInt8 → UInt64
  key : τ → Key π
  val : τ → α

def numShards : UInt64 := 16

def maxRetry : ℕ := 128

def minNbuckets : UInt64 := 2048

/-! ## States -/

/-- Where a call is: before it loads from `keys`, before it exchanges the marker, before it
writes the value, the size and the pointer, or before it compares the keys.  At the end it
returns a slot and whether it has inserted the key, or it gives up. -/
inductive Pc (π : Type*) where
  | load (idx : UInt64) (retry : ℕ)
  | exchange (idx : UInt64) (retry : ℕ)
  | construct (idx : UInt64)
  | setSize (idx : UInt64)
  | publish (idx : UInt64)
  | compare (ptr : π) (idx : UInt64) (retry : ℕ)
  | done (idx : UInt64) (inserted : Bool)
  | full
  deriving DecidableEq, Repr

structure State (τ π α : Type*) where
  keys : UInt64 → Ptr π
  keySizes : UInt64 → UInt32
  values : UInt64 → Option α
  pc : τ → Pc π

namespace Calls

variable (calls : Calls τ π α)

def bytesAt (p : π) (size : ℕ) : List UInt8 :=
  (List.range size).map (calls.mem p)

def bytes (i : τ) : List UInt8 :=
  calls.bytesAt (calls.key i).data (calls.key i).size

/-- The slot at which `insert` starts. -/
def firstIdx (l : List UInt8) : UInt64 :=
  calls.hash l &&& (calls.nbuckets - 1)

/-- The slot after one that holds another key. -/
def nextIdx (idx : UInt64) : UInt64 :=
  let mask := calls.nbuckets / numShards - 1
  (idx &&& ~~~mask) ||| ((idx + 1) &&& mask)

def loop (idx : UInt64) (retry : ℕ) : Pc π :=
  if retry < maxRetry then .load idx retry else .full

/-- Does `insert` find that the slot holds its key? -/
def Matches (key : Key π) (ptr : π) (keySize : UInt32) : Prop :=
  key.size = keySize.toNat ∧ ∀ k < keySize.toNat, calls.mem ptr k = calls.mem key.data k

/-- After `resize`: no slot is used, and each call is at its start. -/
structure Start (st : State τ π α) : Prop where
  keys : ∀ idx, st.keys idx = .null
  pc : ∀ i, st.pc i = loop (calls.firstIdx (calls.bytes i)) 0

variable [DecidableEq τ]

/-- A step of a call of `insert`. -/
inductive Step : State τ π α → State τ π α → Prop
  | loadMarker (st : State τ π α) (i : τ) (idx : UInt64) (retry : ℕ)
      (hpc : st.pc i = .load idx retry) (hkey : st.keys idx = .marker) : Step st st
  | loadNull (st : State τ π α) (i : τ) (idx : UInt64) (retry : ℕ)
      (hpc : st.pc i = .load idx retry) (hkey : st.keys idx = .null) :
      Step st { st with pc := Function.update st.pc i (.exchange idx retry) }
  | loadData (st : State τ π α) (i : τ) (idx : UInt64) (retry : ℕ) (ptr : π)
      (hpc : st.pc i = .load idx retry) (hkey : st.keys idx = .data ptr) :
      Step st { st with pc := Function.update st.pc i (.compare ptr idx retry) }
  | exchangeFails (st : State τ π α) (i : τ) (idx : UInt64) (retry : ℕ)
      (hpc : st.pc i = .exchange idx retry) :
      Step st { st with pc := Function.update st.pc i (.load idx retry) }
  | exchange (st : State τ π α) (i : τ) (idx : UInt64) (retry : ℕ)
      (hpc : st.pc i = .exchange idx retry) (hkey : st.keys idx = .null) :
      Step st
        { st with
          keys := Function.update st.keys idx .marker
          pc := Function.update st.pc i (.construct idx) }
  | construct (st : State τ π α) (i : τ) (idx : UInt64) (hpc : st.pc i = .construct idx) :
      Step st
        { st with
          values := Function.update st.values idx (some (calls.val i))
          pc := Function.update st.pc i (.setSize idx) }
  | setSize (st : State τ π α) (i : τ) (idx : UInt64) (hpc : st.pc i = .setSize idx) :
      Step st
        { st with
          keySizes := Function.update st.keySizes idx (UInt32.ofNat (calls.key i).size)
          pc := Function.update st.pc i (.publish idx) }
  | publish (st : State τ π α) (i : τ) (idx : UInt64) (hpc : st.pc i = .publish idx) :
      Step st
        { st with
          keys := Function.update st.keys idx (.data (calls.key i).data)
          pc := Function.update st.pc i (.done idx true) }
  | found (st : State τ π α) (i : τ) (idx : UInt64) (retry : ℕ) (ptr : π)
      (hpc : st.pc i = .compare ptr idx retry)
      (hmatches : calls.Matches (calls.key i) ptr (st.keySizes idx)) :
      Step st { st with pc := Function.update st.pc i (.done idx false) }
  | next (st : State τ π α) (i : τ) (idx : UInt64) (retry : ℕ) (ptr : π)
      (hpc : st.pc i = .compare ptr idx retry)
      (hother : ¬ calls.Matches (calls.key i) ptr (st.keySizes idx)) :
      Step st { st with pc := Function.update st.pc i (loop (calls.nextIdx idx) (retry + 1)) }

def Reachable (st : State τ π α) : Prop :=
  ∃ start, calls.Start start ∧ Relation.ReflTransGen calls.Step start st

/-- The slot holds a key with the bytes `l`. -/
def Holds (st : State τ π α) (idx : UInt64) (l : List UInt8) : Prop :=
  ∃ ptr, st.keys idx = .data ptr ∧ calls.bytesAt ptr (st.keySizes idx).toNat = l

/-- Insertion if absent: in every run, a key that has been published stays, every key has
one slot, which all its calls return, and one of these calls inserts the key. -/
structure InsertsOnce : Prop where
  stays : ∀ st st', calls.Reachable st → Relation.ReflTransGen calls.Step st st' →
    ∀ idx ptr, st.keys idx = .data ptr →
      st'.keys idx = .data ptr ∧ st'.keySizes idx = st.keySizes idx
  oneSlot : ∀ st, calls.Reachable st → ∀ idx idx' l,
    calls.Holds st idx l → calls.Holds st idx' l → idx = idx'
  holds : ∀ st, calls.Reachable st → ∀ i idx inserted,
    st.pc i = .done idx inserted → calls.Holds st idx (calls.bytes i)
  sameSlot : ∀ st, calls.Reachable st → ∀ i j idx idx' inserted inserted',
    calls.bytes i = calls.bytes j → st.pc i = .done idx inserted →
      st.pc j = .done idx' inserted' → idx = idx'
  oneInserts : ∀ st, calls.Reachable st → ∀ i idx inserted, st.pc i = .done idx inserted →
    ∃! j, calls.bytes j = calls.bytes i ∧ ∃ idx', st.pc j = .done idx' true

end Calls

end Mold.ConcurrentMap
