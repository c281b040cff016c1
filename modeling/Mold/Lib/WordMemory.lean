import Mold.Lib.LittleEndian

/-!
# 64-bit words in memory

`load64` and `store64` access little-endian words of eight bytes.  A list of
updates, each of which replaces the word at its location by a function of the
old word, leaves at every location the image of the first word, provided that
the locations do not overlap.

`loadField` and `storeField` access a number of several bytes in either byte order.  A
store changes the bytes of its field only, and a load gives back what was stored modulo the
range of the field.

`storeBytes` puts a string of bytes at a location, and `loadBytes` reads one.  What is
read depends on the read locations only.
-/

namespace Mold.Lib

abbrev Memory := ℕ → Byte

def load64 (mem : Memory) (loc : ℕ) : ℕ :=
  (mem loc).val + 256 * ((mem (loc + 1)).val + 256 * ((mem (loc + 2)).val +
    256 * ((mem (loc + 3)).val + 256 * ((mem (loc + 4)).val +
      256 * ((mem (loc + 5)).val + 256 * ((mem (loc + 6)).val + 256 * (mem (loc + 7)).val))))))

def store64 (mem : Memory) (loc word : ℕ) : Memory := fun k =>
  if loc ≤ k ∧ k < loc + 8 then Fin.ofNat 256 (word / 256 ^ (k - loc))
  else mem k

def WordsDisjoint (a b : ℕ) : Prop := a + 8 ≤ b ∨ b + 8 ≤ a

theorem WordsDisjoint.symm {a b : ℕ} (h : WordsDisjoint a b) : WordsDisjoint b a := Or.symm h

theorem load64_eq (mem : Memory) (loc : ℕ) :
    load64 mem loc = readLe ((List.range 8).map fun i => mem (loc + i)) := rfl

theorem load64_lt (mem : Memory) (loc : ℕ) : load64 mem loc < 2 ^ 64 := by
  have hlt := readLe_lt ((List.range 8).map fun i => mem (loc + i))
  rw [List.length_map, List.length_range] at hlt
  rw [load64_eq]
  exact hlt

theorem store64_apply (mem : Memory) (loc word i : ℕ) (hi : i < 8) :
    store64 mem loc word (loc + i) = Fin.ofNat 256 (word / 256 ^ i) := by
  rw [store64, if_pos (by omega), Nat.add_sub_cancel_left]

theorem load64_store64 (mem : Memory) (loc word : ℕ) :
    load64 (store64 mem loc word) loc = word % 2 ^ 64 := by
  have hbytes : (List.range 8).map (fun i => store64 mem loc word (loc + i)) = le 8 word := by
    rw [le_eq_map]
    exact List.map_congr_left fun i hi => store64_apply mem loc word i (List.mem_range.mp hi)
  rw [load64_eq, hbytes, readLe_le]
  rfl

theorem load64_store64_of_disjoint (mem : Memory) {loc loc' : ℕ} (word : ℕ)
    (h : WordsDisjoint loc loc') :
    load64 (store64 mem loc word) loc' = load64 mem loc' := by
  have hbyte : ∀ i, i < 8 → store64 mem loc word (loc' + i) = mem (loc' + i) := by
    intro i hi
    apply if_neg
    rw [WordsDisjoint] at h
    omega
  have h₀ := hbyte 0 (by decide)
  rw [Nat.add_zero] at h₀
  rw [load64, load64, h₀, hbyte 1 (by decide), hbyte 2 (by decide),
    hbyte 3 (by decide), hbyte 4 (by decide), hbyte 5 (by decide),
    hbyte 6 (by decide), hbyte 7 (by decide)]

structure WordUpdate where
  loc : ℕ
  apply : ℕ → ℕ

def WordUpdate.run (mem : Memory) (u : WordUpdate) : Memory :=
  store64 mem u.loc (u.apply (load64 mem u.loc))

theorem load64_foldl_of_disjoint {us : List WordUpdate} {mem : Memory} {loc : ℕ}
    (h : ∀ u ∈ us, WordsDisjoint u.loc loc) :
    load64 (us.foldl WordUpdate.run mem) loc = load64 mem loc := by
  induction us generalizing mem with
  | nil => rfl
  | cons u us ih =>
    rw [List.foldl_cons, ih fun v hv => h v (List.mem_cons_of_mem u hv)]
    exact load64_store64_of_disjoint mem _ (h u List.mem_cons_self)

/-- Updates at disjoint locations do not see each other, whatever their order
is. -/
theorem load64_foldl_of_mem {us : List WordUpdate} {mem : Memory}
    (hdisjoint : us.Pairwise fun u v => WordsDisjoint u.loc v.loc)
    {u : WordUpdate} (hu : u ∈ us) :
    load64 (us.foldl WordUpdate.run mem) u.loc = u.apply (load64 mem u.loc) % 2 ^ 64 := by
  induction us generalizing mem with
  | nil => simp at hu
  | cons v us ih =>
    rw [List.pairwise_cons] at hdisjoint
    rw [List.foldl_cons]
    rcases List.mem_cons.mp hu with rfl | hu
    · rw [load64_foldl_of_disjoint fun w hw => (hdisjoint.1 w hw).symm]
      exact load64_store64 mem _ _
    · have hload : load64 (WordUpdate.run mem v) u.loc = load64 mem u.loc :=
        load64_store64_of_disjoint mem _ (hdisjoint.1 u hu)
      rw [ih hdisjoint.2 hu, hload]

/-! ## Fields of any width in memory -/

inductive Endian where
  | little
  | big
  deriving DecidableEq

/-- The place of the byte that counts `256 ^ i` in a field of `n` bytes. -/
def Endian.place (e : Endian) (n i : ℕ) : ℕ :=
  match e with
  | .little => i
  | .big => n - 1 - i

theorem Endian.place_lt (e : Endian) {n i : ℕ} (h : i < n) : e.place n i < n := by
  cases e
  · exact h
  · exact (by omega : n - 1 - i < n)

theorem Endian.place_place (e : Endian) {n i : ℕ} (h : i < n) : e.place n (e.place n i) = i := by
  cases e
  · rfl
  · exact (by omega : n - 1 - (n - 1 - i) = i)

/-- The number in `n` bytes at a location. -/
def loadField (e : Endian) (n : ℕ) (mem : Memory) (loc : ℕ) : ℕ :=
  readLe ((List.range n).map fun i => mem (loc + e.place n i))

/-- The memory after a number is stored in `n` bytes at a location. -/
def storeField (e : Endian) (n : ℕ) (mem : Memory) (loc val : ℕ) : Memory := fun k =>
  if loc ≤ k ∧ k < loc + n then Fin.ofNat 256 (val / 256 ^ e.place n (k - loc)) else mem k

section Field

variable {e : Endian} {n : ℕ} {mem : Memory} {loc val : ℕ}

theorem loadField_lt : loadField e n mem loc < 256 ^ n := by
  have hlt := readLe_lt ((List.range n).map fun i => mem (loc + e.place n i))
  rwa [List.length_map, List.length_range] at hlt

theorem storeField_of_not_mem {k : ℕ} (h : k < loc ∨ loc + n ≤ k) :
    storeField e n mem loc val k = mem k := by
  apply if_neg
  omega

theorem loadField_storeField : loadField e n (storeField e n mem loc val) loc = val % 256 ^ n := by
  have hbytes : (List.range n).map
      (fun i => storeField e n mem loc val (loc + e.place n i)) = le n val := by
    rw [le_eq_map]
    apply List.map_congr_left
    intro i hi
    have hlt := List.mem_range.mp hi
    have hplace := e.place_lt hlt
    rw [storeField, if_pos (by omega), Nat.add_sub_cancel_left, e.place_place hlt]
  rw [loadField, hbytes, readLe_le]

end Field

/-! ## Strings of bytes in memory -/

/-- The memory after a string is stored at a location. -/
def storeBytes (mem : Memory) (loc : ℕ) (bytes : List Byte) : Memory := fun k =>
  if loc ≤ k then bytes.getD (k - loc) (mem k) else mem k

/-- The string of `n` bytes at a location. -/
def loadBytes (mem : Memory) (loc n : ℕ) : List Byte :=
  (List.range n).map fun i => mem (loc + i)

section Store

variable {mem : Memory} {loc : ℕ} {bytes : List Byte}

theorem storeBytes_of_lt {k : ℕ} (h : k < loc) : storeBytes mem loc bytes k = mem k :=
  if_neg (Nat.not_le_of_lt h)

theorem storeBytes_of_le {k : ℕ} (h : loc + bytes.length ≤ k) :
    storeBytes mem loc bytes k = mem k := by
  rw [storeBytes, if_pos (by omega), List.getD_eq_default _ _ (by omega)]

theorem storeBytes_apply {i : ℕ} (h : i < bytes.length) :
    storeBytes mem loc bytes (loc + i) = bytes[i] := by
  rw [storeBytes, if_pos (Nat.le_add_right _ _), Nat.add_sub_cancel_left,
    List.getD_eq_getElem _ _ h]

end Store

@[simp] theorem length_loadBytes (mem : Memory) (loc n : ℕ) :
    (loadBytes mem loc n).length = n := by
  rw [loadBytes, List.length_map, List.length_range]

@[simp] theorem getElem_loadBytes (mem : Memory) (loc n i : ℕ)
    (h : i < (loadBytes mem loc n).length) : (loadBytes mem loc n)[i] = mem (loc + i) := by
  simp [loadBytes]

theorem head?_loadBytes (mem : Memory) (loc : ℕ) {n : ℕ} (h : 0 < n) :
    (loadBytes mem loc n).head? = some (mem loc) := by
  cases n with
  | zero => exact absurd h (Nat.lt_irrefl 0)
  | succ n => rw [loadBytes, List.range_succ_eq_map, List.map_cons]; rfl

theorem loadBytes_congr {mem mem' : Memory} {loc n : ℕ}
    (h : ∀ k, loc ≤ k → k < loc + n → mem k = mem' k) :
    loadBytes mem loc n = loadBytes mem' loc n := by
  apply List.map_congr_left
  intro i hi
  have hlt := List.mem_range.mp hi
  exact h _ (Nat.le_add_right _ _) (by omega)

theorem loadBytes_storeBytes (mem : Memory) (loc : ℕ) {bytes : List Byte} {i n : ℕ}
    (h : i + n ≤ bytes.length) :
    loadBytes (storeBytes mem loc bytes) (loc + i) n = (bytes.drop i).take n := by
  apply List.ext_getElem
  · rw [length_loadBytes, List.length_take, List.length_drop]
    omega
  · intro j hj _
    rw [length_loadBytes] at hj
    rw [getElem_loadBytes, Nat.add_assoc, storeBytes_apply (by omega), List.getElem_take,
      List.getElem_drop]

theorem loadBytes_storeBytes_self (mem : Memory) (loc : ℕ) (bytes : List Byte) :
    loadBytes (storeBytes mem loc bytes) loc bytes.length = bytes := by
  have hload : loadBytes (storeBytes mem loc bytes) (loc + 0) bytes.length = _ :=
    loadBytes_storeBytes mem loc (by omega)
  rwa [Nat.add_zero, List.drop_zero, List.take_length] at hload

section Overwrite

variable {mem : Memory} {loc : ℕ}

theorem storeBytes_append (xs ys : List Byte) :
    storeBytes (storeBytes mem loc xs) (loc + xs.length) ys = storeBytes mem loc (xs ++ ys) := by
  funext k
  simp only [storeBytes, List.getD_eq_getElem?_getD, List.getElem?_append]
  grind

theorem storeBytes_overwrite (xs : List Byte) {ys zs : List Byte} (ws : List Byte)
    (h : ys.length = zs.length) :
    storeBytes (storeBytes mem loc (xs ++ (ys ++ ws))) (loc + xs.length) zs =
      storeBytes mem loc (xs ++ (zs ++ ws)) := by
  funext k
  simp only [storeBytes, List.getD_eq_getElem?_getD, List.getElem?_append, h]
  grind

theorem storeField_little (n val : ℕ) :
    storeField .little n mem loc val = storeBytes mem loc (le n val) := by
  funext k
  rw [storeField, storeBytes]
  by_cases hlow : loc ≤ k
  · by_cases hhigh : k < loc + n
    · have hlt : k - loc < (le n val).length := by
        rw [length_le]
        omega
      rw [if_pos ⟨hlow, hhigh⟩, if_pos hlow, List.getD_eq_getElem _ _ hlt]
      simp only [le_eq_map, List.getElem_map, List.getElem_range, Endian.place]
    · rw [if_neg fun h => hhigh h.2, if_pos hlow, List.getD_eq_default]
      rw [length_le]
      omega
  · rw [if_neg fun h => hlow h.1, if_neg hlow]

theorem loadBytes_add (mem : Memory) (loc m n : ℕ) :
    loadBytes mem loc (m + n) = loadBytes mem loc m ++ loadBytes mem (loc + m) n := by
  rw [loadBytes, List.range_add, List.map_append, List.map_map]
  congr 1
  exact List.map_congr_left fun i _ => congrArg mem (Nat.add_assoc loc m i).symm

end Overwrite

end Mold.Lib
