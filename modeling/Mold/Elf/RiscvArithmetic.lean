import Mold.Lib.A64
import Mold.Lib.WordMemory

/-!
# RISC-V arithmetic relocations

`R_RISCV_ADD*`, `R_RISCV_SUB*` and `R_RISCV_SET*` compute differences of symbols in place.
`arch-riscv.cc` has the cases three times: for sections that are loaded, for those that are
not, and for `.eh_frame`, which takes some of the types.

For loaded sections `R_RISCV_ADD8` and `R_RISCV_SUB8` move the pointer to the field, and
not what it points to.
-/

namespace Mold.Elf.RiscvArithmetic

open Mold.Lib

/-! ## Relocations -/

/-- The types of relocations, without the prefix `R_RISCV_`. -/
inductive RelType where
  | add8 | add16 | add32 | add64
  | sub6 | sub8 | sub16 | sub32 | sub64
  | set6 | set8 | set16 | set32
  deriving DecidableEq

namespace RelType

def bits : RelType → ℕ
  | .sub6 | .set6 => 6
  | .add8 | .sub8 | .set8 => 8
  | .add16 | .sub16 | .set16 => 16
  | .add32 | .sub32 | .set32 => 32
  | .add64 | .sub64 => 64

def update (type : RelType) (content : ℕ) (val : ℤ) : ℕ :=
  match type with
  | .add8 | .add16 | .add32 | .add64 => ((content + val) % 2 ^ type.bits).toNat
  | .sub6 | .sub8 | .sub16 | .sub32 | .sub64 => ((content - val) % 2 ^ type.bits).toNat
  | .set6 | .set8 | .set16 | .set32 => (val % 2 ^ type.bits).toNat

end RelType

/-- A relocation with the location it is applied to and the sum `S + A`. -/
structure Rel where
  type : RelType
  loc : ℕ
  val : ℤ

section Cases

variable (e : Endian)

/-- `*(U<E> *)loc += val` -/
def addTo (n : ℕ) (mem : Memory) (loc : ℕ) (val : ℤ) : Memory :=
  storeField e n mem loc ((loadField e n mem loc + val) % 2 ^ 64).toNat

/-- `*(U<E> *)loc -= val` -/
def subFrom (n : ℕ) (mem : Memory) (loc : ℕ) (val : ℤ) : Memory :=
  storeField e n mem loc ((loadField e n mem loc - val) % 2 ^ 64).toNat

/-- `*(U<E> *)loc = val` -/
def setTo (n : ℕ) (mem : Memory) (loc : ℕ) (val : ℤ) : Memory :=
  storeField e n mem loc (val % 2 ^ 64).toNat

/-- `*loc = (*loc & 0b1100'0000) | (val & 0b0011'1111)` -/
def setLow6 (mem : Memory) (loc : ℕ) (val : ℤ) : Memory :=
  storeField e 1 mem loc
    ((loadField e 1 mem loc &&& 0b1100_0000) ||| ((val % 2 ^ 64).toNat &&& 0b0011_1111))

/-- The cases of `InputSection::apply_reloc_alloc`. -/
def applyRelocAlloc (mem : Memory) (rel : Rel) : Memory :=
  match rel.type with
  | .add8 => mem
  | .add16 => addTo e 2 mem rel.loc rel.val
  | .add32 => addTo e 4 mem rel.loc rel.val
  | .add64 => addTo e 8 mem rel.loc rel.val
  | .sub8 => mem
  | .sub16 => subFrom e 2 mem rel.loc rel.val
  | .sub32 => subFrom e 4 mem rel.loc rel.val
  | .sub64 => subFrom e 8 mem rel.loc rel.val
  | .sub6 => setLow6 e mem rel.loc (loadField e 1 mem rel.loc - rel.val)
  | .set6 => setLow6 e mem rel.loc rel.val
  | .set8 => setTo e 1 mem rel.loc rel.val
  | .set16 => setTo e 2 mem rel.loc rel.val
  | .set32 => setTo e 4 mem rel.loc rel.val

/-- The cases of `InputSection::apply_reloc_nonalloc`. -/
def applyRelocNonalloc (mem : Memory) (rel : Rel) : Memory :=
  match rel.type with
  | .add8 => addTo e 1 mem rel.loc rel.val
  | .add16 => addTo e 2 mem rel.loc rel.val
  | .add32 => addTo e 4 mem rel.loc rel.val
  | .add64 => addTo e 8 mem rel.loc rel.val
  | .sub8 => subFrom e 1 mem rel.loc rel.val
  | .sub16 => subFrom e 2 mem rel.loc rel.val
  | .sub32 => subFrom e 4 mem rel.loc rel.val
  | .sub64 => subFrom e 8 mem rel.loc rel.val
  | .sub6 => setLow6 e mem rel.loc (loadField e 1 mem rel.loc - rel.val)
  | .set6 => setLow6 e mem rel.loc rel.val
  | .set8 => setTo e 1 mem rel.loc rel.val
  | .set16 => setTo e 2 mem rel.loc rel.val
  | .set32 => setTo e 4 mem rel.loc rel.val

/-- The cases of `EhFrameSection::apply_reloc`.  Other types are fatal errors. -/
def applyRelocEhFrame (mem : Memory) (rel : Rel) : Option Memory :=
  match rel.type with
  | .add32 => some (addTo e 4 mem rel.loc rel.val)
  | .sub8 => some (subFrom e 1 mem rel.loc rel.val)
  | .sub16 => some (subFrom e 2 mem rel.loc rel.val)
  | .sub32 => some (subFrom e 4 mem rel.loc rel.val)
  | .sub6 => some (setLow6 e mem rel.loc (loadField e 1 mem rel.loc - rel.val))
  | .set6 => some (setLow6 e mem rel.loc rel.val)
  | .set8 => some (setTo e 1 mem rel.loc rel.val)
  | .set16 => some (setTo e 2 mem rel.loc rel.val)
  | .set32 => some (setTo e 4 mem rel.loc rel.val)
  | .add8 | .add16 | .add64 | .sub64 => none

end Cases

/-! ## Fields -/

/-- The place of a number that relocations compute: all of them apply to it. -/
structure Field where
  loc : ℕ
  bits : ℕ
  rels : List Rel
  rels_mem : ∀ rel ∈ rels, rel.loc = loc ∧ rel.type.bits = bits

def bytesOf (bits : ℕ) : ℕ := (bits + 7) / 8

structure WholeBytes (bits n : ℕ) : Prop where
  bytes_eq : bytesOf bits = n
  pow_eq : 2 ^ bits = 256 ^ n
  bits_le : bits ≤ 64

theorem wholeBytes_8 : WholeBytes 8 1 := ⟨by decide, by decide, by decide⟩

theorem wholeBytes_16 : WholeBytes 16 2 := ⟨by decide, by decide, by decide⟩

theorem wholeBytes_32 : WholeBytes 32 4 := ⟨by decide, by decide, by decide⟩

theorem wholeBytes_64 : WholeBytes 64 8 := ⟨by decide, by decide, by decide⟩

def content (e : Endian) (bits : ℕ) (mem : Memory) (loc : ℕ) : ℕ :=
  loadField e (bytesOf bits) mem loc % 2 ^ bits

structure Holds (e : Endian) (bits loc : ℕ) (mem : Memory) (val : ℕ) (mem' : Memory) : Prop where
  content_eq : content e bits mem' loc = val
  high_eq : loadField e (bytesOf bits) mem' loc / 2 ^ bits =
    loadField e (bytesOf bits) mem loc / 2 ^ bits
  others : ∀ k, k < loc ∨ loc + bytesOf bits ≤ k → mem' k = mem k

def updates (rels : List Rel) (content : ℕ) : ℕ :=
  rels.foldl (fun content rel => rel.type.update content rel.val) content

section Holds

variable {e : Endian} {bits loc : ℕ} {mem mem' : Memory}

theorem Holds.refl : Holds e bits loc mem (content e bits mem loc) mem :=
  ⟨rfl, rfl, fun _ _ => rfl⟩

theorem holds_storeField {n val : ℕ} (hn : WholeBytes bits n) :
    Holds e bits loc mem (val % 2 ^ bits) (storeField e n mem loc val) := by
  obtain ⟨rfl, hbits, -⟩ := hn
  refine ⟨?_, ?_, fun k hk => storeField_of_not_mem hk⟩
  · rw [content, loadField_storeField, hbits, Nat.mod_mod]
  · have hlt : loadField e (bytesOf bits) mem loc < 256 ^ bytesOf bits := loadField_lt
    rw [loadField_storeField, hbits, Nat.div_eq_of_lt hlt,
      Nat.div_eq_of_lt (Nat.mod_lt _ (Nat.pow_pos (by decide)))]

theorem Holds.trans {mem'' : Memory} {val val' : ℕ} (h : Holds e bits loc mem val mem')
    (h' : Holds e bits loc mem' val' mem'') : Holds e bits loc mem val' mem'' :=
  ⟨h'.content_eq, h'.high_eq.trans h.high_eq,
    fun k hk => (h'.others k hk).trans (h.others k hk)⟩

variable {n : ℕ}

theorem content_eq_loadField (hn : WholeBytes bits n) :
    content e bits mem loc = loadField e n mem loc := by
  obtain ⟨rfl, hbits, -⟩ := hn
  rw [content, hbits]
  exact Nat.mod_eq_of_lt loadField_lt

theorem holds_addTo (hn : WholeBytes bits n) (val : ℤ) :
    Holds e bits loc mem ((content e bits mem loc + val) % 2 ^ bits).toNat
      (addTo e n mem loc val) := by
  rw [content_eq_loadField hn, ← BitField.toNat_emod_mod hn.bits_le]
  exact holds_storeField hn

theorem holds_subFrom (hn : WholeBytes bits n) (val : ℤ) :
    Holds e bits loc mem ((content e bits mem loc - val) % 2 ^ bits).toNat
      (subFrom e n mem loc val) := by
  rw [content_eq_loadField hn, ← BitField.toNat_emod_mod hn.bits_le]
  exact holds_storeField hn

theorem holds_setTo (hn : WholeBytes bits n) (val : ℤ) :
    Holds e bits loc mem (val % 2 ^ bits).toNat (setTo e n mem loc val) := by
  rw [← BitField.toNat_emod_mod hn.bits_le]
  exact holds_storeField hn

theorem and_or_low6 {b : ℕ} (hb : b < 256) (val : ℕ) :
    (b &&& 0b1100_0000) ||| (val &&& 0b0011_1111) = b / 64 * 64 + val % 64 := by
  have hhigh : b &&& 0b1100_0000 = b / 2 ^ 6 % 2 ^ 2 * 2 ^ 6 := A64.and_shiftLeft_mask b 6 2
  have hlow : val &&& 0b0011_1111 = val % 2 ^ 6 := Nat.and_two_pow_sub_one_eq_mod val 6
  have hlt : val % 2 ^ 6 < 2 ^ 6 := Nat.mod_lt _ (by decide)
  have hor := Nat.two_pow_add_eq_or_of_lt hlt (b / 2 ^ 6 % 2 ^ 2)
  rw [hhigh, hlow, Nat.mul_comm, ← hor]
  omega

theorem holds_setLow6 (val : ℤ) :
    Holds e 6 loc mem (val % 2 ^ 6).toNat (setLow6 e mem loc val) := by
  have hb : loadField e 1 mem loc < 256 := loadField_lt
  have hmod := BitField.toNat_emod_mod (by decide : 6 ≤ 64) val
  have hload : loadField e 1 (setLow6 e mem loc val) loc =
      loadField e 1 mem loc / 64 * 64 + (val % 2 ^ 6).toNat := by
    rw [setLow6, loadField_storeField, and_or_low6 hb]
    omega
  have hlt : (val % 2 ^ 6).toNat < 64 := by omega
  refine ⟨?_, ?_, fun k hk => storeField_of_not_mem hk⟩
  · change loadField e 1 (setLow6 e mem loc val) loc % 2 ^ 6 = _
    rw [hload]
    omega
  · change loadField e 1 (setLow6 e mem loc val) loc / 2 ^ 6 = loadField e 1 mem loc / 2 ^ 6
    rw [hload]
    omega

theorem sub_low6 (val : ℤ) :
    ((loadField e 1 mem loc - val) % 2 ^ 6).toNat =
      ((content e 6 mem loc - val) % 2 ^ 6).toNat := by
  change _ = (((loadField e 1 mem loc % 2 ^ 6 : ℕ) - val) % 2 ^ 6).toNat
  omega

end Holds

section Step

variable (e : Endian) (mem : Memory) (rel : Rel)

theorem holds_applyRelocNonalloc :
    Holds e rel.type.bits rel.loc mem
      (rel.type.update (content e rel.type.bits mem rel.loc) rel.val)
      (applyRelocNonalloc e mem rel) := by
  obtain ⟨type, loc, val⟩ := rel
  cases type with
  | add8 => exact holds_addTo wholeBytes_8 val
  | add16 => exact holds_addTo wholeBytes_16 val
  | add32 => exact holds_addTo wholeBytes_32 val
  | add64 => exact holds_addTo wholeBytes_64 val
  | sub8 => exact holds_subFrom wholeBytes_8 val
  | sub16 => exact holds_subFrom wholeBytes_16 val
  | sub32 => exact holds_subFrom wholeBytes_32 val
  | sub64 => exact holds_subFrom wholeBytes_64 val
  | set8 => exact holds_setTo wholeBytes_8 val
  | set16 => exact holds_setTo wholeBytes_16 val
  | set32 => exact holds_setTo wholeBytes_32 val
  | set6 => exact holds_setLow6 val
  | sub6 =>
    have hstep := @holds_setLow6 e loc mem (loadField e 1 mem loc - val)
    rwa [sub_low6] at hstep

theorem applyRelocEhFrame_eq {mem' : Memory} (h : applyRelocEhFrame e mem rel = some mem') :
    mem' = applyRelocNonalloc e mem rel := by
  obtain ⟨type, loc, val⟩ := rel
  cases type <;> simp_all [applyRelocEhFrame, applyRelocNonalloc]

theorem applyRelocAlloc_eq :
    applyRelocAlloc e mem rel =
      if rel.type = .add8 ∨ rel.type = .sub8 then mem else applyRelocNonalloc e mem rel := by
  obtain ⟨type, loc, val⟩ := rel
  cases type <;> rfl

end Step

/-! ## Sequences of relocations -/

/-- The loop of `InputSection::apply_reloc_alloc`. -/
def runAlloc (e : Endian) (mem : Memory) (rels : List Rel) : Memory :=
  rels.foldl (applyRelocAlloc e) mem

/-- The loop of `InputSection::apply_reloc_nonalloc`. -/
def runNonalloc (e : Endian) (mem : Memory) (rels : List Rel) : Memory :=
  rels.foldl (applyRelocNonalloc e) mem

/-- The calls of `EhFrameSection::apply_reloc`. -/
def runEhFrame (e : Endian) (mem : Memory) (rels : List Rel) : Option Memory :=
  rels.foldlM (applyRelocEhFrame e) mem

/-- Two relocations for loaded sections are left out. -/
def skips (type : RelType) : Prop := type = .add8 ∨ type = .sub8

instance instDecidableSkips (type : RelType) : Decidable (skips type) :=
  inferInstanceAs (Decidable (_ ∨ _))

/-- The sum after a relocation of what `R_RISCV_ADD8` and `R_RISCV_SUB8` add since the
content was last set. -/
def netStep (sum : ℤ) (rel : Rel) : ℤ :=
  match rel.type with
  | .add8 => sum + rel.val
  | .sub8 => sum - rel.val
  | .set6 | .set8 | .set16 | .set32 => 0
  | _ => sum

def net (rels : List Rel) : ℤ := rels.foldl netStep 0

/-- All three copies give a field the content that its relocations compute, and leave the
other bits alone. -/
structure Agree (e : Endian) (mem : Memory) (field : Field) : Prop where
  alloc : Holds e field.bits field.loc mem
    (updates field.rels (content e field.bits mem field.loc)) (runAlloc e mem field.rels)
  nonalloc : Holds e field.bits field.loc mem
    (updates field.rels (content e field.bits mem field.loc)) (runNonalloc e mem field.rels)
  ehFrame : ∀ mem', runEhFrame e mem field.rels = some mem' →
    Holds e field.bits field.loc mem (updates field.rels (content e field.bits mem field.loc)) mem'

section Run

variable {e : Endian} {bits loc : ℕ} {mem : Memory} {rels : List Rel}

theorem holds_runNonalloc (h : ∀ rel ∈ rels, rel.loc = loc ∧ rel.type.bits = bits) :
    Holds e bits loc mem (updates rels (content e bits mem loc)) (runNonalloc e mem rels) := by
  induction rels generalizing mem with
  | nil => exact Holds.refl
  | cons rel rels ih =>
    obtain ⟨⟨rfl, rfl⟩, hrels⟩ := List.forall_mem_cons.mp h
    have hstep := holds_applyRelocNonalloc e mem rel
    have hrest := @ih (applyRelocNonalloc e mem rel) hrels
    rw [hstep.content_eq] at hrest
    exact hstep.trans hrest

theorem runEhFrame_eq {mem' : Memory} (h : runEhFrame e mem rels = some mem') :
    mem' = runNonalloc e mem rels := by
  induction rels generalizing mem with
  | nil => exact (Option.some.inj h).symm
  | cons rel rels ih =>
    rw [runEhFrame, List.foldlM_cons, Option.bind_eq_bind, Option.bind_eq_some_iff] at h
    obtain ⟨mem₁, hstep, hrest⟩ := h
    rw [applyRelocEhFrame_eq e mem rel hstep] at hrest
    exact ih hrest

/-- The content that is left if two types do nothing. -/
def updatesAlloc (rels : List Rel) (content : ℕ) : ℕ :=
  rels.foldl (fun content rel =>
    if skips rel.type then content else rel.type.update content rel.val) content

theorem holds_runAlloc (h : ∀ rel ∈ rels, rel.loc = loc ∧ rel.type.bits = bits) :
    Holds e bits loc mem (updatesAlloc rels (content e bits mem loc)) (runAlloc e mem rels) := by
  induction rels generalizing mem with
  | nil => exact Holds.refl
  | cons rel rels ih =>
    obtain ⟨⟨rfl, rfl⟩, hrels⟩ := List.forall_mem_cons.mp h
    have hstep : Holds e rel.type.bits rel.loc mem
        (if skips rel.type then content e rel.type.bits mem rel.loc
          else rel.type.update (content e rel.type.bits mem rel.loc) rel.val)
        (applyRelocAlloc e mem rel) := by
      rw [applyRelocAlloc_eq]
      by_cases hskip : skips rel.type
      · rw [if_pos hskip, if_pos (by exact hskip)]
        exact Holds.refl
      · rw [if_neg hskip, if_neg (by exact hskip)]
        exact holds_applyRelocNonalloc e mem rel
    have hrest := @ih (applyRelocAlloc e mem rel) hrels
    rw [hstep.content_eq] at hrest
    exact hstep.trans hrest

end Run

/-! ## What the missing types amount to -/

theorem update_lt (type : RelType) (content : ℕ) (val : ℤ) :
    type.update content val < 2 ^ type.bits := by
  cases type <;> simp only [RelType.update, RelType.bits] <;> omega

theorem emod_step {c c' : ℕ} {sum : ℤ} (rel : Rel)
    (h : (c : ℤ) % 2 ^ rel.type.bits = (c' + sum) % 2 ^ rel.type.bits) :
    (rel.type.update c rel.val : ℤ) % 2 ^ rel.type.bits =
      (((if skips rel.type then c' else rel.type.update c' rel.val : ℕ) : ℤ) +
        netStep sum rel) % 2 ^ rel.type.bits := by
  obtain ⟨type, loc, val⟩ := rel
  cases type <;>
    simp only [RelType.update, RelType.bits, netStep, skips, reduceCtorEq, or_self, or_false,
      or_true, if_true, if_false] at h ⊢ <;>
    omega

section Net

variable {bits loc : ℕ} {rels : List Rel}

theorem emod_updates (h : ∀ rel ∈ rels, rel.type.bits = bits) {c c' : ℕ} {sum : ℤ}
    (heq : (c : ℤ) % 2 ^ bits = (c' + sum) % 2 ^ bits) :
    (updates rels c : ℤ) % 2 ^ bits =
      ((updatesAlloc rels c' : ℕ) + rels.foldl netStep sum) % 2 ^ bits := by
  induction rels generalizing c c' sum with
  | nil => exact heq
  | cons rel rels ih =>
    obtain ⟨rfl, hrels⟩ := List.forall_mem_cons.mp h
    exact ih hrels (emod_step rel heq)

theorem updates_lt (h : ∀ rel ∈ rels, rel.type.bits = bits) {c : ℕ} (hc : c < 2 ^ bits) :
    updates rels c < 2 ^ bits := by
  induction rels generalizing c with
  | nil => exact hc
  | cons rel rels ih =>
    obtain ⟨rfl, hrels⟩ := List.forall_mem_cons.mp h
    exact ih hrels (update_lt rel.type c rel.val)

theorem updatesAlloc_lt (h : ∀ rel ∈ rels, rel.type.bits = bits) {c : ℕ} (hc : c < 2 ^ bits) :
    updatesAlloc rels c < 2 ^ bits := by
  induction rels generalizing c with
  | nil => exact hc
  | cons rel rels ih =>
    obtain ⟨rfl, hrels⟩ := List.forall_mem_cons.mp h
    apply ih hrels
    change (if skips rel.type then c else rel.type.update c rel.val) < _
    split
    · exact hc
    · exact update_lt rel.type c rel.val

theorem net_eq_zero (h : ∀ rel ∈ rels, rel.type.bits = bits) (hbits : bits ≠ 8) :
    net rels = 0 := by
  rw [net]
  induction rels with
  | nil => rfl
  | cons rel rels ih =>
    obtain ⟨hrel, hrels⟩ := List.forall_mem_cons.mp h
    have hstep : netStep 0 rel = 0 := by
      obtain ⟨type, loc, val⟩ := rel
      cases type <;> first | rfl | exact absurd hrel.symm hbits
    rw [List.foldl_cons, hstep]
    exact ih hrels

theorem updatesAlloc_eq_iff (h : ∀ rel ∈ rels, rel.type.bits = bits) {c : ℕ}
    (hc : c < 2 ^ bits) : updatesAlloc rels c = updates rels c ↔ (256 : ℤ) ∣ net rels := by
  have hmod := @emod_updates _ _ h c c 0 (show (c : ℤ) % 2 ^ bits = (c + 0) % 2 ^ bits by
    rw [add_zero])
  have hlt := updates_lt h hc
  have hlt' := updatesAlloc_lt h hc
  by_cases hbits : bits = 8
  · subst hbits
    rw [← net] at hmod
    omega
  · have hzero := net_eq_zero h hbits
    rw [← net, hzero, add_zero] at hmod
    have hcast : (2 : ℤ) ^ bits = ((2 ^ bits : ℕ) : ℤ) := by push_cast; rfl
    rw [hcast, ← Int.natCast_emod, ← Int.natCast_emod, Nat.mod_eq_of_lt hlt,
      Nat.mod_eq_of_lt hlt'] at hmod
    rw [hzero]
    exact iff_of_true (Int.natCast_inj.mp hmod).symm (dvd_zero 256)

end Net

/-- For every field, every content and every sequence of relocations: the three copies agree
exactly if what the two missing types add is a multiple of 256. -/
theorem copiesAgree_iff (e : Endian) (mem : Memory) (field : Field) :
    Agree e mem field ↔ (256 : ℤ) ∣ net field.rels := by
  have hbits : ∀ rel ∈ field.rels, rel.type.bits = field.bits :=
    fun rel hrel => (field.rels_mem rel hrel).2
  have hlt : content e field.bits mem field.loc < 2 ^ field.bits :=
    Nat.mod_lt _ (Nat.two_pow_pos _)
  have halloc := @holds_runAlloc e _ _ mem _ field.rels_mem
  have hnonalloc := @holds_runNonalloc e _ _ mem _ field.rels_mem
  rw [← updatesAlloc_eq_iff hbits hlt]
  constructor
  · intro h
    exact halloc.content_eq.symm.trans h.alloc.content_eq
  · intro heq
    rw [heq] at halloc
    refine ⟨halloc, hnonalloc, fun mem' hrun => ?_⟩
    rw [runEhFrame_eq hrun]
    exact hnonalloc

/-- `R_RISCV_ADD8` with `S + A = 1` leaves a byte of a loaded section as it is. -/
theorem not_agree :
    ¬Agree .little (fun _ => 0)
      ⟨0, 8, [⟨.add8, 0, 1⟩], List.forall_mem_singleton.mpr ⟨rfl, rfl⟩⟩ :=
  fun h => absurd h.alloc.content_eq (by decide)

end Mold.Elf.RiscvArithmetic
