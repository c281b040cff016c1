import Mathlib.Data.List.Nodup

/-!
# GOT, stub and thread-pointer slots

`scan_relocations` gives the symbols their slots.  The symbols are visited in
the order of their owners, and the flags of a symbol say which slots it needs.
A table lists the symbols in the order of their slots; `got_idx`, `stub_idx`
and `tlv_idx` are positions in the tables.
-/

namespace Mold.MachO

/-- The flags `NEEDS_GOT`, `NEEDS_STUB` and `NEEDS_THREAD_PTR` of a symbol. -/
structure SymbolFlags where
  needsGot : Bool := false
  needsStub : Bool := false
  needsThreadPtr : Bool := false

structure SlotTable (τ : Type*) where
  syms : List τ
  nodup : syms.Nodup

namespace SlotTable

variable {τ : Type*} [DecidableEq τ]

def empty : SlotTable τ := ⟨[], List.nodup_nil⟩

/-- `GotSection::add`, `StubsSection::add` and `ThreadPtrsSection::add`.  Only
the first one can meet a symbol that has a slot already. -/
def add (table : SlotTable τ) (sym : τ) : SlotTable τ :=
  if h : sym ∈ table.syms then table
  else ⟨table.syms ++ [sym], by
    rw [List.nodup_append_comm, List.singleton_append, List.nodup_cons]
    exact ⟨h, table.nodup⟩⟩

/-- `has_got`, `has_stub` and `has_tlv`. -/
def has (table : SlotTable τ) (sym : τ) : Bool := decide (sym ∈ table.syms)

/-- `got_idx`, `stub_idx` and `tlv_idx` of a symbol that has a slot. -/
def idx (table : SlotTable τ) (sym : τ) : ℕ := table.syms.idxOf sym

variable {table : SlotTable τ}

@[simp] theorem mem_add {sym s : τ} : s ∈ (table.add sym).syms ↔ s ∈ table.syms ∨ s = sym := by
  rw [add]
  split
  case isTrue h =>
    constructor
    · exact Or.inl
    · rintro (hs | rfl)
      · exact hs
      · exact h
  case isFalse h => simp

theorem idx_lt {sym : τ} (h : sym ∈ table.syms) : table.idx sym < table.syms.length :=
  List.idxOf_lt_length_of_mem h

theorem idx_eq {sym : τ} {i : ℕ} (h : table.syms[i]? = some sym) : table.idx sym = i := by
  obtain ⟨hlt, hget⟩ := List.getElem?_eq_some_iff.mp h
  rw [idx, ← hget]
  exact table.nodup.idxOf_getElem i hlt

end SlotTable

structure SlotTables (τ : Type*) where
  got : SlotTable τ
  stubs : SlotTable τ
  threadPtrs : SlotTable τ

namespace SlotTables

variable {τ : Type*} [DecidableEq τ]

/-- The slots of one symbol.  `stubsUseGot` is
`ctx.arg.bind_at_load || ctx.arg.fixup_chains`.  The source clears the flags
behind a symbol; visiting it again would not change the tables. -/
def addSymbol (stubsUseGot : Bool) (flags : τ → SymbolFlags)
    (tables : SlotTables τ) (sym : τ) : SlotTables τ :=
  let got := if (flags sym).needsGot then tables.got.add sym else tables.got
  { got := if (flags sym).needsStub && stubsUseGot then got.add sym else got
    stubs :=
      if (flags sym).needsStub then tables.stubs.add sym else tables.stubs
    threadPtrs :=
      if (flags sym).needsThreadPtr then tables.threadPtrs.add sym
      else tables.threadPtrs }

/-- The second half of `scan_relocations`. -/
def scan (stubsUseGot : Bool) (flags : τ → SymbolFlags) (syms : List τ) : SlotTables τ :=
  syms.foldl (addSymbol stubsUseGot flags) ⟨.empty, .empty, .empty⟩

section Members

variable {stubsUseGot : Bool} {flags : τ → SymbolFlags} {syms : List τ} {s : τ}

theorem foldl_iff {S α : Type*} {f : S → α → S} {P : S → Prop} {Q : α → Prop}
    (hstep : ∀ t x, P (f t x) ↔ P t ∨ Q x) (l : List α) (t : S) :
    P (l.foldl f t) ↔ P t ∨ ∃ x ∈ l, Q x := by
  induction l generalizing t with
  | nil => simp
  | cons x l ih =>
    rw [List.foldl_cons, ih, hstep, List.exists_mem_cons_iff, or_assoc]

theorem mem_got_scan :
    s ∈ (scan stubsUseGot flags syms).got.syms ↔ s ∈ syms ∧
      ((flags s).needsGot ∨ (flags s).needsStub ∧ stubsUseGot) := by
  have hstep (t : SlotTables τ) (x : τ) :
      s ∈ (addSymbol stubsUseGot flags t x).got.syms ↔ s ∈ t.got.syms ∨
        s = x ∧ ((flags x).needsGot ∨ (flags x).needsStub ∧ stubsUseGot) := by
    rw [addSymbol]
    cases (flags x).needsGot <;> cases (flags x).needsStub <;> cases stubsUseGot <;>
      simp
  have h := foldl_iff (P := fun t : SlotTables τ => s ∈ t.got.syms) hstep syms
    ⟨.empty, .empty, .empty⟩
  exact h.trans (by simp [SlotTable.empty])

theorem mem_stubs_scan :
    s ∈ (scan stubsUseGot flags syms).stubs.syms ↔ s ∈ syms ∧ (flags s).needsStub := by
  have hstep (t : SlotTables τ) (x : τ) :
      s ∈ (addSymbol stubsUseGot flags t x).stubs.syms ↔
        s ∈ t.stubs.syms ∨ s = x ∧ (flags x).needsStub := by
    rw [addSymbol]
    cases (flags x).needsStub <;> simp
  have h := foldl_iff (P := fun t : SlotTables τ => s ∈ t.stubs.syms) hstep syms
    ⟨.empty, .empty, .empty⟩
  exact h.trans (by simp [SlotTable.empty])

theorem mem_threadPtrs_scan :
    s ∈ (scan stubsUseGot flags syms).threadPtrs.syms ↔ s ∈ syms ∧ (flags s).needsThreadPtr := by
  have hstep (t : SlotTables τ) (x : τ) :
      s ∈ (addSymbol stubsUseGot flags t x).threadPtrs.syms ↔
        s ∈ t.threadPtrs.syms ∨ s = x ∧ (flags x).needsThreadPtr := by
    rw [addSymbol]
    cases (flags x).needsThreadPtr <;> simp
  have h := foldl_iff (P := fun t : SlotTables τ => s ∈ t.threadPtrs.syms) hstep syms
    ⟨.empty, .empty, .empty⟩
  exact h.trans (by simp [SlotTable.empty])

end Members

end SlotTables

end Mold.MachO
