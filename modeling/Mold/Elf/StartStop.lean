import Mold.Elf.GcSections
import Mold.Elf.RelocatableSections
import Mold.Lib.KeyedList

/-!
# `__start_` and `__stop_` symbols

`create_output_sections` puts input sections with the same output name, type and flags into
one output section, so a name may have several.  `fix_synthetic_symbols` goes over the chunks
and gives the two symbols of a name the ends of each chunk in turn: the last one stays.
-/

namespace Mold.Elf.StartStop

open Relocatable (OutputSectionKey)

/-! ## Output sections -/

def shfGroup : BitVec 64 := 0x200
def shfGnuRetain : BitVec 64 := 0x200000

structure InputSection where
  shdr : Relocatable.ElfShdr
  isAlive : Bool
  size : ℕ
  offset : ℕ

/-- `get_output_name` without `--relocatable` -/
def getOutputName (t : Relocatable.Target) (args : Relocatable.Args)
    (shdr : Relocatable.ElfShdr) : String :=
  Relocatable.getOutputName t { args with relocatableMergeSections := true } shdr

/-- `get_output_section_key` without `--relocatable` -/
def getOutputSectionKey (t : Relocatable.Target) (args : Relocatable.Args)
    (isec : InputSection) : OutputSectionKey :=
  let name := getOutputName t args isec.shdr
  let type := Relocatable.canonicalizeType t name isec.shdr.type
  let flags := isec.shdr.flags &&& ~~~Relocatable.shfCompressed &&&
    (~~~shfGroup &&& ~~~shfGnuRetain)
  { name := name
    type := type
    flags := if type = Relocatable.shtInitArray ∨ type = Relocatable.shtFiniArray then
        flags ||| Relocatable.shfWrite
      else flags }

/-- The output sections that `create_output_sections` makes. -/
def createOutputSections (t : Relocatable.Target) (args : Relocatable.Args)
    (sections : List InputSection) : List OutputSectionKey :=
  ((sections.filter InputSection.isAlive).map (getOutputSectionKey t args)).dedup

structure Chunk where
  key : Option OutputSectionKey := none
  name : String
  isHeader : Bool := false
  isAlloc : Bool := true
  addr : ℕ
  size : ℕ
deriving DecidableEq

/-- The value that `--defsym` gives to a symbol. -/
inductive DefsymValue where
  | number (value : ℕ)
  | symbol (name : String)

structure Link where
  target : Relocatable.Target
  args : Relocatable.Args
  /-- `--start-stop` -/
  startStop : Bool := false
  /-- `to_paddr` with `--physical-image-base` -/
  toPaddr : Option (ℕ → ℕ) := none
  defsyms : List (String × DefsymValue) := []
  /-- The values of the symbols before. -/
  before : String → ℕ := fun _ => 0xdeadbeef
  sections : List InputSection
  chunks : List Chunk
  created : (chunks.filterMap Chunk.key).Perm (createOutputSections target args sections)
  named : ∀ c ∈ chunks, ∀ key ∈ c.key, c.name = key.name ∧ c.isHeader = false ∧
    c.isAlloc = decide (key.flags &&& Relocatable.shfAlloc ≠ 0)
  inside : ∀ isec ∈ sections, isec.isAlive = true → ∀ c ∈ chunks,
    c.key = some (getOutputSectionKey target args isec) → isec.offset + isec.size ≤ c.size

/-! ## The symbols -/

/-- The local function `isalnum` of `get_start_stop_name`. -/
def isalnum (c : Char) : Bool :=
  ('a' ≤ c && c ≤ 'z') || ('A' ≤ c && c ≤ 'Z') || ('0' ≤ c && c ≤ '9')

/-- `get_start_stop_name`, which replaces each byte. -/
def getStartStopName (startStop : Bool) (c : Chunk) : Option String :=
  if c.isAlloc && c.name ≠ "" then
    if isCIdentifier c.name then some c.name
    else if startStop then
      let s := if c.name.toList.head? = some '.' then c.name.toList.tail else c.name.toList
      some (String.ofList
        (s.flatMap fun c => if isalnum c then [c] else List.replicate c.utf8Size '_'))
    else none
  else none

def startSym (name : String) : String := "__start_" ++ name
def stopSym (name : String) : String := "__stop_" ++ name
def physStartSym (name : String) : String := "__phys_start_" ++ name
def physStopSym (name : String) : String := "__phys_stop_" ++ name

namespace Link

variable (link : Link)

/-- The local variable `sections` of `fix_synthetic_symbols`. -/
def allocated : List Chunk := link.chunks.filter fun c => !c.isHeader && c.isAlloc

/-- The body of the loop over the sections for `__start_` and `__stop_` symbols. -/
def fixChunk (values : String → ℕ) (c : Chunk) : String → ℕ :=
  match getStartStopName link.startStop c with
  | none => values
  | some name =>
    let values := Function.update values (startSym name) c.addr
    let values := Function.update values (stopSym name) (c.addr + c.size)
    match link.toPaddr with
    | none => values
    | some toPaddr =>
      let values := Function.update values (physStartSym name) (toPaddr c.addr)
      Function.update values (physStopSym name) (toPaddr c.addr + c.size)

/-- The body of the loop over the `--defsym` symbols. -/
def fixDefsym (values : String → ℕ) (d : String × DefsymValue) : String → ℕ :=
  match d.2 with
  | .number value => Function.update values d.1 value
  | .symbol name => Function.update values d.1 (values name)

/-- The values of the symbols after `fix_synthetic_symbols`. -/
def values : String → ℕ :=
  link.defsyms.foldl fixDefsym (link.allocated.foldl link.fixChunk link.before)

/-! ## What the symbols should enclose -/

def PlacedIn (name : String) (isec : InputSection) (c : Chunk) : Prop :=
  isec ∈ link.sections ∧ isec.isAlive = true ∧ c ∈ link.chunks ∧
    c.key = some (getOutputSectionKey link.target link.args isec) ∧ c.name = name ∧
    c.isAlloc = true

def Encloses (name : String) : Prop :=
  ∀ isec c, link.PlacedIn name isec c → ∀ b < isec.size,
    link.values (startSym name) ≤ c.addr + isec.offset + b ∧
      c.addr + isec.offset + b < link.values (stopSym name)

def lastChunk (name : String) : Option Chunk :=
  link.allocated.reverse.find? fun c => getStartStopName link.startStop c = some name

def InLast (name : String) : Prop :=
  ∀ last ∈ link.lastChunk name, ∀ isec c, link.PlacedIn name isec c → isec.size ≠ 0 →
    c ≠ last →
      last.addr ≤ c.addr + isec.offset ∧ c.addr + isec.offset + isec.size ≤ last.addr + last.size

def OneSection (name : String) : Prop :=
  ∀ last ∈ link.lastChunk name, ∀ isec c, link.PlacedIn name isec c → isec.size ≠ 0 →
    last.key = some (getOutputSectionKey link.target link.args isec)

def Apart : Prop :=
  ∀ c ∈ link.allocated, ∀ d ∈ link.allocated, c ≠ d →
    c.addr + c.size ≤ d.addr ∨ d.addr + d.size ≤ c.addr

end Link

theorem startSym_injective {a b : String} (h : startSym a = startSym b) : a = b :=
  (String.append_right_inj _).mp h

theorem stopSym_injective {a b : String} (h : stopSym a = stopSym b) : a = b :=
  (String.append_right_inj _).mp h

theorem sym_ne (a b : String) :
    startSym a ≠ stopSym b ∧ startSym a ≠ physStartSym b ∧ startSym a ≠ physStopSym b ∧
      stopSym a ≠ physStartSym b ∧ stopSym a ≠ physStopSym b := by
  refine ⟨?_, ?_, ?_, ?_, ?_⟩ <;> intro h
  · simpa [startSym, stopSym, String.toList_append] using congrArg String.toList h
  · simpa [startSym, physStartSym, String.toList_append] using congrArg String.toList h
  · simpa [startSym, physStopSym, String.toList_append] using congrArg String.toList h
  · simpa [stopSym, physStartSym, String.toList_append] using congrArg String.toList h
  · simpa [stopSym, physStopSym, String.toList_append] using congrArg String.toList h

theorem getStartStopName_eq {startStop : Bool} {c : Chunk} (halloc : c.isAlloc = true)
    (hident : isCIdentifier c.name = true) : getStartStopName startStop c = some c.name := by
  have hne : c.name ≠ "" := fun h => by
    rw [h] at hident
    cases hident
  rw [getStartStopName, halloc, decide_eq_true hne, Bool.and_self, if_pos rfl, if_pos hident]

namespace Link

variable {link : Link} {name : String}

theorem fixChunk_apply (values : String → ℕ) (c : Chunk) :
    link.fixChunk values c (startSym name) =
        (if getStartStopName link.startStop c = some name then c.addr
          else values (startSym name)) ∧
      link.fixChunk values c (stopSym name) =
        if getStartStopName link.startStop c = some name then c.addr + c.size
          else values (stopSym name) := by
  rw [fixChunk]
  cases getStartStopName link.startStop c with
  | none => exact ⟨rfl, rfl⟩
  | some other =>
    obtain ⟨hstart, hphys, hphys', hphys₂, hphys₂'⟩ := sym_ne name other
    have hstop := (sym_ne other name).1.symm
    by_cases h : other = name
    · subst h
      rw [if_pos rfl, if_pos rfl]
      cases link.toPaddr with
      | none =>
        simp only [Function.update_of_ne hstart, Function.update_self, and_self]
      | some toPaddr =>
        simp only [Function.update_of_ne hphys', Function.update_of_ne hphys,
          Function.update_of_ne hphys₂', Function.update_of_ne hphys₂,
          Function.update_of_ne hstart, Function.update_self, and_self]
    · have hstart' : startSym name ≠ startSym other := fun heq => h (startSym_injective heq).symm
      have hstop' : stopSym name ≠ stopSym other := fun heq => h (stopSym_injective heq).symm
      rw [if_neg fun heq => h (Option.some.inj heq), if_neg fun heq => h (Option.some.inj heq)]
      cases link.toPaddr with
      | none =>
        simp only [Function.update_of_ne hstart, Function.update_of_ne hstart',
          Function.update_of_ne hstop, Function.update_of_ne hstop', and_self]
      | some toPaddr =>
        simp only [Function.update_of_ne hphys', Function.update_of_ne hphys,
          Function.update_of_ne hphys₂', Function.update_of_ne hphys₂,
          Function.update_of_ne hstart, Function.update_of_ne hstart',
          Function.update_of_ne hstop, Function.update_of_ne hstop', and_self]

variable {last : Chunk}

theorem foldl_fixChunk (l : List Chunk) (values : String → ℕ)
    (h : l.reverse.find? (fun c => getStartStopName link.startStop c = some name) = some last) :
    l.foldl link.fixChunk values (startSym name) = last.addr ∧
      l.foldl link.fixChunk values (stopSym name) = last.addr + last.size := by
  induction l using List.reverseRecOn with
  | nil => cases h
  | append_singleton l c ih =>
    obtain ⟨hstart, hstop⟩ :=
      @fixChunk_apply link name (l.foldl link.fixChunk values) c
    rw [List.reverse_append, List.reverse_singleton, List.singleton_append, List.find?_cons] at h
    rw [List.foldl_append, List.foldl_cons, List.foldl_nil, hstart, hstop]
    by_cases hc : getStartStopName link.startStop c = some name
    · rw [decide_eq_true hc] at h
      obtain rfl := Option.some.inj h
      exact ⟨if_pos hc, if_pos hc⟩
    · rw [decide_eq_false hc] at h
      rw [if_neg hc, if_neg hc]
      exact ih h

theorem foldl_fixDefsym (l : List (String × DefsymValue)) (values : String → ℕ) {sym : String}
    (h : ∀ d ∈ l, d.1 ≠ sym) : l.foldl fixDefsym values sym = values sym := by
  induction l generalizing values with
  | nil => rfl
  | cons d l ih =>
    obtain ⟨hd, hl⟩ := List.forall_mem_cons.mp h
    rw [List.foldl_cons, ih _ hl, fixDefsym]
    cases d.2 with
    | number value => exact Function.update_of_ne hd.symm _ _
    | symbol name => exact Function.update_of_ne hd.symm _ _

/-- The symbols of a name are not given by `--defsym`. -/
def NoDefsym (link : Link) (name : String) : Prop :=
  ∀ d ∈ link.defsyms, d.1 ≠ startSym name ∧ d.1 ≠ stopSym name

theorem values_eq (hdefsym : link.NoDefsym name) (hlast : link.lastChunk name = some last) :
    link.values (startSym name) = last.addr ∧
      link.values (stopSym name) = last.addr + last.size := by
  obtain ⟨hstart, hstop⟩ := foldl_fixChunk link.allocated link.before hlast
  constructor
  · rw [Link.values, foldl_fixDefsym _ _ fun d hd => (hdefsym d hd).1, hstart]
  · rw [Link.values, foldl_fixDefsym _ _ fun d hd => (hdefsym d hd).2, hstop]

/-! ## The sections of a name -/

variable {isec : InputSection}

theorem PlacedIn.mem_allocated {c : Chunk}
    (h : link.PlacedIn name isec c) : c ∈ link.allocated := by
  obtain ⟨-, -, hc, hkey, -, halloc⟩ := h
  obtain ⟨-, hheader, -⟩ := link.named c hc _ (by rw [hkey]; exact Option.mem_some_self _)
  exact List.mem_filter.mpr ⟨hc, by rw [hheader, halloc]; rfl⟩

theorem PlacedIn.exists_lastChunk {c : Chunk}
    (h : link.PlacedIn name isec c) (hident : isCIdentifier name = true) :
    ∃ last, link.lastChunk name = some last := by
  have hmem := h.mem_allocated
  obtain ⟨-, -, -, -, rfl, halloc⟩ := h
  have hname := @getStartStopName_eq link.startStop c halloc hident
  rw [← Option.isSome_iff_exists, lastChunk, List.find?_isSome]
  exact ⟨c, List.mem_reverse.mpr hmem, decide_eq_true hname⟩

theorem PlacedIn.inside {c : Chunk} (h : link.PlacedIn name isec c) :
    isec.offset + isec.size ≤ c.size :=
  link.inside isec h.1 h.2.1 c h.2.2.1 h.2.2.2.1

theorem mem_allocated_of_lastChunk (h : link.lastChunk name = some last) : last ∈ link.allocated :=
  List.mem_reverse.mp (List.mem_of_find?_eq_some h)

theorem eq_of_key_eq {c d : Chunk} {key : OutputSectionKey} (hc : c ∈ link.chunks)
    (hd : d ∈ link.chunks) (hckey : c.key = some key) (hdkey : d.key = some key) : c = d := by
  have hnodup : (link.chunks.filterMap Chunk.key).Nodup :=
    link.created.nodup_iff.mpr (List.nodup_dedup _)
  have hpair := List.pairwise_filterMap.mp hnodup
  by_contra hne
  rcases Lib.rel_or_rel_of_mem hpair hc hd hne with h | h
  · exact h key hckey key hdkey rfl
  · exact h key hdkey key hckey rfl

theorem encloses_iff_inLast (hident : isCIdentifier name = true)
    (hdefsym : link.NoDefsym name) : link.Encloses name ↔ link.InLast name := by
  constructor
  · intro h last hlast isec c hplaced hsize _
    obtain ⟨hstart, hstop⟩ := values_eq hdefsym (Option.mem_def.mp hlast)
    have hfirst := h isec c hplaced 0 (Nat.pos_of_ne_zero hsize)
    have hend := h isec c hplaced (isec.size - 1) (Nat.sub_one_lt hsize)
    rw [hstart, hstop] at hfirst hend
    omega
  · intro h isec c hplaced b hb
    obtain ⟨last, hlast⟩ := hplaced.exists_lastChunk hident
    obtain ⟨hstart, hstop⟩ := values_eq hdefsym hlast
    rw [hstart, hstop]
    by_cases hc : c = last
    · have hinside := hplaced.inside
      rw [hc] at hinside ⊢
      omega
    · have hrange := h last (Option.mem_def.mpr hlast) isec c hplaced (Nat.ne_zero_of_lt hb) hc
      omega

theorem inLast_iff_oneSection (hapart : link.Apart) : link.InLast name ↔ link.OneSection name := by
  constructor
  · intro h last hlast isec c hplaced hsize
    by_cases hc : c = last
    · exact hc ▸ hplaced.2.2.2.1
    · -- A section with bytes would be in both chunks.
      have hrange := h last hlast isec c hplaced hsize hc
      have hinside := hplaced.inside
      have hdisjoint := hapart c hplaced.mem_allocated last
        (mem_allocated_of_lastChunk (Option.mem_def.mp hlast)) hc
      omega
  · intro h last hlast isec c hplaced hsize hc
    have hmem := (List.mem_filter.mp (mem_allocated_of_lastChunk (Option.mem_def.mp hlast))).1
    exact absurd (eq_of_key_eq hplaced.2.2.1 hmem hplaced.2.2.2.1
      (h last hlast isec c hplaced hsize)) hc

/-- The symbols of a name enclose its sections exactly if those that are not in the last chunk
of the name are at places of this chunk.  If chunks do not overlap, this is to say that all
sections of the name with bytes are in the last chunk. -/
theorem encloses_iff (hident : isCIdentifier name = true) (hdefsym : link.NoDefsym name) :
    (link.Encloses name ↔ link.InLast name) ∧
      (link.Apart → (link.Encloses name ↔ link.OneSection name)) :=
  ⟨encloses_iff_inLast hident hdefsym, fun hapart =>
    (encloses_iff_inLast hident hdefsym).trans (inLast_iff_oneSection hapart)⟩

end Link

/-! ## A name with two output sections -/

def x86 : Relocatable.Target where
  isRela := true
  relSize := 24
  isArm32 := false
  isAlpha := false
  isX8664 := true

def noArgs : Relocatable.Args where
  relocatableMergeSections := false
  unique := fun _ => false
  zKeepTextSectionPrefix := false
  stripAll := false
  stripDebug := false
  oformatBinary := false
  gdbIndex := false

/-- A section `foo` of 8 bytes with some flags. -/
def fooSection (flags : BitVec 64) : InputSection where
  shdr := ⟨"foo", Relocatable.shtProgbits, flags, 0, 8, 0, "", []⟩
  isAlive := true
  size := 8
  offset := 0

def fooChunk (flags : BitVec 64) (addr : ℕ) : Chunk where
  key := some ⟨"foo", Relocatable.shtProgbits, flags⟩
  name := "foo"
  addr := addr
  size := 8

/-- Data of one kind in `foo`. -/
def writableFoo : Link where
  target := x86
  args := noArgs
  sections := [fooSection 3]
  chunks := [{ name := "EHDR", isHeader := true, addr := 0x1000, size := 64 }, fooChunk 3 0x3000]
  created := by decide
  named := by decide
  inside := by decide

theorem encloses_writableFoo : writableFoo.Encloses "foo" := by
  have hdefsym : writableFoo.NoDefsym "foo" := fun d hd => absurd hd List.not_mem_nil
  have hapart : writableFoo.Apart := by
    unfold Link.Apart
    decide
  refine ((Link.encloses_iff (by decide) hdefsym).2 hapart).mpr ?_
  rintro last hlast isec c ⟨hmem, -, -, -, -, -⟩ -
  obtain rfl := List.mem_singleton.mp hmem
  obtain rfl : fooChunk 3 0x3000 = last := Option.some.inj hlast
  decide

/-- A constant and a variable in `foo`: the constant is in another output section, and it is in
front of the symbols. -/
def mixedFoo : Link where
  target := x86
  args := noArgs
  sections := [fooSection 2, fooSection 3]
  chunks := [fooChunk 2 0x1000, fooChunk 3 0x3000]
  created := by decide
  named := by decide
  inside := by decide

theorem not_encloses_mixedFoo : ¬ mixedFoo.Encloses "foo" := by
  intro h
  have hplaced : mixedFoo.PlacedIn "foo" (fooSection 2) (fooChunk 2 0x1000) :=
    ⟨List.mem_cons_self, rfl, List.mem_cons_self, by decide, rfl, rfl⟩
  have hfirst := (h _ _ hplaced 0 (by decide)).1
  exact absurd hfirst (by decide)

end Mold.Elf.StartStop
