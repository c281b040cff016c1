import Mold.Elf.SectionPieces

/-!
# Locations of symbols

After the symbols have been resolved, `resolve_section_pieces` moves the
symbols that are defined in mergeable sections to their fragments.  All files
write at the same time, and every file writes to all symbols that it defines,
its own or not.
-/

namespace Mold.Elf

open Lib

variable {ν : Type*}

/-! ## Attachments -/

namespace MergeableSection

variable {m : MergeableSection} {v : UInt64} {origin : Origin} {value : UInt64}

def attach (m : MergeableSection) (v : UInt64) : Origin × UInt64 :=
  match m.getFragment (toI64 v) with
  | none => (.stray, 0)
  | some (frag, fragOffset) => (.frag frag, UInt64.ofInt fragOffset)

theorem attach_ne_isec (m : MergeableSection) (v : UInt64) (place : Option (ℕ × ℕ)) :
    (m.attach v).1 ≠ .isec place ∧ (m.attach v).1 ≠ .none := by
  rw [attach]
  split <;> exact ⟨nofun, nofun⟩

/-- The piece that an offset is in.  In a section of 4 GiB or more the offsets of pieces are
truncated, and it is the piece that the search among them ends at. -/
def IsFound (m : MergeableSection) (v : UInt64) (origin : Origin) (value : UInt64) : Prop :=
  v.toNat < 2 ^ 63 ∧
    if m.strings.flatten.length < 2 ^ 32 then m.IsPlace v.toNat origin value.toNat
    else ∃ frag fragOffset, m.getFragment v.toNat = some (frag, fragOffset) ∧
      origin = .frag frag ∧ value = UInt64.ofInt fragOffset

theorem toI64_of_lt (h : v.toNat < 2 ^ 63) : toI64 v = v.toNat := by
  rw [toI64, BitVec.toInt_eq_toNat_of_lt (by rw [UInt64.toNat_toBitVec]; omega),
    UInt64.toNat_toBitVec]

theorem attach_of_le (h : 2 ^ 63 ≤ v.toNat) : m.attach v = (.stray, 0) := by
  have hneg : toI64 v < 0 := by
    rw [toI64, BitVec.toInt_neg_iff, UInt64.toNat_toBitVec]
    omega
  rw [attach, getFragment, if_pos hneg]

theorem IsPlace.origin_eq {offset off : ℕ} (h : m.IsPlace offset origin off) :
    ∃ frag, origin = .frag frag := by
  obtain ⟨_, data, _, -, horigin, -⟩ := h
  exact ⟨_, horigin⟩

theorem isFound_iff (hne : m.strings ≠ []) :
    m.IsFound v origin value ↔ m.attach v = (origin, value) ∧ origin ≠ .stray := by
  rw [IsFound]
  by_cases hv : v.toNat < 2 ^ 63
  · rw [and_iff_right hv, attach, toI64_of_lt hv]
    split
    case isTrue hlength =>
      obtain ⟨frag, off, hget, hle, hplace⟩ := getFragment_eq_some hne hlength v.toNat
      have hoff : (UInt64.ofInt off).toNat = off := by
        have hlt := Nat.lt_of_le_of_lt hle v.toNat_lt
        have hmod : ((off : ℤ) % 2 ^ 64).toNat = off := by omega
        rw [UInt64.ofInt, hmod, UInt64.toNat_ofNat_of_lt' hlt]
      rw [hget]
      constructor
      · intro h
        obtain ⟨rfl, hvalue⟩ := hplace.unique h
        exact ⟨Prod.ext rfl (UInt64.toNat_inj.mp (hoff.trans hvalue)), nofun⟩
      · rintro ⟨h, -⟩
        obtain ⟨rfl, rfl⟩ := Prod.mk.inj h
        rwa [hoff]
    case isFalse =>
      cases hget : m.getFragment v.toNat with
      | none => simp +contextual [eq_comm]
      | some found =>
        constructor
        · rintro ⟨frag, off, h, rfl, rfl⟩
          obtain rfl := Option.some.inj h
          exact ⟨rfl, nofun⟩
        · rintro ⟨h, -⟩
          obtain ⟨rfl, rfl⟩ := Prod.mk.inj h
          exact ⟨found.1, found.2, rfl, rfl, rfl⟩
  · rw [attach_of_le (Nat.not_lt.mp hv)]
    refine iff_of_false (fun h => hv h.1) fun ⟨h, hne⟩ => hne (Prod.mk.inj h).1.symm

end MergeableSection

namespace SplitFile

variable (split : SplitFile ν)

def pieces (esym : ElfSym ν) : Option MergeableSection :=
  (split.mergeableSection esym).filter fun m => m.strings ≠ []

theorem attachment_eq (esym : ElfSym ν) :
    split.attachment esym = (split.pieces esym).map fun m => m.attach esym.stValue := by
  rw [attachment, pieces]
  cases split.mergeableSection esym with
  | none => rfl
  | some m =>
    by_cases hnil : m.strings = []
    · simp [MergeableSection.fragments, hnil]
    · simp only [MergeableSection.fragments, List.isEmpty_map, List.isEmpty_iff, hnil, if_false,
        Option.filter_some, ne_eq, not_false_eq_true, decide_true, if_true, Option.map_some,
        MergeableSection.attach]
      cases m.getFragment (toI64 esym.stValue) <;> rfl

theorem pieces_eq_some {esym : ElfSym ν} {m : MergeableSection} :
    split.pieces esym = some m ↔ split.mergeableSection esym = some m ∧ m.strings ≠ [] := by
  simp [pieces, Option.filter_eq_some_iff]

end SplitFile

namespace Context

variable {splits : List (ℕ × SplitFile ν)}

/-- The location of the definition that an entry of a file makes: the fragment of the
mergeable section of the file with the offset in it, or the input section with the
value of the entry. -/
def IsLocation (splits : List (ℕ × SplitFile ν)) (file : FileRef) (esym : ElfSym ν)
    (origin : Origin) (value : UInt64) : Prop :=
  match file with
  | .dso _ => origin = .none ∧ value = esym.stValue
  | .obj i => ∀ split, (i, split) ∈ splits →
      match split.mergeableSection esym with
      | none => origin = .isec (esym.place i) ∧ value = esym.stValue
      | some m =>
        if m.strings = [] then origin = .isec (esym.place i) ∧ value = esym.stValue
        else m.IsPlace esym.stValue.toNat origin value.toNat

variable {esym : ElfSym ν} {file : FileRef}

theorem IsLocation.mix {p p' : Origin × UInt64}
    (h : IsLocation splits file esym p.1 p.2) (h' : IsLocation splits file esym p'.1 p'.2) :
    IsLocation splits file esym p.1 p'.2 := by
  cases file with
  | dso i => exact ⟨h.1, h'.2⟩
  | obj i =>
    intro split hsplit
    have h := h split hsplit
    have h' := h' split hsplit
    cases hm : split.mergeableSection esym with
    | none =>
      rw [hm] at h h'
      exact ⟨h.1, h'.2⟩
    | some m =>
      simp only [hm] at h h' ⊢
      split
      case isTrue hnil =>
        rw [if_pos hnil] at h h'
        exact ⟨h.1, h'.2⟩
      case isFalse hne =>
        rw [if_neg hne] at h h'
        rw [(h.unique h').2] at h
        exact h

theorem isLocation_origin
    (h : ∀ i split, file = .obj i → (i, split) ∈ splits → split.pieces esym = none) :
    IsLocation splits file esym (file.origin esym) esym.stValue := by
  cases file with
  | dso i => exact ⟨rfl, rfl⟩
  | obj i =>
    intro split hsplit
    cases hm : split.mergeableSection esym with
    | none => exact ⟨rfl, rfl⟩
    | some m =>
      change if m.strings = [] then _ else _
      split
      case isTrue => exact ⟨rfl, rfl⟩
      case isFalse hne =>
        have hsome := split.pieces_eq_some.mpr ⟨hm, hne⟩
        rw [h i split rfl hsplit] at hsome
        cases hsome

theorem not_isLocation_origin {i : ℕ} {split : SplitFile ν}
    {value : UInt64} (hsplit : (i, split) ∈ splits) (h : (split.pieces esym).isSome) :
    ¬ IsLocation splits (.obj i) esym (FileRef.origin esym (.obj i)) value := by
  intro hlocation
  obtain ⟨m, hm⟩ := Option.isSome_iff_exists.mp h
  obtain ⟨hm, hne⟩ := split.pieces_eq_some.mp hm
  have hlocation := hlocation split hsplit
  simp only [hm, if_neg hne] at hlocation
  obtain ⟨_, horigin⟩ := hlocation.origin_eq
  cases horigin

/-- The definition of the owner is in a piece, and the value `v` of an entry in the section `m`
is in an equal piece of the same merged section, at the same offset. -/
def InSamePiece (splits : List (ℕ × SplitFile ν)) (file : FileRef) (esym : ElfSym ν)
    (m : MergeableSection) (v : UInt64) : Prop :=
  match file with
  | .dso _ => False
  | .obj i => ∀ split, (i, split) ∈ splits → ∃ m', split.mergeableSection esym = some m' ∧
      ∃ origin value, m'.IsPlace esym.stValue.toNat origin value.toNat ∧ m.IsFound v origin value

theorem isLocation_attach_iff {m : MergeableSection} (hne : m.strings ≠ []) (v : UInt64) :
    IsLocation splits file esym (m.attach v).1 (m.attach v).2 ↔
      InSamePiece splits file esym m v := by
  cases file with
  | dso i => exact iff_of_false (fun h => (m.attach_ne_isec v none).2 h.1) id
  | obj i =>
    refine forall_congr' fun split => imp_congr_right fun _ => ?_
    cases hm : split.mergeableSection esym with
    | none => exact iff_of_false (fun h => (m.attach_ne_isec v _).1 h.1) nofun
    | some m' =>
      simp only [Option.some.injEq, exists_eq_left']
      split
      case isTrue hnil =>
        refine iff_of_false (fun h => (m.attach_ne_isec v _).1 h.1) ?_
        rintro ⟨_, _, ⟨before, data, after, hstrings, -⟩, -⟩
        rw [hnil] at hstrings
        exact List.append_ne_nil_of_right_ne_nil _ (List.cons_ne_nil _ _) hstrings.symm
      case isFalse =>
        constructor
        · intro h
          obtain ⟨frag, hfrag⟩ := h.origin_eq
          refine ⟨_, _, h, (MergeableSection.isFound_iff hne).mpr ⟨rfl, ?_⟩⟩
          rw [hfrag]
          exact nofun
        · rintro ⟨origin, value, hplace, hfound⟩
          rw [((MergeableSection.isFound_iff hne).mp hfound).1]
          exact hplace

end Context

variable [DecidableEq ν]

/-! ## What a schedule of writes leaves -/

/-- The origin that is written to `x`. -/
def SymbolWrite.originOf (x : ν) : SymbolWrite ν → Option Origin
  | .origin y o => if y = x then some o else none
  | .value _ _ => none

/-- The value that is written to `x`. -/
def SymbolWrite.valueOf (x : ν) : SymbolWrite ν → Option UInt64
  | .origin _ _ => none
  | .value y v => if y = x then some v else none

theorem resolveSectionPieces_apply (ws : List (SymbolWrite ν))
    (syms : ν → ResolvedSymbol) (x : ν) :
    resolveSectionPieces ws syms x =
      { syms x with
        origin := (ws.filterMap (SymbolWrite.originOf x)).getLast?.getD (syms x).origin
        value := (ws.filterMap (SymbolWrite.valueOf x)).getLast?.getD (syms x).value } := by
  induction ws generalizing syms with
  | nil => rfl
  | cons w ws ih =>
    change resolveSectionPieces ws (applyWrite syms w) x = _
    rw [ih]
    cases w with
    | origin y origin =>
      by_cases hy : y = x
      · subst hy
        simp [applyWrite, SymbolWrite.originOf, SymbolWrite.valueOf, List.getLast?_cons]
      · simp [applyWrite, SymbolWrite.originOf, SymbolWrite.valueOf, hy,
          Function.update_of_ne (Ne.symm hy)]
    | value y value =>
      by_cases hy : y = x
      · subst hy
        simp [applyWrite, SymbolWrite.originOf, SymbolWrite.valueOf, List.getLast?_cons]
      · simp [applyWrite, SymbolWrite.originOf, SymbolWrite.valueOf, hy,
          Function.update_of_ne (Ne.symm hy)]

namespace SplitFile

variable (split : SplitFile ν)

/-- What the entries of a file attach `x` to. -/
def attachments (x : ν) : List (Origin × UInt64) :=
  ((split.file.elfSyms.drop 1).filter fun esym => esym.sym = x).filterMap split.attachment

/-- What the file leaves to `x`. -/
def lastAttachment (x : ν) : Option (Origin × UInt64) :=
  (split.attachments x).getLast?

theorem filterMap_writes {β : Type*} {f : SymbolWrite ν → Option β}
    {g : Origin × UInt64 → β} {x : ν}
    (h : ∀ y p, [.origin y p.1, .value y p.2].filterMap f = if y = x then [g p] else []) :
    split.writes.filterMap f = (split.attachments x).map g := by
  rw [writes, attachments]
  induction split.file.elfSyms.drop 1 with
  | nil => rfl
  | cons esym esyms ih =>
    rw [List.flatMap_cons, List.filterMap_append, ih]
    cases hattach : split.attachment esym with
    | none =>
      by_cases hx : esym.sym = x
      · rw [List.filter_cons_of_pos (by simpa using hx), List.filterMap_cons_none hattach]
        rfl
      · rw [List.filter_cons_of_neg (by simpa using hx)]
        rfl
    | some p =>
      change [SymbolWrite.origin esym.sym p.1, .value esym.sym p.2].filterMap f ++ _ = _
      rw [h]
      by_cases hx : esym.sym = x
      · rw [List.filter_cons_of_pos (by simpa using hx),
          List.filterMap_cons_some hattach, if_pos hx]
        rfl
      · rw [List.filter_cons_of_neg (by simpa using hx), if_neg hx]
        rfl

theorem filterMap_originOf_writes (x : ν) :
    split.writes.filterMap (SymbolWrite.originOf x) = (split.attachments x).map Prod.fst := by
  apply split.filterMap_writes
  intro y p
  by_cases hy : y = x <;> simp [SymbolWrite.originOf, hy]

theorem filterMap_valueOf_writes (x : ν) :
    split.writes.filterMap (SymbolWrite.valueOf x) = (split.attachments x).map Prod.snd := by
  apply split.filterMap_writes
  intro y p
  by_cases hy : y = x <;> simp [List.filterMap_cons, SymbolWrite.valueOf, hy]

/-- The definitions of `x` in pieces that a file makes. -/
def definitions (x : ν) : List (MergeableSection × UInt64) :=
  ((split.file.elfSyms.drop 1).filter fun esym => esym.sym = x).filterMap fun esym =>
    (split.pieces esym).map (·, esym.stValue)

theorem attachments_eq (x : ν) :
    split.attachments x = (split.definitions x).map fun d => d.1.attach d.2 := by
  rw [attachments, definitions, List.map_filterMap]
  refine List.filterMap_congr fun esym _ => ?_
  rw [attachment_eq, Option.map_map]
  rfl

theorem lastAttachment_eq (x : ν) :
    split.lastAttachment x = (split.definitions x).getLast?.map fun d => d.1.attach d.2 := by
  rw [lastAttachment, attachments_eq, List.getLast?_map]

variable {split} {x : ν}

theorem strings_ne_nil {d : MergeableSection × UInt64} (h : d ∈ split.definitions x) :
    d.1.strings ≠ [] := by
  obtain ⟨esym, -, hd⟩ := List.mem_filterMap.mp h
  obtain ⟨m, hm, rfl⟩ := Option.map_eq_some_iff.mp hd
  exact (split.pieces_eq_some.mp hm).2

end SplitFile

/-! ## The files of a link -/

namespace Context

variable (ctx : Context ν) (isAlive : FileRef → Bool) (args : MergeArgs)

/-- The object files after `kill_eh_frame_sections` and
`initialize_mergeable_sections`. -/
def splitFiles : Except String (List (ℕ × SplitFile ν)) :=
  ctx.objs.mapM fun i =>
    (initializeMergeableSections args (killEhFrameSections (ctx.obj i))).map (i, ·)

def WriteSchedule (splits : List (ℕ × SplitFile ν)) (ws : List (SymbolWrite ν)) : Prop :=
  Interleaving (splits.map fun s => s.2.writes) ws

/-- The origin and the value of the symbol are the location of the definition in the
file that owns it. -/
def Describes (splits : List (ℕ × SplitFile ν)) (sym : ResolvedSymbol) : Prop :=
  ∀ file esym, sym.file = some file → ctx.esym sym = some esym →
    IsLocation splits file esym sym.origin sym.value

/-- After `resolve_section_pieces` all symbols are at the definitions of their owners,
for all schedules of the claims and of the writes. -/
def LocationsFromOwner : Prop :=
  ∀ (syms : ν → ResolvedSymbol) schedule splits ws, (∀ x, (syms x).file = none) →
    ctx.ClaimSchedule isAlive schedule → ctx.splitFiles args = .ok splits →
    WriteSchedule splits ws → ∀ x,
      ctx.Describes splits (resolveSectionPieces ws (ctx.resolveSymbols isAlive schedule syms) x)

/-- The files that define `x` in a piece have it where the entry of the owner has it. -/
structure AgreesWithOwner (splits : List (ℕ × SplitFile ν)) (x : ν) (file : FileRef)
    (esym : ElfSym ν) : Prop where
  /-- If the entry is in a piece, some definition in a piece is walked over. -/
  defined : ∀ i split, file = .obj i → (i, split) ∈ splits → (split.pieces esym).isSome →
    ∃ s ∈ splits, s.2.definitions x ≠ []
  /-- The last definition of every file is in a piece as that of the owner, at the same offset.
  So there is none if the owner has it outside of pieces. -/
  places : ∀ s ∈ splits, ∀ d, (s.2.definitions x).getLast? = some d →
    InSamePiece splits file esym d.1 d.2

/-- All files that define a symbol in a mergeable section have it where the definition of the
owner is. -/
def SharedPlacesAgree : Prop :=
  ∀ (syms : ν → ResolvedSymbol) schedule splits, (∀ x, (syms x).file = none) →
    ctx.ClaimSchedule isAlive schedule → ctx.splitFiles args = .ok splits →
    ∀ x file esym, (ctx.resolveSymbols isAlive schedule syms x).file = some file →
      ctx.esym (ctx.resolveSymbols isAlive schedule syms x) = some esym →
      AgreesWithOwner splits x file esym

variable {ctx isAlive args} {splits : List (ℕ × SplitFile ν)}

section Fields

variable {ws : List (SymbolWrite ν)} {x : ν} {β : Type*} {f : SymbolWrite ν → Option β}
  {g : Origin × UInt64 → β}

theorem filterMap_eq_nil_of_unattached (hws : WriteSchedule splits ws)
    (hf : ∀ split : SplitFile ν, split.writes.filterMap f = (split.attachments x).map g)
    (h : ∀ s ∈ splits, s.2.attachments x = []) : ws.filterMap f = [] := by
  apply List.eq_nil_iff_forall_not_mem.mpr
  intro y hy
  obtain ⟨l, hl, hmem⟩ := (hws.filterMap f).mem_iff.mp hy
  simp only [List.map_map, List.mem_map, Function.comp_apply] at hl
  obtain ⟨s, hs, rfl⟩ := hl
  rw [hf, h s hs] at hmem
  exact List.not_mem_nil hmem

theorem getLast?_filterMap_of_attached (hws : WriteSchedule splits ws)
    (hf : ∀ split : SplitFile ν, split.writes.filterMap f = (split.attachments x).map g)
    {s : ℕ × SplitFile ν} (hs : s ∈ splits) (h : s.2.attachments x ≠ []) :
    ∃ s' ∈ splits, ∃ p, s'.2.lastAttachment x = some p ∧
      (ws.filterMap f).getLast? = some (g p) := by
  obtain ⟨p, hp⟩ := List.exists_mem_of_ne_nil _ h
  have hne : ws.filterMap f ≠ [] := by
    apply List.ne_nil_of_mem (a := g p)
    apply (hws.filterMap f).mem_iff.mpr
    refine ⟨s.2.writes.filterMap f, List.mem_map_of_mem (List.mem_map_of_mem hs), ?_⟩
    rw [hf]
    exact List.mem_map_of_mem hp
  have hlast := List.getLast?_eq_some_getLast hne
  obtain ⟨l, hl, hl'⟩ := (hws.filterMap f).getLast? hlast
  simp only [List.map_map, List.mem_map, Function.comp_apply] at hl
  obtain ⟨s', hs', rfl⟩ := hl
  rw [hf, List.getLast?_map, Option.map_eq_some_iff] at hl'
  obtain ⟨p', hp', hg⟩ := hl'
  exact ⟨s', hs', p', hp', by rw [hlast, hg]⟩

end Fields

theorem resolveSectionPieces_of_unattached {ws : List (SymbolWrite ν)}
    (hws : WriteSchedule splits ws) {x : ν}
    (h : ∀ s ∈ splits, s.2.attachments x = []) (syms : ν → ResolvedSymbol) :
    resolveSectionPieces ws syms x = syms x := by
  rw [resolveSectionPieces_apply,
    filterMap_eq_nil_of_unattached hws (fun split => split.filterMap_originOf_writes x) h,
    filterMap_eq_nil_of_unattached hws (fun split => split.filterMap_valueOf_writes x) h]
  rfl

theorem exists_schedule_of_lastAttachment {s : ℕ × SplitFile ν} (hs : s ∈ splits) {x : ν}
    {p : Origin × UInt64} (hp : s.2.lastAttachment x = some p) :
    ∃ ws, WriteSchedule splits ws ∧ ∀ syms : ν → ResolvedSymbol,
      resolveSectionPieces ws syms x = { syms x with origin := p.1, value := p.2 } := by
  obtain ⟨before, hws⟩ := Interleaving.last (List.mem_map_of_mem (f := fun s => s.2.writes) hs)
  refine ⟨_, hws, ?_⟩
  intro syms
  rw [SplitFile.lastAttachment] at hp
  rw [resolveSectionPieces_apply, List.filterMap_append, List.filterMap_append,
    s.2.filterMap_originOf_writes, s.2.filterMap_valueOf_writes]
  simp [List.getLast?_append, List.getLast?_map, hp]

theorem resolveSectionPieces_of_attached {ws : List (SymbolWrite ν)}
    (hws : WriteSchedule splits ws) {x : ν} {s : ℕ × SplitFile ν} (hs : s ∈ splits)
    (h : s.2.attachments x ≠ []) (syms : ν → ResolvedSymbol) :
    ∃ s₁ ∈ splits, ∃ s₂ ∈ splits, ∃ p₁ p₂, s₁.2.lastAttachment x = some p₁ ∧
      s₂.2.lastAttachment x = some p₂ ∧
      resolveSectionPieces ws syms x =
        { syms x with origin := p₁.1, value := p₂.2 } := by
  obtain ⟨s₁, hs₁, p₁, hp₁, horigin⟩ := getLast?_filterMap_of_attached hws
    (fun split => split.filterMap_originOf_writes x) hs h
  obtain ⟨s₂, hs₂, p₂, hp₂, hvalue⟩ := getLast?_filterMap_of_attached hws
    (fun split => split.filterMap_valueOf_writes x) hs h
  refine ⟨s₁, hs₁, s₂, hs₂, p₁, p₂, hp₁, hp₂, ?_⟩
  rw [resolveSectionPieces_apply, horigin, hvalue]
  rfl

theorem record_of_owner {schedule : List (Claim ν)}
    (hschedule : ctx.ClaimSchedule isAlive schedule) {syms : ν → ResolvedSymbol}
    (hnone : ∀ x, (syms x).file = none) {x : ν} {file : FileRef} {esym : ElfSym ν}
    (hfile : (ctx.resolveSymbols isAlive schedule syms x).file = some file)
    (hesym : ctx.esym (ctx.resolveSymbols isAlive schedule syms x) = some esym) :
    (ctx.resolveSymbols isAlive schedule syms x).origin = file.origin esym ∧
      (ctx.resolveSymbols isAlive schedule syms x).value = esym.stValue := by
  rcases resolveSymbols_eq_or hschedule syms x with heq | ⟨file', -, claim, hclaim, -, heq⟩
  · rw [heq, hnone] at hfile
    cases hfile
  · obtain ⟨esym', hbacked⟩ := exists_backed hclaim
    rw [heq] at hfile hesym ⊢
    obtain rfl := Option.some.inj (hbacked.record_file.symm.trans hfile)
    obtain rfl := Option.some.inj (hbacked.esym_eq.symm.trans hesym)
    exact ⟨hbacked.origin, hbacked.value⟩

/-- The symbols are at the definitions of their owners after all schedules if and only
if all files that define a symbol in a mergeable section agree with its owner. -/
theorem locationsFromOwner_iff :
    ctx.LocationsFromOwner isAlive args ↔ ctx.SharedPlacesAgree isAlive args := by
  constructor
  · intro h syms schedule splits hnone hschedule hsplits x file esym hfile hesym
    have hrecord := record_of_owner hschedule hnone hfile hesym
    constructor
    · rintro i split rfl hsplit hattached
      by_contra hnot
      have hall : ∀ s ∈ splits, s.2.attachments x = [] := by
        intro s hs
        by_contra hne
        rw [SplitFile.attachments_eq, List.map_eq_nil_iff] at hne
        exact hnot ⟨s, hs, hne⟩
      have hws : WriteSchedule splits _ := Interleaving.flatten _
      have hstays := resolveSectionPieces_of_unattached hws hall
        (ctx.resolveSymbols isAlive schedule syms)
      have hdescribes := h syms schedule splits _ hnone hschedule hsplits hws x
      rw [hstays] at hdescribes
      have hlocation := hdescribes _ _ hfile hesym
      rw [hrecord.1] at hlocation
      exact not_isLocation_origin hsplit hattached hlocation
    · intro s hs d hd
      have hp : s.2.lastAttachment x = some (d.1.attach d.2) := by
        rw [SplitFile.lastAttachment_eq, hd, Option.map_some]
      obtain ⟨ws, hws, hlast⟩ := exists_schedule_of_lastAttachment hs hp
      have hdescribes := h syms schedule splits ws hnone hschedule hsplits hws x
      rw [hlast] at hdescribes
      have hne := SplitFile.strings_ne_nil (List.mem_of_getLast? hd)
      exact (isLocation_attach_iff hne d.2).mp (hdescribes file esym hfile hesym)
  · intro h syms schedule splits ws hnone hschedule hsplits hws x file esym hfile hesym
    by_cases hall : ∀ s ∈ splits, s.2.attachments x = []
    · rw [resolveSectionPieces_of_unattached hws hall] at hfile hesym ⊢
      have hagrees := h syms schedule splits hnone hschedule hsplits x file esym hfile hesym
      have hrecord := record_of_owner hschedule hnone hfile hesym
      rw [hrecord.1, hrecord.2]
      apply isLocation_origin
      intro i split hi hsplit
      by_contra hne
      obtain ⟨s, hs, hsome⟩ := hagrees.defined i split hi hsplit
        (Option.isSome_iff_ne_none.mpr hne)
      have hnil := hall s hs
      rw [SplitFile.attachments_eq, List.map_eq_nil_iff] at hnil
      exact hsome hnil
    · push Not at hall
      obtain ⟨s, hs, hne⟩ := hall
      obtain ⟨s₁, hs₁, s₂, hs₂, p₁, p₂, hp₁, hp₂, heq⟩ :=
        resolveSectionPieces_of_attached hws hs hne (ctx.resolveSymbols isAlive schedule syms)
      rw [heq] at hfile hesym ⊢
      have hagrees := h syms schedule splits hnone hschedule hsplits x file esym hfile hesym
      have hplace (s : ℕ × SplitFile ν) (hs : s ∈ splits) (p : Origin × UInt64)
          (hp : s.2.lastAttachment x = some p) : IsLocation splits file esym p.1 p.2 := by
        rw [SplitFile.lastAttachment_eq] at hp
        obtain ⟨d, hd, rfl⟩ := Option.map_eq_some_iff.mp hp
        have hne := SplitFile.strings_ne_nil (List.mem_of_getLast? hd)
        exact (isLocation_attach_iff hne d.2).mpr (hagrees.places s hs d hd)
      exact IsLocation.mix (hplace s₁ hs₁ p₁ hp₁) (hplace s₂ hs₂ p₂ hp₂)

end Context

/-- The first file defines the only symbol in its data, and the second one has a weak
definition in a section of strings. -/
def overriddenString : Context Unit where
  obj i :=
    if i = 0 then
      { priority := 10000
        elfSyms := [{ sym := (), stShndx := .undef },
          { sym := (), stShndx := .sect 1, stValue := 4 }]
        sections := [none, some { name := ".data", shSize := 8 }] }
    else
      { priority := 10001
        elfSyms := [{ sym := (), stShndx := .undef },
          { sym := (), stShndx := .sect 1, isWeak := true }]
        sections := [none, some
          { name := ".rodata"
            shFlags := 0x32
            shEntsize := 1
            shSize := 2
            contents := [0x61, 0] }] }
  dso _ := SharedFile.empty
  objs := [0, 1]
  dsos := []

theorem overriddenString_splitFiles :
    ∃ split, overriddenString.splitFiles {} = .ok
        [(0, { file := overriddenString.obj 0, mergeableSections := [none, none] }), (1, split)] ∧
      split.file.elfSyms = (overriddenString.obj 1).elfSyms ∧
      split.mergeableSections =
        [none, some { parent := (".rodata.str", 0x32, 1), strings := [[0x61, 0]] }] := by
  have hstrings : splitStrings 1 Nat.one_pos [0x61, 0] = .ok [[0x61, 0]] := by
    rw [splitStrings]
    change (splitStrings 1 Nat.one_pos []).map _ = _
    rw [splitStrings]
    rfl
  have hsection : initializeSection {} (some
      { name := ".rodata", shFlags := 0x32, shEntsize := 1, shSize := 2,
        contents := [0x61, 0] }) =
      .ok (some { parent := (".rodata.str", 0x32, 1), strings := [[0x61, 0]] }) := by
    change (splitStrings 1 _ [0x61, 0]).map _ = _
    rw [hstrings]
    rfl
  have hkill : (killEhFrameSections (overriddenString.obj 1)).sections =
      [none, some
        { name := ".rodata", shFlags := 0x32, shEntsize := 1, shSize := 2,
          contents := [0x61, 0] }] := by
    decide
  have hsections : (killEhFrameSections (overriddenString.obj 1)).sections.mapM
      (initializeSection {}) = .ok
        [none, some { parent := (".rodata.str", 0x32, 1), strings := [[0x61, 0]] }] := by
    rw [hkill, List.mapM_cons, List.mapM_cons, List.mapM_nil, hsection]
    rfl
  obtain ⟨split, hsplit, hsyms, hmergeable⟩ := exists_split hsections
  refine ⟨split, ?_, hsyms, hmergeable⟩
  change List.mapM _ [0, 1] = _
  rw [List.mapM_cons, List.mapM_cons, List.mapM_nil, hsplit]
  rfl

/-- The symbol of the first file is moved to the string of the second one. -/
theorem overriddenString_not_locationsFromOwner :
    ¬ overriddenString.LocationsFromOwner (fun _ => true) {} := by
  intro h
  obtain ⟨split, hsplits, hfile, hsections⟩ := overriddenString_splitFiles
  have hdefinitions : split.definitions () =
      [({ parent := (".rodata.str", 0x32, 1), strings := [[0x61, 0]] }, 0)] := by
    rw [SplitFile.definitions, hfile]
    simp only [SplitFile.pieces, SplitFile.mergeableSection, hsections]
    rfl
  have hp : split.lastAttachment () = some (MergeableSection.attach
      { parent := (".rodata.str", 0x32, 1), strings := [[0x61, 0]] } 0) := by
    rw [SplitFile.lastAttachment_eq, hdefinitions]
    rfl
  obtain ⟨ws, hws, hlast⟩ := @Context.exists_schedule_of_lastAttachment _ _
    [(0, { file := overriddenString.obj 0, mergeableSections := [none, none] }), (1, split)]
    _ (List.mem_pair.mpr (Or.inr rfl)) _ _ hp
  have hdescribes := h (fun _ => {}) _ _ ws (fun _ => rfl)
    ⟨_, _, Interleaving.flatten _, Interleaving.flatten _, rfl⟩ hsplits hws ()
  rw [hlast] at hdescribes
  have hlocation := hdescribes (.obj 0) { sym := (), stShndx := .sect 1, stValue := 4 } rfl rfl
  exact (MergeableSection.attach_ne_isec _ _ _).1 (hlocation _ List.mem_cons_self).1

end Mold.Elf
