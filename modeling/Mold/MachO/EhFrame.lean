import Mold.Lib.Excision

/-!
# DWARF unwind records

`parse_eh_frame` leaves the FDEs of a file in a vector, and
`associate_compact_unwind` makes an unwind record for each of them that points
to its place in the vector.  `EhFrameSection::compute_size` erases the FDEs of
dead functions from the vector and lays out the rest.  After that
`UnwindInfoSection::compute_size` writes the output offset of the FDE that it
finds in the place into the encoding of the unwind record.

A pointer is a file and a place here, and the storage of a vector goes on
existing behind its end.
-/

namespace Mold.MachO.EhFrame

open Mold.Lib

variable {σ τ : Type*}

/-! ## Records -/

/-- An FDE.  `len` is its length field, which does not count itself, and `cie`
the number of its CIE in the file. -/
structure FdeRecord (σ : Type*) where
  subsec : σ
  cie : ℕ
  len : ℕ

def FdeRecord.size (fde : FdeRecord σ) : ℕ := fde.len + 4

/-- A pointer to a place in the vector `fdes` of a file. -/
structure FdePtr where
  file : ℕ
  place : ℕ
  deriving DecidableEq

structure UnwindRecord (σ τ : Type*) where
  subsec : σ
  personality : Option τ := none
  lsda : Option σ := none
  fde : Option FdePtr := none
  inputOffset : ℕ := 0
  codeLen : ℕ := 0
  encoding : ℕ := 0
  lsdaOffset : ℕ := 0

/-- The unwind information of an object file behind `parse_eh_frame`: the
lengths of its CIEs, the FDEs, and the records of `__compact_unwind`. -/
structure ObjectFile (σ τ : Type*) where
  cies : List ℕ
  fdes : List (FdeRecord σ)
  compact : List (UnwindRecord σ τ)

/-- A link after the elimination of subsections.  `members` are the members of
the output sections, in the order of the output; every live function is among
them. -/
structure Link (σ τ : Type*) where
  objs : List (ObjectFile σ τ)
  isAlive : σ → Bool
  inputAddr : σ → ℕ
  inputSize : σ → ℕ
  members : List σ
  mem_members : ∀ file ∈ objs, ∀ fde ∈ file.fdes, isAlive fde.subsec = true → fde.subsec ∈ members

/-- `E::unwind_mode_dwarf` is `UNWIND_X86_64_MODE_DWARF` or
`UNWIND_ARM64_MODE_DWARF`. -/
inductive Target where
  | x86_64
  | arm64
  deriving DecidableEq

namespace Target

/-- The mode field of `E::unwind_mode_dwarf`. -/
def dwarfMode : Target → ℕ
  | x86_64 => 4
  | arm64 => 3

/-- `E::unwind_mode_dwarf`. -/
def unwindModeDwarf (target : Target) : ℕ := 2 ^ 24 * target.dwarfMode

end Target

namespace Link

variable (link : Link σ τ)

/-- `associate_compact_unwind` for the file with the given number. -/
def associateCompactUnwind (file : ObjectFile σ τ × ℕ) : List (UnwindRecord σ τ) :=
  (file.1.compact ++ file.1.fdes.zipIdx.map fun x =>
      ({ subsec := x.1.subsec, fde := some ⟨file.2, x.2⟩,
         codeLen := link.inputSize x.1.subsec } : UnwindRecord σ τ)).mergeSort
    fun a b =>
    decide (link.inputAddr a.subsec < link.inputAddr b.subsec) ||
      (link.inputAddr a.subsec == link.inputAddr b.subsec &&
        decide (a.inputOffset ≤ b.inputOffset))

def records [DecidableEq σ] : List (UnwindRecord σ τ) :=
  link.members.flatMap fun s =>
    (link.objs.zipIdx.flatMap link.associateCompactUnwind).filter fun rec =>
      rec.subsec = s

/-! ## Layout of `__eh_frame` -/

def cieBytes (file : ObjectFile σ τ) : ℕ :=
  ((file.cies.zipIdx.filter fun cie => file.fdes.any fun fde =>
      link.isAlive fde.subsec && fde.cie == cie.2).map
    fun cie => cie.1 + 4).sum

def fdeBytes (fdes : List (FdeRecord σ)) : ℕ :=
  (fdes.map FdeRecord.size).sum

def liveFdes (file : ObjectFile σ τ) : List (FdeRecord σ) :=
  file.fdes.filter fun fde => link.isAlive fde.subsec

/-- Set `output_offset` of the first `n` FDEs in a vector. -/
def setOffsets : ℕ → ℕ → List (FdeRecord σ × ℕ) → List (FdeRecord σ × ℕ)
  | 0, _, fdes => fdes
  | _, _, [] => []
  | n + 1, offset, fde :: fdes =>
    (fde.1, offset % 2 ^ 32) :: setOffsets n (offset + fde.1.size) fdes

/-- The vector of FDEs with their `output_offset` before `compute_size`. -/
def initialFdes (file : ObjectFile σ τ) : List (FdeRecord σ × ℕ) :=
  file.fdes.map fun fde => (fde, 2 ^ 32 - 1)

/-- The storage of the vector of FDEs after `compute_size`. -/
def storage (file : ObjectFile σ τ) (offset : ℕ) : List (FdeRecord σ × ℕ) :=
  setOffsets (link.liveFdes file).length (offset + link.cieBytes file)
    (eraseStorage (fun fde => link.isAlive fde.1.subsec) (initialFdes file))

def place : ℕ → List (ObjectFile σ τ) → List (ObjectFile σ τ × ℕ)
  | _, [] => []
  | offset, file :: files => (file, offset) ::
      place (offset + link.cieBytes file + fdeBytes (link.liveFdes file)) files

/-- `rec->fde->output_offset`. -/
def fdeOutputOffset (ptr : FdePtr) : ℕ :=
  match (link.place 0 link.objs)[ptr.file]? with
  | none => 2 ^ 32 - 1
  | some file =>
    match (link.storage file.1 file.2)[ptr.place]? with
    | none => 2 ^ 32 - 1
    | some fde => fde.2

/-- The bits of `encode_personality`, with the table of personalities behind
it.  More than three personalities are an error. -/
def encodePersonality [DecidableEq τ] (personalities : List τ) (sym : τ) : Option (List τ × ℕ) :=
  if sym ∈ personalities then
    some (personalities, (personalities.idxOf sym + 1) * 2 ^ 28)
  else if personalities.length = 3 then
    none
  else
    some (personalities ++ [sym], (personalities.length + 1) * 2 ^ 28)

/-- The loop of `UnwindInfoSection::compute_size` that completes the encodings. -/
def encodeRecords [DecidableEq τ] (target : Target) (fdeOutputOffset : FdePtr → ℕ) :
    List τ → List (UnwindRecord σ τ) → Option (List τ × List (UnwindRecord σ τ))
  | personalities, [] => some (personalities, [])
  | personalities, rec :: records =>
    match rec.fde, rec.personality with
    | some ptr, _ =>
      (encodeRecords target fdeOutputOffset personalities records).map
        fun x => (x.1, { rec with
          encoding := target.unwindModeDwarf ||| fdeOutputOffset ptr } :: x.2)
    | none, some sym =>
      match encodePersonality personalities sym with
      | none => none
      | some (personalities, bits) =>
        (encodeRecords target fdeOutputOffset personalities records).map
          fun x => (x.1, { rec with encoding := rec.encoding ||| bits } :: x.2)
    | none, none =>
      (encodeRecords target fdeOutputOffset personalities records).map
        fun x => (x.1, rec :: x.2)

/-- The records with the encodings that `__unwind_info` is made from. -/
def encodedRecords [DecidableEq σ] [DecidableEq τ] (target : Target) :
    Option (List τ × List (UnwindRecord σ τ)) :=
  encodeRecords target link.fdeOutputOffset [] link.records

/-- The offset in `__eh_frame` of the FDE in the given place, for a file whose
records begin at `offset`: in front of it are the live CIEs of the file and the
live FDEs in earlier places. -/
def fdeOffset (file : ObjectFile σ τ) (offset place : ℕ) : ℕ :=
  offset + link.cieBytes file +
    fdeBytes ((file.fdes.take place).filter fun fde => link.isAlive fde.subsec)

def IsDwarfEncoding (target : Target) (encoding offset : ℕ) : Prop :=
  encoding / 2 ^ 24 % 16 = target.dwarfMode ∧ encoding % 2 ^ 24 = offset

/-- Every live function with an FDE has a record that points to the FDE, and
each such record has the offset of this very FDE in its encoding. -/
def EncodingsCorrect (target : Target) (records : List (UnwindRecord σ τ)) :
    Prop :=
  ∀ (f : ℕ) file offset, (link.place 0 link.objs)[f]? = some (file, offset) →
    ∀ (i : ℕ) fde, file.fdes[i]? = some fde → link.isAlive fde.subsec = true →
      (∃ rec ∈ records, rec.fde = some ⟨f, i⟩) ∧
        ∀ rec ∈ records, rec.fde = some ⟨f, i⟩ →
          IsDwarfEncoding target rec.encoding (link.fdeOffset file offset i)

/-- No FDE of a dead function is in front of the FDE of a live one of the same
file, and the offset of every live FDE fits into its field. -/
def DeadFdesLast : Prop :=
  ∀ (f : ℕ) file offset, (link.place 0 link.objs)[f]? = some (file, offset) →
    ∀ (i : ℕ) fde, file.fdes[i]? = some fde → link.isAlive fde.subsec = true →
      (∀ other ∈ file.fdes.take i, link.isAlive other.subsec = true) ∧
        link.fdeOffset file offset i < 2 ^ 24

end Link

end Mold.MachO.EhFrame
