import Mold.MachO.Dylibs
import Mold.MachO.ChainedImports

/-!
# Dylib ordinals

The last loop of `resolve_symbols` numbers the dylibs that are left, and every
reference to an imported symbol stores the number of its owner: the bind and
lazy bind opcodes, the records of chained imports and the descriptors of the
symbol table.  The loader counts the load commands instead, and
`create_load_commands` emits one for every install name.

The passes after `resolve_symbols` hand no symbol to another dylib and leave
`ctx.dylibs` alone, so the two can be compared in the state in which
`resolve_symbols` ends.  They agree in runs in which linker options of extracted
archive members only add dylibs with new install names.
-/

namespace Mold.MachO.Resolver

open Mold.Lib Mold.MachO.ChainedFixups

variable {ν : Type*}

/-! ## Numbers and load commands -/

/-- `BIND_SPECIAL_DYLIB_MAIN_EXECUTABLE` as a value of the 64-bit field
`dylib_idx`. -/
def mainExecutableIdx : ℕ := 2 ^ 32 - 1

/-- The loop that numbers the dylibs, starting with `i`. -/
def assignDylibIdx (dylib : ℕ → DylibFile ν) : (i : ℕ) → List ℕ → (ℕ → ℕ) → ℕ → ℕ
  | _, [], idx => idx
  | i, d :: dylibs, idx =>
    if (dylib d).isMainExecutable then
      assignDylibIdx dylib i dylibs idx
    else
      assignDylibIdx dylib (i + 1) dylibs (Function.update idx d i)

/-- `dylib_idx` at the end of `resolve_symbols`. -/
def dylibIdx (dylib : ℕ → DylibFile ν) (dylibs : List ℕ) : ℕ → ℕ :=
  assignDylibIdx dylib 1 dylibs fun d =>
    if (dylib d).isMainExecutable then mainExecutableIdx else 0

/-- The types `LC_LOAD_DYLIB`, `LC_LOAD_WEAK_DYLIB` and `LC_REEXPORT_DYLIB`. -/
inductive LoadDylibType where
  | loadDylib
  | loadWeakDylib
  | reexportDylib
  deriving DecidableEq, Repr

/-- The part of a `DylibCommand` that depends on the dylib. -/
structure DylibCommand where
  cmd : LoadDylibType
  name : String
  deriving DecidableEq, Repr

def createLoadDylibCmd (file : DylibFile ν) : DylibCommand where
  cmd :=
    if file.isReexported then .reexportDylib
    else if file.isWeak then .loadWeakDylib
    else .loadDylib
  name := file.installName

/-- The loop over the dylibs in `create_load_commands`. -/
def createLoadDylibCmds (dylib : ℕ → DylibFile ν) :
    List ℕ → (seen : List String) → List DylibCommand
  | [], _ => []
  | d :: dylibs, seen =>
    let file := dylib d
    if file.isMainExecutable then
      createLoadDylibCmds dylib dylibs seen
    else if file.installName ∈ seen then
      createLoadDylibCmds dylib dylibs seen
    else
      createLoadDylibCmd file :: createLoadDylibCmds dylib dylibs (file.installName :: seen)

/-- `get_dylib_idx`.  The result is a 32-bit number. -/
def getDylibIdx (flatNamespace : Bool) (idx : ℕ → ℕ) : Option FileRef → ℤ
  | some (.dylib d) =>
    if flatNamespace then -2 else (BitVec.ofNat 32 (idx d)).toInt
  | _ => -2

/-- The opcode that `encode_bind_entries` and `LazyBindSection::add` emit for
an ordinal. -/
def ordinalOpcode (idx : ℤ) : List Byte :=
  if idx < 0 then
    [Fin.ofNat 256 (0x30 + (idx % 16).toNat)]
  else if idx < 16 then
    [Fin.ofNat 256 (0x10 + idx.toNat)]
  else
    Fin.ofNat 256 0x20 :: Uleb.encode idx.toNat

/-- The ordinal opcodes in front of the binds of a list of symbols.  A bind that
follows one against the same file has none. -/
def bindOrdinalOpcodes (idx : ν → ℤ) (file : ν → Option FileRef) :
    (last : Option ν) → List ν → List (List Byte)
  | _, [] => []
  | last, x :: xs =>
    (if last.any fun y => file y = file x then [] else ordinalOpcode (idx x)) ::
      bindOrdinalOpcodes idx file (some x) xs

/-- The library ordinal that `write_imports` puts into a record. -/
def importLibOrdinal (flatNamespace : Bool) (idx : ℕ → ℕ) : Option FileRef → ℤ
  | some (.dylib d) => if flatNamespace then -2 else idx d
  | _ => if flatNamespace then -2 else -3

/-- The 16-bit descriptor that `DylibFile::populate_symtab` writes. -/
def symtabDesc (idx : ℕ → ℕ) (d : ℕ) : ℕ :=
  idx d * 2 ^ 8 % 2 ^ 16

/-! ## Reading them back -/

def readOrdinalOpcode : List Byte → Option ℤ
  | [] => none
  | b :: bytes =>
    if b.val / 16 = 1 then some (b.val % 16 : ℕ)
    else if b.val / 16 = 2 then (Uleb.decode bytes).map fun r => (r.1 : ℤ)
    else if b.val / 16 = 3 then
      some (if b.val % 16 = 0 then 0 else (b.val % 16 : ℕ) - 16)
    else none

def ordinalsInForce : (current : Option ℤ) → List (List Byte) → List (Option ℤ)
  | _, [] => []
  | current, opcode :: opcodes =>
    let current := if opcode = [] then current else readOrdinalOpcode opcode
    current :: ordinalsInForce current opcodes

/-- The field `lib_ordinal` of a record. -/
def recordLibOrdinal (fmt : ImportFormat) (record : ℕ) : ℕ :=
  (BitField.unpack fmt.widths record).getD 0 0

/-- `GET_LIBRARY_ORDINAL` of a descriptor. -/
def libraryOrdinal (desc : ℕ) : ℕ := desc / 2 ^ 8 % 2 ^ 8

section Property

variable (L : Link ν) (flatNamespace : Bool) (t : State ν)

/-- `dylib_idx` of the dylibs of the context. -/
def Link.idx : ℕ → ℕ := dylibIdx L.files.dylib t.dylibs

/-- The result of `get_dylib_idx` for a symbol. -/
def Link.symbolIdx (x : ν) : ℤ :=
  getDylibIdx flatNamespace (L.idx t) (t.syms x).file

/-- What is stored for a symbol that dylib `d` owns is the ordinal `n`.  In a
flat namespace only descriptors hold ordinals. -/
structure Link.StoresOrdinal (x : ν) (d n : ℕ) : Prop where
  bind : flatNamespace = false → ∀ (xs : List ν) (i : ℕ), xs[i]? = some x →
    (ordinalsInForce none (bindOrdinalOpcodes (L.symbolIdx flatNamespace t)
      (fun y => (t.syms y).file) none xs))[i]? = some (some (n : ℤ))
  lazyBind : flatNamespace = false →
    readOrdinalOpcode (ordinalOpcode (L.symbolIdx flatNamespace t x)) = some (n : ℤ)
  chainedImport : flatNamespace = false →
    ∀ (fmt : ImportFormat) (weak : Bool) (nameoff addend : ℕ),
      recordLibOrdinal fmt (fmt.record (importLibOrdinal flatNamespace (L.idx t) (t.syms x).file)
        weak nameoff addend) = n
  desc : libraryOrdinal (symtabDesc (L.idx t) d) = n

/-- The ordinal that is stored for a symbol owned by a dylib is the position,
counted from 1, of the load command with the install name of the dylib. -/
def Link.OrdinalsCorrect : Prop :=
  ∀ (x : ν) (d : ℕ), (t.syms x).file = some (.dylib d) →
    (L.files.dylib d).isMainExecutable = false →
      ∃ (n : ℕ) (cmd : DylibCommand),
        (createLoadDylibCmds L.files.dylib t.dylibs [])[n]? = some cmd ∧
        cmd.name = (L.files.dylib d).installName ∧
        L.StoresOrdinal flatNamespace t x d (n + 1)

end Property

section LoadCommands

variable {dylib : ℕ → DylibFile ν}

theorem createLoadDylibCmds_eq (dylibs : List ℕ) (seen : List String)
    (hnodup : (installNames dylib dylibs).Nodup)
    (hfresh : ∀ name ∈ installNames dylib dylibs, name ∉ seen) :
    createLoadDylibCmds dylib dylibs seen =
      (importable dylib dylibs).map fun d => createLoadDylibCmd (dylib d) := by
  induction dylibs generalizing seen with
  | nil => rfl
  | cons d dylibs ih =>
    rw [createLoadDylibCmds]
    rw [← List.singleton_append, installNames_append] at hnodup hfresh
    cases hmain : (dylib d).isMainExecutable with
    | true =>
      rw [installNames_singleton_of_main hmain, List.nil_append] at hnodup hfresh
      simp only [if_true]
      rw [ih seen hnodup hfresh]
      simp [importable, hmain]
    | false =>
      rw [installNames_singleton hmain, List.singleton_append] at hnodup hfresh
      rw [List.nodup_cons] at hnodup
      rw [List.forall_mem_cons] at hfresh
      simp only [Bool.false_eq_true, if_false, hfresh.1]
      rw [ih _ hnodup.2]
      · simp [importable, hmain]
      · intro name hname hmem
        rcases List.mem_cons.mp hmem with rfl | hmem
        · exact hnodup.1 hname
        · exact hfresh.2 name hname hmem

end LoadCommands

section Numbers

variable {dylib : ℕ → DylibFile ν}

theorem assignDylibIdx_of_notMem {d : ℕ} (dylibs : List ℕ)
    (h : d ∉ importable dylib dylibs) (i : ℕ) (idx : ℕ → ℕ) :
    assignDylibIdx dylib i dylibs idx d = idx d := by
  induction dylibs generalizing i idx with
  | nil => rfl
  | cons e dylibs ih =>
    rw [assignDylibIdx]
    cases hmain : (dylib e).isMainExecutable with
    | true =>
      rw [if_pos rfl]
      apply ih
      simpa [importable, hmain] using h
    | false =>
      rw [if_neg (by simp)]
      have hcons : importable dylib (e :: dylibs) = e :: importable dylib dylibs := by
        simp [importable, hmain]
      rw [hcons, List.mem_cons, not_or] at h
      rw [ih h.2, Function.update_of_ne h.1]

theorem assignDylibIdx_getElem (dylibs : List ℕ)
    (hnodup : (importable dylib dylibs).Nodup) {k d : ℕ}
    (hd : (importable dylib dylibs)[k]? = some d) (i : ℕ) (idx : ℕ → ℕ) :
    assignDylibIdx dylib i dylibs idx d = i + k := by
  induction dylibs generalizing i idx k with
  | nil => simp [importable] at hd
  | cons e dylibs ih =>
    rw [assignDylibIdx]
    cases hmain : (dylib e).isMainExecutable with
    | true =>
      have hcons : importable dylib (e :: dylibs) = importable dylib dylibs := by
        simp [importable, hmain]
      rw [hcons] at hnodup hd
      rw [if_pos rfl]
      exact ih hnodup hd i idx
    | false =>
      have hcons : importable dylib (e :: dylibs) = e :: importable dylib dylibs := by
        simp [importable, hmain]
      rw [hcons, List.nodup_cons] at hnodup
      rw [hcons] at hd
      rw [if_neg (by simp)]
      cases k with
      | zero =>
        rw [List.getElem?_cons_zero] at hd
        rw [← Option.some.inj hd, assignDylibIdx_of_notMem _ hnodup.1,
          Function.update_self, Nat.add_zero]
      | succ k =>
        rw [List.getElem?_cons_succ] at hd
        rw [ih hnodup.2 hd]
        omega

end Numbers

/-! ## Opcodes and records -/

theorem readOrdinalOpcode_ordinalOpcode {idx : ℤ} (h : -16 < idx) :
    readOrdinalOpcode (ordinalOpcode idx) = some idx := by
  rw [ordinalOpcode]
  split
  case isTrue hneg =>
    have hval : (Fin.ofNat 256 (0x30 + (idx % 16).toNat)).val = 48 + (idx + 16).toNat := by
      rw [Fin.val_ofNat]
      omega
    simp only [readOrdinalOpcode, hval]
    rw [if_neg (by omega), if_neg (by omega), if_pos (by omega), if_neg (by omega)]
    congr 1
    omega
  case isFalse hpos =>
    split
    case isTrue hlt =>
      have hval : (Fin.ofNat 256 (0x10 + idx.toNat)).val = 16 + idx.toNat := by
        rw [Fin.val_ofNat]
        omega
      simp only [readOrdinalOpcode, hval]
      rw [if_pos (by omega)]
      congr 1
      omega
    case isFalse =>
      have hval : (Fin.ofNat 256 0x20).val = 32 := rfl
      have hdecode := Uleb.decode_encode_append idx.toNat []
      rw [List.append_nil] at hdecode
      simp only [readOrdinalOpcode, hval, hdecode]
      rw [if_neg (by decide), if_pos (by decide), Option.map_some]
      congr 1
      exact Int.toNat_of_nonneg (by omega)

theorem ordinalOpcode_ne_nil (idx : ℤ) : ordinalOpcode idx ≠ [] := by
  rw [ordinalOpcode]
  split
  · simp
  · split <;> simp

theorem ordinalsInForce_bindOrdinalOpcodes {idx : ν → ℤ}
    {file : ν → Option FileRef}
    (hsame : ∀ x y, file x = file y → idx x = idx y) (xs : List ν)
    (hread : ∀ x ∈ xs, -16 < idx x) (last : Option ν) :
    ordinalsInForce (last.map idx) (bindOrdinalOpcodes idx file last xs) =
      xs.map fun x => some (idx x) := by
  induction xs generalizing last with
  | nil => rfl
  | cons x xs ih =>
    have hx := readOrdinalOpcode_ordinalOpcode (hread x List.mem_cons_self)
    have hcurrent : (if (if last.any fun y => file y = file x then []
          else ordinalOpcode (idx x)) = [] then last.map idx
        else readOrdinalOpcode (if last.any fun y => file y = file x then []
          else ordinalOpcode (idx x))) = some (idx x) := by
      by_cases hlast : last.any (fun y => file y = file x) = true
      · obtain ⟨y, hy, hfile⟩ := (Option.any_eq_true _ _).mp hlast
        rw [if_pos hlast, if_pos rfl, hy, Option.map_some]
        rw [hsame y x (by simpa using hfile)]
      · rw [if_neg hlast, if_neg (ordinalOpcode_ne_nil _), hx]
    simp only [bindOrdinalOpcodes, ordinalsInForce, hcurrent, List.map_cons]
    rw [← Option.map_some, ih (fun y hy => hread y (List.mem_cons_of_mem x hy))]

theorem recordLibOrdinal_record (lib : ℤ) (weak : Bool) (nameoff addend : ℕ) (fmt : ImportFormat) :
    recordLibOrdinal fmt (fmt.record lib weak nameoff addend) =
      (lib % 2 ^ 64).toNat % 2 ^ fmt.libWidth := by
  have hunpack : BitField.unpack fmt.widths (fmt.record lib weak nameoff addend) =
      (fmt.widths.zip (fmt.fields lib weak nameoff addend)).map
        fun field => field.2 % 2 ^ field.1 := by
    rw [ImportFormat.record, ← BitField.unpack_pack]
    cases fmt <;> rfl
  rw [recordLibOrdinal, hunpack]
  cases fmt <;> rfl

theorem getDylibIdx_dylib {idx : ℕ → ℕ} {d : ℕ} (h : idx d < 2 ^ 31) :
    getDylibIdx false idx (some (.dylib d)) = idx d := by
  rw [getDylibIdx, if_neg (by simp), BitVec.toInt_eq_toNat_cond,
    BitVec.toNat_ofNat, Nat.mod_eq_of_lt (by omega), if_pos (by omega)]

section Owners

variable {L : Link ν} {s : State ν}

theorem idx_eq {t : State ν} (hnodup : (installNames L.files.dylib t.dylibs).Nodup) {k d : ℕ}
    (hd : (importable L.files.dylib t.dylibs)[k]? = some d) :
    L.idx t d = k + 1 := by
  rw [Link.idx, dylibIdx, assignDylibIdx_getElem _ (hnodup.of_map _) hd]
  omega

theorem exists_idx_of_owner {t : State ν} (hnodup : (installNames L.files.dylib t.dylibs).Nodup)
    (howner : ∀ x file, (t.syms x).file = some file → t.isListed file = true) {x : ν} {d : ℕ}
    (hfile : (t.syms x).file = some (.dylib d))
    (hmain : (L.files.dylib d).isMainExecutable = false) :
    ∃ k, (importable L.files.dylib t.dylibs)[k]? = some d ∧
      k < (importable L.files.dylib t.dylibs).length ∧ L.idx t d = k + 1 := by
  have hmem : d ∈ importable L.files.dylib t.dylibs := by
    rw [importable, List.mem_filter]
    exact ⟨isListed_dylib.mp (howner x _ hfile), by simp [hmain]⟩
  obtain ⟨k, hk⟩ := List.mem_iff_getElem?.mp hmem
  exact ⟨k, hk, (List.getElem?_eq_some_iff.mp hk).1, idx_eq hnodup hk⟩

theorem symbolIdx_bounds {t : State ν} (hnodup : (installNames L.files.dylib t.dylibs).Nodup)
    (howner : ∀ x file, (t.syms x).file = some file → t.isListed file = true)
    (hcount : (importable L.files.dylib t.dylibs).length < 2 ^ 8) (x : ν) :
    -16 < L.symbolIdx false t x := by
  rw [Link.symbolIdx]
  cases hfile : (t.syms x).file with
  | none => simp [getDylibIdx]
  | some file =>
    cases file with
    | obj i => simp [getDylibIdx]
    | dylib d =>
      cases hmain : (L.files.dylib d).isMainExecutable with
      | true =>
        have hidx : L.idx t d = mainExecutableIdx := by
          rw [Link.idx, dylibIdx, assignDylibIdx_of_notMem]
          · rw [if_pos hmain]
          · simp [importable, hmain]
        rw [getDylibIdx, if_neg (by simp), hidx]
        decide
      | false =>
        obtain ⟨k, hk, hlt, hidx⟩ := exists_idx_of_owner hnodup howner hfile hmain
        rw [getDylibIdx_dylib (by omega)]
        omega

variable [DecidableEq ν]

theorem isListed_resolveLiveFiles (hs : L.Consistent s) {order : List ℕ}
    (horder : order ⊆ s.dylibs.filter fun d => s.isAlive (.dylib d)) {x : ν}
    {file : FileRef}
    (hfile : ((L.resolveLiveFiles s order).syms x).file = some file) :
    (L.resolveLiveFiles s order).isListed file = true := by
  rcases resolveDylibs_file hfile with hobjs | ⟨d, hd, rfl⟩
  · rcases resolveObjectSymbols_file hobjs with hclear | ⟨i, hi, rfl⟩
    · obtain ⟨hold, hcleared⟩ := clearSymbols_file hclear
      have hlisted := hs.owner_listed x file hold
      rw [hlisted, Bool.true_and, Bool.not_eq_false'] at hcleared
      cases file with
      | obj i =>
        exact isListed_obj.mpr (List.mem_filter.mpr ⟨isListed_obj.mp hlisted, hcleared⟩)
      | dylib d =>
        exact isListed_dylib.mpr (List.mem_filter.mpr ⟨isListed_dylib.mp hlisted, hcleared⟩)
    · exact isListed_obj.mpr hi
  · exact isListed_dylib.mpr (horder hd)

end Owners

section Correct

variable {L : Link ν}

theorem ordinalsCorrect_of_nodup {t : State ν}
    (hnodup : (installNames L.files.dylib t.dylibs).Nodup)
    (howner : ∀ x file, (t.syms x).file = some file → t.isListed file = true)
    (hcount : (importable L.files.dylib t.dylibs).length < 2 ^ 8)
    (flatNamespace : Bool) : L.OrdinalsCorrect flatNamespace t := by
  intro x d hfile hmain
  obtain ⟨k, hk, hlt, hidx⟩ := exists_idx_of_owner hnodup howner hfile hmain
  refine ⟨k, createLoadDylibCmd (L.files.dylib d), ?_, rfl, ?_⟩
  · rw [createLoadDylibCmds_eq _ _ hnodup (by simp), List.getElem?_map, hk]
    rfl
  · have hsymbol : flatNamespace = false → L.symbolIdx flatNamespace t x = (k + 1 : ℕ) := by
      rintro rfl
      rw [Link.symbolIdx, hfile, getDylibIdx_dylib (by omega), hidx]
    refine ⟨?_, ?_, ?_, ?_⟩
    · rintro hflat xs i hi
      have hsame : ∀ y z, (t.syms y).file = (t.syms z).file →
          L.symbolIdx flatNamespace t y = L.symbolIdx flatNamespace t z := by
        intro y z hyz
        simp only [Link.symbolIdx, hyz]
      have hforce := ordinalsInForce_bindOrdinalOpcodes hsame xs
        (fun y _ => hflat ▸ symbolIdx_bounds hnodup howner hcount y) none
      rw [Option.map_none] at hforce
      rw [hforce, List.getElem?_map, hi, Option.map_some, hsymbol hflat]
    · intro hflat
      rw [readOrdinalOpcode_ordinalOpcode, hsymbol hflat]
      rw [hsymbol hflat]
      omega
    · rintro rfl fmt weak nameoff addend
      rw [recordLibOrdinal_record, hfile, importLibOrdinal, if_neg (by simp), hidx]
      cases fmt <;> simp only [ImportFormat.libWidth] <;> omega
    · rw [libraryOrdinal, symtabDesc, hidx]
      omega

variable [DecidableEq ν]

/-- In a run in which linker options of extracted archive members only add
dylibs with new install names, the ordinal stored for an imported symbol names
the load command of its owner.  At most one of the dylibs that were read may
lack an install name, and fewer than 256 may be left at the end. -/
theorem Link.ordinalsCorrect_of_autolinkFresh (L : Link ν)
    {dylib : ℕ → DylibFile ν} {read : List ℕ} (hread : L.ReadFrom dylib read)
    (hunnamed : ((installNames dylib read).filter (· = "")).length ≤ 1)
    {order : List ℕ} (horder : order.Perm L.dylibs) {s : State ν}
    (hrun : Reaches L.step (L.start order) (.done, s))
    (hfresh : ∀ c, Reaches L.step (L.start order) c → L.AutolinkFresh c)
    (hcount : (importable L.files.dylib
      (s.dylibs.filter fun d => s.isAlive (.dylib d))).length < 2 ^ 8)
    {order' : List ℕ}
    (horder' : order'.Perm (s.dylibs.filter fun d => s.isAlive (.dylib d)))
    (flatNamespace : Bool) :
    L.OrdinalsCorrect flatNamespace (L.resolveLiveFiles s order') := by
  have hdistinct : L.NamesDistinct s :=
    Link.namesDistinct_of_reaches (hread.installNames_nodup hunnamed) hrun hfresh
  have hconsistent : L.Consistent s :=
    L.consistent_of_reaches horder.subset hrun
  apply ordinalsCorrect_of_nodup
  · exact hdistinct.sublist ((List.filter_sublist.filter _).map _)
  · exact fun x file => isListed_resolveLiveFiles hconsistent horder'.subset
  · exact hcount

end Correct

/-- An object file refers to the symbol `0`, which an archive member defines.
The member refers to `1` and links a library with the given install name, which
exports `1`, automatically; `libSystem` is named on the command line. -/
def autolinkedLibrary (installName : String) : Link (Fin 3) where
  files :=
    { obj := fun i =>
        let subsec : SubsecRef := { id := i, inputAddr := 0, isTlv := false }
        if i = 0 then
          { priority := 10000
            syms :=
              [{ name := 0, type := .undf },
                { name := 2, type := .sect, subsec := some subsec }] }
        else
          { priority := 10001
            isAlive := false
            syms :=
              [{ name := 0, type := .sect, subsec := some subsec },
                { name := 1, type := .undf }] }
      dylib := fun d =>
        if d = 0 then
          { priority := 8000000
            installName := "/usr/lib/libSystem.B.dylib"
            exports := []
            exports_nodup := List.nodup_nil }
        else
          { priority := 8000001
            isAlive := false
            installName
            exports := [(1, 0)]
            exports_nodup := List.nodup_singleton 1 } }
  objs := [0]
  dylibs := [0]
  archiveSymbolMap := fun x => if x = 0 then [1] else []
  isObjectMember := fun _ => true
  autolink := fun s =>
    if 1 ∈ s.objs ∧ 1 ∉ s.dylibs then [{ dylibs := [1] }] else []
  numDylibs := 2
  ltoObject := 2
  roots := [2]
  objcMsgSend := 2
  dyldStubBinder := 2
  members_dead := by
    intro x m hm
    split at hm
    · rw [List.mem_singleton.mp hm]
      rfl
    · cases hm
  autolink_dead := by
    intro s w hw
    split at hw
    · rw [List.mem_singleton.mp hw]
      simp
    · cases hw
  hoisted_named := by
    intro d h hh
    dsimp only at hh
    split at hh <;> cases hh

/-- The library is another path to `libSystem`. -/
def sameInstallName : Link (Fin 3) :=
  autolinkedLibrary "/usr/lib/libSystem.B.dylib"

def newInstallName : Link (Fin 3) := autolinkedLibrary "/usr/lib/libextra.dylib"

/-- Two dylibs share one load command, and the ordinal of the second one points
behind the last load command. -/
theorem sameInstallName_not_ordinalsCorrect :
    ∃ s, Reaches sameInstallName.step (sameInstallName.start [0]) (.done, s) ∧
      ¬ sameInstallName.OrdinalsCorrect false (sameInstallName.resolveLiveFiles s [0, 1]) := by
  have hrun : (runSteps sameInstallName.step 20
      (sameInstallName.start [0])).any (fun c =>
        let t := sameInstallName.resolveLiveFiles c.2 [0, 1]
        c.1.isDone && decide ((t.syms 1).file = some (.dylib 1) ∧
          (createLoadDylibCmds sameInstallName.files.dylib t.dylibs []).length = 1 ∧
          libraryOrdinal (symtabDesc (sameInstallName.idx t) 1) = 2)) = true := by
    decide +kernel
  obtain ⟨⟨control, s⟩, hc, hfacts⟩ := (Option.any_eq_true _ _).mp hrun
  rw [Bool.and_eq_true, decide_eq_true_eq] at hfacts
  obtain ⟨hdone, howner, hlength, hdesc⟩ := hfacts
  cases control with
  | done =>
    refine ⟨s, reaches_of_runSteps hc, fun hcorrect => ?_⟩
    obtain ⟨n, cmd, hn, -, hstored⟩ := hcorrect 1 1 howner rfl
    have hlt : n < 1 :=
      lt_of_lt_of_eq (List.getElem?_eq_some_iff.mp hn).1 hlength
    have hposition : 2 = n + 1 := hdesc.symm.trans hstored.desc
    omega
  | _ => cases hdone

/-- With a new install name the ordinals are correct. -/
theorem newInstallName_ordinalsCorrect :
    ∃ s, Reaches newInstallName.step (newInstallName.start [0]) (.done, s) ∧
      ((newInstallName.resolveLiveFiles s [0, 1]).syms 1).file = some (.dylib 1) ∧
      newInstallName.OrdinalsCorrect false (newInstallName.resolveLiveFiles s [0, 1]) := by
  have hrun : (runSteps newInstallName.step 20
      (newInstallName.start [0])).any (fun c =>
        c.1.isDone && decide (
          ((newInstallName.resolveLiveFiles c.2 [0, 1]).syms 1).file = some (.dylib 1) ∧
          c.2.dylibs.filter (fun d => c.2.isAlive (.dylib d)) = [0, 1])) =
        true := by
    decide +kernel
  have hfresh : ∀ c,
      Reaches newInstallName.step (newInstallName.start [0]) c →
        newInstallName.AutolinkFresh c := by
    intro c hreach
    apply hreach.of_runSteps (n := 21)
    · decide +kernel
    · decide +kernel
  have hread : newInstallName.ReadFrom newInstallName.files.dylib [0] := by
    have hkept : (dedupDylib { dylib := newInstallName.files.dylib } 0).kept = [0] := by
      decide +kernel
    refine Prod.ext hkept.symm (funext fun d => ?_)
    by_cases hd : d = 0
    · subst hd
      rfl
    · refine (if_neg ?_).symm
      rw [List.foldl_cons, List.foldl_nil, hkept]
      simpa using hd
  obtain ⟨⟨control, s⟩, hc, hfacts⟩ := (Option.any_eq_true _ _).mp hrun
  rw [Bool.and_eq_true, decide_eq_true_eq] at hfacts
  obtain ⟨hdone, howner, hdylibs⟩ := hfacts
  cases control with
  | done =>
    have hreach := reaches_of_runSteps hc
    refine ⟨s, hreach, howner, ?_⟩
    apply newInstallName.ordinalsCorrect_of_autolinkFresh hread
      (by decide +kernel) (List.Perm.refl _) hreach hfresh
    · rw [hdylibs]
      decide
    · rw [hdylibs]
  | _ => cases hdone

end Mold.MachO.Resolver
