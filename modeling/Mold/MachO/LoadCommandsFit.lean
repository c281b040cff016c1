import Mathlib.Data.List.TakeWhile
import Mold.Lib.StableSort
import Mold.MachO.LoadCommands

/-!
# The space for the load commands

The lengths of the load commands depend on the arguments of the link and on whether
there are fixups and exports.  When the size of the Mach-O header is computed, the
table of fixups is empty, so the list has the command for the opcodes of `dyld`, which
is as long as the commands for fixups and exports together or longer.
-/

namespace Mold.MachO.LoadCommands

open Mold.Lib

/-! ## Lengths -/

@[simp] theorem length_u32 (x : ℤ) : (u32 x).length = 4 := length_le _ _

@[simp] theorem length_u64 (x : ℤ) : (u64 x).length = 8 := length_le _ _

@[simp] theorem length_char16 (name : List Byte) : (char16 name).length = 16 := by
  rw [char16, List.length_take, List.length_append, List.length_replicate]
  omega

variable {size : ℕ}

theorem length_padded {bytes : List Byte} (h : bytes.length = size) :
    (padded size bytes).length = alignUp 8 size := by
  have hle : size ≤ alignUp 8 size := le_alignUp (by decide) size
  rw [padded, List.length_append, List.length_replicate, h]
  omega

section Lengths

variable (link : Link) (state : State)

@[simp] theorem length_sectionBytes (chunk : Chunk) : (sectionBytes state chunk).length = 80 := by
  simp [sectionBytes]

theorem length_segmentCommand (segname : List Byte) (place : SegmentPlace)
    (prot flags : ℕ) (sections : List Chunk) :
    (segmentCommand state segname place prot flags sections).length =
      72 + 80 * sections.length := by
  have hsections := length_flatMap_const (length_sectionBytes state) sections
  simp only [segmentCommand, List.length_append, length_u32, length_u64, length_char16, hsections]

@[simp] theorem length_infoRange (exists_ : Bool) (chunk : Chunk) :
    (infoRange state exists_ chunk).length = 8 := by
  unfold infoRange
  split <;> simp

@[simp] theorem length_linkEditDataCommand (type : ℕ) (chunk : Chunk) :
    (linkEditDataCommand state type chunk).length = 16 := by
  simp [linkEditDataCommand]

theorem length_createDyldInfoOnlyCmd : (createDyldInfoOnlyCmd link state).length = 48 := by
  simp [createDyldInfoOnlyCmd]

theorem length_createSymtabCmd : (createSymtabCmd state).length = 24 := by
  simp [createSymtabCmd]

theorem length_createDysymtabCmd : (createDysymtabCmd state).length = 80 := by
  simp [createDysymtabCmd]

theorem length_createUuidCmd : (createUuidCmd state).length = 24 := by
  simp [createUuidCmd]

theorem length_createMainCmd : (createMainCmd link state).length = 24 := by
  simp [createMainCmd]

theorem length_createDylinkerCmd : createDylinkerCmd.length = 32 := by
  rw [createDylinkerCmd, length_padded]
  · rfl
  · simp [ascii]

theorem length_createBuildVersionCmd : (createBuildVersionCmd link).length = 32 := by
  rw [createBuildVersionCmd, length_padded]
  · rfl
  · simp

theorem length_dylibCommand (type timestamp current compatibility : ℕ) (name : List Byte) :
    (dylibCommand type timestamp current compatibility name).length =
      alignUp 8 (24 + name.length + 1) := by
  apply length_padded
  simp
  omega

theorem length_stringCommand (type : ℕ) (name : List Byte) :
    (stringCommand type name).length = alignUp 8 (12 + name.length + 1) := by
  apply length_padded
  simp
  omega

end Lengths

/-! ## Sizes of commands -/

/-- A command of at least eight bytes with its length, as a `u32`, behind its type. -/
def WellFormed (cmd : List Byte) : Prop :=
  8 ≤ cmd.length ∧ readAt 4 cmd 4 = cmd.length % 2 ^ 32

theorem readAt_u32 (x : ℕ) (buf : List Byte) : readAt 4 (u32 x ++ buf) 0 = x % 2 ^ 32 := by
  have hread := readAt_le 4 (((x : ℤ) % 2 ^ 32).toNat) buf
  have hcast : ((x : ℤ) % 2 ^ 32).toNat = x % 2 ^ 32 := by omega
  rw [u32, hread, hcast]
  norm_num

theorem wellFormed_intro (type : ℤ) {rest : List Byte}
    (h : 8 + rest.length = size) : WellFormed (u32 type ++ (u32 size ++ rest)) := by
  have hlen : (u32 type ++ (u32 size ++ rest)).length = size := by
    simp only [List.length_append, length_u32]
    omega
  constructor
  · omega
  · rw [hlen, ← readAt_u32 size rest]
    exact readAt_skip 4 _ _ 4 0

theorem wellFormed_padded (type : ℤ) {rest : List Byte} (h : 8 + rest.length = size) :
    WellFormed (padded size (u32 type ++ (u32 (alignUp 8 size) ++ rest))) := by
  have hle : size ≤ alignUp 8 size := le_alignUp (by decide) size
  have hlen : (u32 type ++ (u32 (alignUp 8 size : ℕ) ++ rest)).length = size := by
    simp only [List.length_append, length_u32]
    omega
  rw [padded, hlen, List.append_assoc, List.append_assoc]
  apply wellFormed_intro
  rw [List.length_append, List.length_replicate]
  omega

section WellFormed

variable (link : Link) (state : State)

theorem wellFormed_segmentCommand (segname : List Byte) (place : SegmentPlace)
    (prot flags : ℕ) (sections : List Chunk) :
    WellFormed (segmentCommand state segname place prot flags sections) := by
  have hsections := length_flatMap_const (length_sectionBytes state) sections
  simp only [segmentCommand, List.append_assoc]
  apply wellFormed_intro 0x19
  simp only [List.length_append, length_u32, length_u64, length_char16, hsections]
  omega

theorem wellFormed_linkEditDataCommand (type : ℕ) (chunk : Chunk) :
    WellFormed (linkEditDataCommand state type chunk) := by
  simp only [linkEditDataCommand, List.append_assoc]
  exact wellFormed_intro type (by simp)

theorem wellFormed_dylibCommand (type timestamp current compatibility : ℕ) (name : List Byte) :
    WellFormed (dylibCommand type timestamp current compatibility name) := by
  simp only [dylibCommand, List.append_assoc]
  apply wellFormed_padded
  simp
  omega

theorem wellFormed_stringCommand (type : ℕ) (name : List Byte) :
    WellFormed (stringCommand type name) := by
  simp only [stringCommand, List.append_assoc]
  apply wellFormed_padded
  simp
  omega

theorem wellFormed_fixupCmds : ∀ cmd ∈ fixupCmds link state, WellFormed cmd := by
  intro cmd hcmd
  unfold fixupCmds at hcmd
  split at hcmd
  · rcases List.mem_cons.mp hcmd with rfl | hcmd
    · exact wellFormed_linkEditDataCommand state _ _
    · split at hcmd
      · rw [List.mem_singleton.mp hcmd]
        exact wellFormed_linkEditDataCommand state _ _
      · exact absurd hcmd List.not_mem_nil
  · rw [List.mem_singleton.mp hcmd]
    simp only [createDyldInfoOnlyCmd, List.append_assoc]
    exact wellFormed_intro 0x80000022 (by simp)

theorem wellFormed_dylibCmds (seen : List (List Byte)) (files : List DylibFile) :
    ∀ cmd ∈ dylibCmds link seen files, WellFormed cmd := by
  induction files generalizing seen with
  | nil => exact fun cmd hcmd => absurd hcmd List.not_mem_nil
  | cons file files ih =>
    intro cmd hcmd
    rw [dylibCmds] at hcmd
    split at hcmd
    · rcases List.mem_cons.mp hcmd with rfl | hcmd
      · exact wellFormed_dylibCommand _ _ _ _ _
      · exact ih _ cmd hcmd
    · exact ih _ cmd hcmd

theorem wellFormed_of_mem {cmd : List Byte} (hcmd : cmd ∈ createLoadCommands link state) :
    WellFormed cmd := by
  have hdylinker : WellFormed createDylinkerCmd := by
    simp only [createDylinkerCmd, List.append_assoc]
    exact wellFormed_padded 0xe rfl
  have hmain : WellFormed (createMainCmd link state) := by
    simp only [createMainCmd, List.append_assoc]
    exact wellFormed_intro 0x80000028 (by simp)
  have hsymtab : WellFormed (createSymtabCmd state) := by
    simp only [createSymtabCmd, List.append_assoc]
    exact wellFormed_intro 0x2 (by simp)
  have hdysymtab : WellFormed (createDysymtabCmd state) := by
    simp only [createDysymtabCmd, List.append_assoc]
    exact wellFormed_intro 0xb (by simp)
  have huuid : WellFormed (createUuidCmd state) := by
    simp only [createUuidCmd, List.append_assoc]
    exact wellFormed_intro 0x1b (by simp)
  have hbuild : WellFormed (createBuildVersionCmd link) := by
    simp only [createBuildVersionCmd, List.append_assoc]
    exact wellFormed_padded 0x32 (by simp)
  have hsource : WellFormed createSourceVersionCmd := by
    simp only [createSourceVersionCmd, List.append_assoc]
    exact wellFormed_intro 0x2a (by simp)
  simp only [createLoadCommands, List.mem_append] at hcmd
  rcases hcmd with (((((((((((h | h) | h) | h) | h) | h) | h) | h) | h) | h) | h) | h) | h
  · split at h
    · rw [List.mem_singleton.mp h]
      exact wellFormed_segmentCommand state _ _ _ _ _
    · exact absurd h List.not_mem_nil
  · obtain ⟨segname, -, rfl⟩ := List.mem_map.mp h
    exact wellFormed_segmentCommand state _ _ _ _ _
  · exact wellFormed_fixupCmds link state cmd h
  · rcases List.mem_pair.mp h with rfl | rfl
    · exact hsymtab
    · exact hdysymtab
  · split at h
    · rw [List.mem_singleton.mp h]
      exact huuid
    · exact absurd h List.not_mem_nil
  · rcases List.mem_pair.mp h with rfl | rfl
    · exact hbuild
    · exact hsource
  · split at h
    · rw [List.mem_singleton.mp h]
      exact wellFormed_linkEditDataCommand state _ _
    · exact absurd h List.not_mem_nil
  · exact wellFormed_dylibCmds link _ _ cmd h
  · obtain ⟨name, -, rfl⟩ := List.mem_map.mp h
    exact wellFormed_stringCommand _ _
  · split at h
    · rw [List.mem_singleton.mp h]
      exact wellFormed_linkEditDataCommand state _ _
    · exact absurd h List.not_mem_nil
  · split at h
    · rw [List.mem_singleton.mp h]
      exact wellFormed_stringCommand _ _
    · exact absurd h List.not_mem_nil
  · cases htype : link.outputType with
    | execute =>
      rw [typeCmds, htype] at h
      rcases List.mem_pair.mp h with rfl | rfl
      · exact hdylinker
      · exact hmain
    | dylib =>
      rw [typeCmds, htype] at h
      rw [List.mem_singleton.mp h]
      exact wellFormed_dylibCommand _ _ _ _ _
    | bundle =>
      rw [typeCmds, htype] at h
      exact absurd h List.not_mem_nil
  · split at h
    · rw [List.mem_singleton.mp h]
      exact wellFormed_linkEditDataCommand state _ _
    · exact absurd h List.not_mem_nil

end WellFormed

theorem readCommands_flatten {cmds : List (List Byte)} (hcmds : ∀ cmd ∈ cmds, WellFormed cmd)
    (hlen : cmds.flatten.length < 2 ^ 32) :
    readCommands cmds.length cmds.flatten = some (cmds, []) := by
  induction cmds with
  | nil => rfl
  | cons cmd cmds ih =>
    obtain ⟨hlow, hsize⟩ := hcmds cmd List.mem_cons_self
    rw [List.flatten_cons, List.length_append] at hlen
    have hread : readAt 4 (cmd ++ cmds.flatten) 4 = cmd.length := by
      rw [readAt_append_left _ hlow, hsize, Nat.mod_eq_of_lt (by omega)]
    have htail := ih (fun c hc => hcmds c (List.mem_cons_of_mem _ hc)) (by omega)
    rw [List.flatten_cons, List.length_cons, readCommands, hread, List.length_append,
      if_pos ⟨hlow, Nat.le_add_right _ _⟩, List.drop_left, List.take_left, htail]
    rfl

section Total

variable (link : Link)

theorem length_fixupCmds (state : State) :
    (fixupCmds link state).flatten.length + slack link state = 48 := by
  unfold fixupCmds slack
  split
  · split <;> simp [createDyldChainedFixups, createDyldExportsTrie]
  · simp [length_createDyldInfoOnlyCmd]

theorem slack_le (state : State) : slack link state ≤ 32 := by
  unfold slack
  split
  · split <;> decide
  · exact Nat.zero_le _

theorem length_dylibCmds (seen : List (List Byte)) (files : List DylibFile) :
    (dylibCmds link seen files).flatten.length =
      ((dylibNames seen files).map (stringSize 24)).sum := by
  induction files generalizing seen with
  | nil => rfl
  | cons file files ih =>
    unfold dylibCmds dylibNames
    split
    · rw [List.flatten_cons, List.length_append, ih, List.map_cons, List.sum_cons,
        createLoadDylibCmd, length_dylibCommand]
      rfl
    · exact ih seen

theorem length_flatten_map {α : Type*} {f : α → List Byte} {size : α → ℕ}
    (h : ∀ x, (f x).length = size x) (l : List α) :
    (l.map f).flatten.length = (l.map size).sum := by
  induction l with
  | nil => rfl
  | cons x l ih =>
    rw [List.map_cons, List.flatten_cons, List.length_append, ih, h, List.map_cons, List.sum_cons]

theorem length_typeCmds (state : State) :
    (typeCmds link state).flatten.length = typeSize link := by
  unfold typeCmds typeSize
  cases link.outputType with
  | execute => simp [length_createMainCmd, length_createDylinkerCmd]
  | dylib => simp [createIdDylibCmd, length_dylibCommand, stringSize]
  | bundle => rfl

theorem length_createLoadCommands (state : State) :
    (createLoadCommands link state).flatten.length + slack link state = commandsSize link := by
  have hone (b : Prop) [Decidable b] {c : List Byte} {n : ℕ} (h : c.length = n) :
      (if b then [c] else []).flatten.length = if b then n else 0 := by
    split <;> simp [h]
  have hpagezero : (createPagezeroCmd link state).length = 72 :=
    length_segmentCommand state _ _ _ _ _
  have hsegments : (link.segments.map (createSegmentCmd link state)).flatten.length = _ :=
    length_flatten_map (fun segname => length_segmentCommand state segname _ _ _ _) _
  have hfixups := length_fixupCmds link state
  have hsymtabs : [createSymtabCmd state, createDysymtabCmd state].flatten.length = 104 := by
    simp [length_createSymtabCmd, length_createDysymtabCmd]
  have hversions : [createBuildVersionCmd link, createSourceVersionCmd].flatten.length = 48 := by
    simp [length_createBuildVersionCmd, createSourceVersionCmd]
  have hstarts : (createFunctionStartsCmd state).length = 16 :=
    length_linkEditDataCommand _ _ _
  have hrpaths : (link.args.rpaths.map createRpathCmd).flatten.length =
      (link.args.rpaths.map (stringSize 12)).sum :=
    length_flatten_map (length_stringCommand _) _
  have hdata : (createDataInCodeCmd state).length = 16 := length_linkEditDataCommand _ _ _
  have hsub : (createSubFrameworkCmd link).length = stringSize 12 link.args.umbrella :=
    length_stringCommand _ _
  have hsig : (createCodeSignatureCmd state).length = 16 := length_linkEditDataCommand _ _ _
  simp only [createLoadCommands, List.flatten_append, List.length_append,
    hone _ hpagezero, hsegments, hsymtabs, hone _ (length_createUuidCmd state), hversions,
    hone _ hstarts, length_dylibCmds, hrpaths, hone _ hdata, hone _ hsub, length_typeCmds,
    hone _ hsig, commandsSize]
  omega

end Total

theorem length_copyBuf (link : Link) (state : State) :
    (copyBuf link state).length + slack link state = 32 + commandsSize link := by
  have hlen := length_createLoadCommands link state
  simp only [copyBuf, List.length_append, length_u32]
  omega

theorem eq_text_of_getRank {name : List Byte} (h : getRank name = 0) :
    name = ascii "__TEXT" := by
  unfold getRank at h
  split at h
  · assumption
  · split at h
    · exact absurd h (by decide)
    · split at h
      · exact absurd h (by decide)
      · split at h <;> exact absurd h (by decide)

theorem Link.exists_segments_eq (link : Link) :
    ∃ rest, link.segments = ascii "__TEXT" :: rest := by
  have hsorted := pairwise_mergeSort_key (fun x => toLex (getRank x, x)) link.segnames
  have hmem : ascii "__TEXT" ∈ link.segments :=
    List.mem_mergeSort.mpr (link.segname_mem _ link.machHdr_mem)
  change link.segments.Pairwise _ at hsorted
  cases hsegs : link.segments with
  | nil =>
    rw [hsegs] at hmem
    exact absurd hmem List.not_mem_nil
  | cons seg rest =>
    rw [hsegs] at hmem hsorted
    rcases List.mem_cons.mp hmem with rfl | hmem
    · exact ⟨rest, rfl⟩
    · have hle := (List.pairwise_cons.mp hsorted).1 _ hmem
      have htext : getRank (ascii "__TEXT") = 0 := if_pos rfl
      rw [Prod.Lex.toLex_le_toLex, htext] at hle
      have hrank : getRank seg = 0 := by omega
      exact ⟨rest, by rw [eq_text_of_getRank hrank]⟩

variable {link : Link}

theorem Run.chainedFixups_notMem (run : Run link) :
    Chunk.chainedFixups ∉ run.callsOf.flatten.takeWhile (fun c => decide (c ≠ .machHdr)) := by
  obtain ⟨rest, hsegs⟩ := link.exists_segments_eq
  have hspec := run.callsOf_spec
  have hne : ascii "__TEXT" ≠ ascii "__LINKEDIT" := by decide
  rw [hsegs, List.forall₂_cons_left_iff] at hspec
  obtain ⟨calls, parts, hcalls, -, hparts⟩ := hspec
  rw [CallsOf, if_neg hne] at hcalls
  have hhdr : Chunk.machHdr ∈ calls := by
    rw [hcalls]
    exact List.mem_filter.mpr ⟨link.machHdr_mem, by decide⟩
  have hfixups : Chunk.chainedFixups ∉ calls := by
    rw [hcalls]
    intro hmem
    have hname := (List.mem_filter.mp hmem).2
    exact absurd hname (by decide)
  have hshort : (calls.takeWhile (fun c => decide (c ≠ .machHdr))).length ≠ calls.length := by
    intro hlen
    have heq :=
      (List.takeWhile_prefix (fun c => decide (c ≠ Chunk.machHdr))).eq_of_length hlen
    have hall := List.takeWhile_eq_self_iff.mp heq _ hhdr
    exact absurd hall (by decide)
  rw [hparts, List.flatten_cons, List.takeWhile_append, if_neg hshort]
  exact fun hmem => hfixups ((List.takeWhile_sublist _).subset hmem)

theorem Run.slack_before (run : Run link) : slack link run.before = 0 := by
  rw [slack, run.not_computed run.chainedFixups_notMem]
  simp

theorem Run.length_before (run : Run link) :
    (createLoadCommands link run.before).flatten.length = commandsSize link := by
  rw [← length_createLoadCommands link run.before, run.slack_before, Nat.add_zero]

/-! ## When the commands fit -/

theorem copyBuf_eq (link : Link) (state : State) :
    ∃ front back, copyBuf link state = front ++
        (u32 (createLoadCommands link state).length ++
          (u32 (createLoadCommands link state).flatten.length ++ (back ++
            (createLoadCommands link state).flatten))) ∧
      front.length = 16 ∧ back.length = 8 := by
  refine ⟨u32 0xfeedfacf ++ u32 link.cputype ++ u32 link.cpusubtype ++
      u32 (filetype link.outputType), u32 (machFlags link state) ++ u32 0, ?_, by simp,
    by simp⟩
  simp only [copyBuf, List.append_assoc]

theorem readAt_ncmds (link : Link) (state : State) :
    readAt 4 (copyBuf link state) 16 = (createLoadCommands link state).length % 2 ^ 32 := by
  obtain ⟨front, back, heq, hfront, -⟩ := copyBuf_eq link state
  rw [heq, ← readAt_u32 _]
  exact readAt_append_right _ hfront 4 0

theorem readAt_sizeofcmds (link : Link) (state : State) :
    readAt 4 (copyBuf link state) 20 =
      (createLoadCommands link state).flatten.length % 2 ^ 32 := by
  obtain ⟨front, back, heq, hfront, -⟩ := copyBuf_eq link state
  rw [heq, readAt_append_right _ hfront 4 4, ← readAt_u32 _]
  exact readAt_skip 4 _ _ 4 0

theorem drop_copyBuf (link : Link) (state : State) :
    (copyBuf link state).drop 32 = (createLoadCommands link state).flatten := by
  simp only [copyBuf]
  exact drop_append_of_length _ (by simp)

theorem length_le_length_flatten {cmds : List (List Byte)}
    (hcmds : ∀ cmd ∈ cmds, WellFormed cmd) : cmds.length ≤ cmds.flatten.length := by
  induction cmds with
  | nil => exact Nat.le_refl _
  | cons cmd cmds ih =>
    have hlow := (hcmds cmd List.mem_cons_self).1
    have htail := ih fun c hc => hcmds c (List.mem_cons_of_mem _ hc)
    rw [List.length_cons, List.flatten_cons, List.length_append]
    omega

section Fits

variable {link : Link} (run : Run link)

theorem Run.fits_iff (hshort : commandsSize link < 2 ^ 32 + slack link run.after) :
    ((createLoadCommands link run.after).flatten.length : ℤ) ≤
        (computeSize link run.before : ℤ) - 32 ↔
      -(slack link run.after : ℤ) ≤ link.args.headerpad ∨
        link.args.headerpad < -(32 + (commandsSize link : ℤ)) := by
  have hlength := length_createLoadCommands link run.after
  have hslack := slack_le link run.after
  have hge := link.args.headerpad_ge
  have hlt := link.args.headerpad_lt
  have hsize : (computeSize link run.before : ℤ) =
      (32 + (commandsSize link : ℤ) + link.args.headerpad) % 2 ^ 64 := by
    rw [computeSize, Int.toNat_of_nonneg (Int.emod_nonneg _ (by decide)), run.length_before]
  rw [hsize]
  omega

theorem Run.CommandsFit.short {run : Run link} (h : run.CommandsFit) :
    commandsSize link < 2 ^ 32 + slack link run.after := by
  have hlength := length_createLoadCommands link run.after
  have hsizeof := h.sizeofcmds
  rw [readAt_sizeofcmds] at hsizeof
  omega

/-- The commands fit and the header describes them exactly if they are shorter than
4 GiB and the padding is not shorter than minus the slack, or so short that the size of
the header wraps around. -/
theorem Run.commandsFit_iff :
    run.CommandsFit ↔
      commandsSize link < 2 ^ 32 + slack link run.after ∧
        (-(slack link run.after : ℤ) ≤ link.args.headerpad ∨
          link.args.headerpad < -(32 + (commandsSize link : ℤ))) := by
  have hlength := length_createLoadCommands link run.after
  have hwell (cmd : List Byte) (h : cmd ∈ createLoadCommands link run.after) :=
    wellFormed_of_mem link run.after h
  constructor
  · intro h
    exact ⟨h.short, (run.fits_iff h.short).mp h.fits⟩
  · rintro ⟨hshort, hpad⟩
    have htotal : (createLoadCommands link run.after).flatten.length < 2 ^ 32 := by omega
    have hcount := length_le_length_flatten hwell
    have hncmds := readAt_ncmds link run.after
    rw [Nat.mod_eq_of_lt (by omega)] at hncmds
    refine ⟨(run.fits_iff hshort).mpr hpad, hncmds, ?_, ?_⟩
    · rw [readAt_sizeofcmds, Nat.mod_eq_of_lt htotal]
    · rw [hncmds, drop_copyBuf]
      exact readCommands_flatten hwell htotal

end Fits

/-- A bundle without sections that is linked with `-headerpad -10`. -/
def emptyBundle : Link where
  args :=
    { pagezeroSize := 0
      headerpad := -0x10
      headerpad_ge := by decide
      headerpad_lt := by decide
      uuid := .hash
      platform := 1
      platformMinVersion := 0
      platformSdkVersion := 0
      currentVersion := 0
      compatibilityVersion := 0
      stackSize := 0
      functionStarts := false
      dataInCodeInfo := false
      fixupChains := false
      adhocCodesign := false
      markDeadStrippableDylib := false
      applicationExtension := false
      umbrella := []
      finalOutput := ascii "a.bundle"
      rpaths := [] }
  cputype := 0x1000007
  cpusubtype := 3
  toolVersion := 0
  outputType := .bundle
  dylibs := []
  segnames := [ascii "__TEXT", ascii "__LINKEDIT"]
  chunks := [.machHdr, .export_, .symtab, .indirSymtab, .strtab]
  machHdr_mem := List.mem_cons_self
  segname_mem := by decide

theorem emptyBundle_segments :
    emptyBundle.segments = [ascii "__TEXT", ascii "__LINKEDIT"] := by
  apply List.mergeSort_of_pairwise
  decide

def emptyBundleRun : Run emptyBundle where
  callsOf := [[.machHdr], [.export_, .symtab, .indirSymtab, .strtab]]
  callsOf_spec := by
    rw [emptyBundle_segments]
    refine .cons ?_ (.cons ?_ .nil)
    · rw [CallsOf, if_neg (by decide)]
      decide
    · rw [CallsOf, if_pos rfl]
      exact ⟨[.export_, .symtab, .indirSymtab], .refl _, rfl⟩
  before := ⟨fun _ => ⟨0, 0, 0, 0⟩, fun _ => ⟨[], 0, 0, 0, 0, 0, 0, 0, 0, 0, 0, 0⟩, 0, 0, 0,
    fun _ => 0⟩
  after := ⟨fun _ => ⟨0, 0, 0, 0⟩, fun _ => ⟨[], 0, 0, 0, 0, 0, 0, 0, 0, 0, 0, 0⟩, 0, 0, 0,
    fun _ => 0⟩
  not_computed _ := rfl

/-- The commands do not fit if the padding is negative. -/
theorem emptyBundleRun_not_commandsFit : ¬ emptyBundleRun.CommandsFit := by
  intro h
  have hpad := (emptyBundleRun.fits_iff h.short).mp h.fits
  have hslack : slack emptyBundle emptyBundleRun.after = 0 := rfl
  have hheaderpad : emptyBundle.args.headerpad = -16 := rfl
  omega

end Mold.MachO.LoadCommands
