import Mathlib.Data.List.Induction

/-!
# Objective-C image info

`ObjcImageInfoSection::create` of `output-chunks.cc` merges the sections
`__objc_imageinfo` of the object files into one.  It is called after
`create_internal_file`, so the list of object files then ends with a file that the
linker has made itself, which has no such section.

The Swift versions are merged as they should be, in any order of the files.  The flag
for class properties of categories is on where all files of the list have it, so the
file at the end keeps it off in every link.
-/

namespace Mold.MachO.ObjcImageInfoSection

/-- Contents of a section `__objc_imageinfo`. -/
structure ObjcImageInfo where
  version : UInt32 := 0
  flags : UInt8 := 0
  swiftVersion : UInt8 := 0
  swiftLangVersion : UInt16 := 0
  deriving DecidableEq, Repr

def hasCategoryClassProperties : UInt8 := 64

structure ObjectFile where
  name : String
  objcImageInfo : Option ObjcImageInfo := none
  deriving DecidableEq, Repr

/-- The error "incompatible __objc_imageinfo swift version", with the version so far and
the version of the file. -/
structure SwiftVersionError where
  file : String
  swiftVersion : UInt8
  swiftVersion2 : UInt8
  deriving DecidableEq, Repr

def createInternalFile (objs : List ObjectFile) : List ObjectFile :=
  objs ++ [{ name := "<internal>" }]

def keptVersion (info info2 : ObjcImageInfo) : UInt8 :=
  if info.swiftVersion = 0 then info2.swiftVersion else info.swiftVersion

def merge (acc : ObjcImageInfo × List SwiftVersionError) (file : ObjectFile) :
    ObjcImageInfo × List SwiftVersionError :=
  match file.objcImageInfo with
  | none => acc
  | some info2 =>
    ({ acc.1 with
        swiftVersion := keptVersion acc.1 info2
        swiftLangVersion := max acc.1.swiftLangVersion info2.swiftLangVersion },
      if keptVersion acc.1 info2 ≠ info2.swiftVersion ∧ info2.swiftVersion ≠ 0 then
        acc.2 ++ [⟨file.name, keptVersion acc.1 info2, info2.swiftVersion⟩]
      else
        acc.2)

/-- The lambda `has_category_class`. -/
def hasCategoryClass (file : ObjectFile) : Bool :=
  match file.objcImageInfo with
  | some info => info.flags &&& hasCategoryClassProperties != 0
  | none => false

/-- `ObjcImageInfoSection::create` -/
def create (objs : List ObjectFile) : ObjcImageInfo × List SwiftVersionError :=
  let (info, errors) := objs.foldl merge ({}, [])
  if objs.all hasCategoryClass then
    ({ info with flags := info.flags ||| hasCategoryClassProperties }, errors)
  else
    (info, errors)

/-! ## What the first loop has merged -/

/-- The sections `__objc_imageinfo` of the files. -/
def infos (files : List ObjectFile) : List ObjcImageInfo :=
  files.filterMap ObjectFile.objcImageInfo

def Incompatible (l : List ObjcImageInfo) : Prop :=
  ∃ a ∈ l, ∃ b ∈ l, a.swiftVersion ≠ 0 ∧ b.swiftVersion ≠ 0 ∧ a.swiftVersion ≠ b.swiftVersion

/-- The greatest Swift language version, zero if there is none. -/
structure IsNewest (l : List ObjcImageInfo) (version : UInt16) : Prop where
  le : ∀ a ∈ l, a.swiftLangVersion ≤ version
  mem : version = 0 ∨ ∃ a ∈ l, a.swiftLangVersion = version

/-- The state of the first loop when the sections `l` have been merged. -/
structure Merged (l : List ObjcImageInfo) (acc : ObjcImageInfo × List SwiftVersionError) :
    Prop where
  flags : acc.1.flags = 0
  newest : IsNewest l acc.1.swiftLangVersion
  zero : acc.1.swiftVersion = 0 → ∀ a ∈ l, a.swiftVersion = 0
  kept : acc.1.swiftVersion ≠ 0 → ∃ a ∈ l, a.swiftVersion = acc.1.swiftVersion
  errors : acc.2 = [] ↔ ∀ a ∈ l, a.swiftVersion ≠ 0 → a.swiftVersion = acc.1.swiftVersion

variable {l : List ObjcImageInfo} {acc : ObjcImageInfo × List SwiftVersionError}

theorem merged_nil : Merged [] ({}, []) where
  flags := rfl
  newest := ⟨fun _ ha => absurd ha List.not_mem_nil, .inl rfl⟩
  zero _ _ ha := absurd ha List.not_mem_nil
  kept h := absurd rfl h
  errors := ⟨fun _ _ ha => absurd ha List.not_mem_nil, fun _ => rfl⟩

theorem IsNewest.concat {version : UInt16} (h : IsNewest l version) (info2 : ObjcImageInfo) :
    IsNewest (l ++ [info2]) (max version info2.swiftLangVersion) := by
  by_cases hle : version ≤ info2.swiftLangVersion
  · have hmax : max version info2.swiftLangVersion = info2.swiftLangVersion := if_pos hle
    rw [hmax]
    refine ⟨fun a ha => ?_, .inr ⟨info2, List.mem_concat_self, rfl⟩⟩
    rcases List.mem_append.mp ha with ha | ha
    · exact UInt16.le_trans (h.le a ha) hle
    · obtain rfl := List.mem_singleton.mp ha
      exact UInt16.le_refl _
  · have hmax : max version info2.swiftLangVersion = version := if_neg hle
    rw [hmax]
    constructor
    · intro a ha
      rcases List.mem_append.mp ha with ha | ha
      · exact h.le a ha
      · obtain rfl := List.mem_singleton.mp ha
        exact (UInt16.le_total _ _).resolve_left hle
    · rcases h.mem with hzero | ⟨a, ha, hv⟩
      · exact .inl hzero
      · exact .inr ⟨a, List.mem_append_left _ ha, hv⟩

theorem Merged.merge (h : Merged l acc) (file : ObjectFile) :
    Merged (l ++ file.objcImageInfo.toList) (merge acc file) := by
  cases hinfo : file.objcImageInfo with
  | none =>
    rw [ObjcImageInfoSection.merge, hinfo, Option.toList_none, List.append_nil]
    exact h
  | some info2 =>
    rw [ObjcImageInfoSection.merge, hinfo, Option.toList_some]
    dsimp only
    by_cases hzero : acc.1.swiftVersion = 0
    · have hkept : keptVersion acc.1 info2 = info2.swiftVersion := if_pos hzero
      have hnone : acc.2 = [] := h.errors.mpr fun a ha hne => absurd (h.zero hzero a ha) hne
      rw [hkept, if_neg (fun hne => hne.1 rfl)]
      refine ⟨h.flags, h.newest.concat info2, fun hzero2 a ha => ?_,
        fun _ => ⟨info2, List.mem_concat_self, rfl⟩, iff_of_true hnone fun a ha hne => ?_⟩
      · rcases List.mem_append.mp ha with ha | ha
        · exact h.zero hzero a ha
        · exact List.mem_singleton.mp ha ▸ hzero2
      · rcases List.mem_append.mp ha with ha | ha
        · exact absurd (h.zero hzero a ha) hne
        · exact List.mem_singleton.mp ha ▸ rfl
    · have hkept : keptVersion acc.1 info2 = acc.1.swiftVersion := if_neg hzero
      rw [hkept]
      refine ⟨h.flags, h.newest.concat info2, fun hzero' => absurd hzero' hzero, fun _ => ?_, ?_⟩
      · obtain ⟨a, ha, hv⟩ := h.kept hzero
        exact ⟨a, List.mem_append_left _ ha, hv⟩
      · dsimp only
        split
        case isTrue hne =>
          refine iff_of_false (List.concat_ne_nil _ _) fun hall => ?_
          exact hne.1 (hall info2 List.mem_concat_self hne.2).symm
        case isFalse hnot =>
          rw [h.errors, List.forall_mem_append, List.forall_mem_singleton, iff_self_and]
          intro _ hne
          by_contra heq
          exact hnot ⟨Ne.symm heq, hne⟩

theorem merged_foldl (files : List ObjectFile) :
    Merged (infos files) (files.foldl ObjcImageInfoSection.merge ({}, [])) := by
  induction files using List.reverseRecOn with
  | nil => exact merged_nil
  | append_singleton files file ih =>
    have hinfos : infos (files ++ [file]) = infos files ++ file.objcImageInfo.toList := by
      rw [infos, List.filterMap_append]
      cases hinfo : file.objcImageInfo with
      | none => rw [List.filterMap_cons_none hinfo, List.filterMap_nil, Option.toList_none]; rfl
      | some info =>
        rw [List.filterMap_cons_some hinfo, List.filterMap_nil, Option.toList_some]
        rfl
    rw [List.foldl_append, hinfos]
    exact ih.merge file

theorem Merged.errors_ne_nil_iff (h : Merged l acc) : acc.2 ≠ [] ↔ Incompatible l := by
  rw [ne_eq, h.errors]
  constructor
  · intro hnot
    push Not at hnot
    obtain ⟨a, ha, hne, hdiff⟩ := hnot
    have hkept : acc.1.swiftVersion ≠ 0 := fun hzero => hne (h.zero hzero a ha)
    obtain ⟨b, hb, hv⟩ := h.kept hkept
    exact ⟨a, ha, b, hb, hne, hv ▸ hkept, hv ▸ hdiff⟩
  · rintro ⟨a, ha, b, hb, hane, hbne, hdiff⟩ hall
    exact hdiff ((hall a ha hane).trans (hall b hb hbne).symm)

/-- The section that `create` makes of the object files says of them what it should. -/
structure MergesImageInfo (files : List ObjectFile) : Prop where
  categoryClass :
    (create (createInternalFile files)).1.flags &&& hasCategoryClassProperties ≠ 0 ↔
      ∀ file ∈ files, hasCategoryClass file
  newest : IsNewest (infos files) (create (createInternalFile files)).1.swiftLangVersion
  errors : (create (createInternalFile files)).2 ≠ [] ↔ Incompatible (infos files)

theorem create_createInternalFile (files : List ObjectFile) :
    create (createInternalFile files) = files.foldl merge ({}, []) := by
  have hall : (createInternalFile files).all hasCategoryClass = false := by
    rw [createInternalFile, List.all_append, List.all_cons, List.all_nil, Bool.and_true]
    exact Bool.and_false _
  rw [create, hall, createInternalFile, List.foldl_append]
  rfl

/-- The merged section is right where a file lacks the flag. -/
theorem mergesImageInfo_iff (files : List ObjectFile) :
    MergesImageInfo files ↔ ∃ file ∈ files, hasCategoryClass file = false := by
  have hmerged := merged_foldl files
  rw [← create_createInternalFile] at hmerged
  have hoff : (create (createInternalFile files)).1.flags &&& hasCategoryClassProperties = 0 := by
    rw [hmerged.flags, UInt8.zero_and]
  constructor
  · intro h
    by_contra hnone
    push Not at hnone
    refine h.categoryClass.mpr (fun file hfile => ?_) hoff
    exact Bool.not_eq_false _ ▸ hnone file hfile
  · rintro ⟨file, hfile, hlacks⟩
    refine ⟨iff_of_false (fun hne => hne hoff) fun hall => ?_, hmerged.newest,
      hmerged.errors_ne_nil_iff⟩
    have hhas := hall file hfile
    rw [hlacks] at hhas
    cases hhas

/-- One file that has the flag. -/
theorem not_mergesImageInfo_singleton :
    ¬ MergesImageInfo [{ name := "a.o", objcImageInfo := some { flags := 64 } }] := by
  intro h
  exact absurd h.categoryClass (by decide)

end Mold.MachO.ObjcImageInfoSection
