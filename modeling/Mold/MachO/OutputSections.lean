import Mold.MachO.WeakDefinitions

/-!
# Members of output sections

`createOutputSections` is the part of `create_synthetic_chunks` that fills the
output sections.  The subsections named by `-order_file` are added first, then
the ones in the lists of the object files, from which dead stripping and the
elimination of weak definitions have taken the dead ones.

An ordered symbol is added without a look at `is_alive`.  So the output
sections consist of exactly the live subsections if and only if everything
that `-order_file` names is needed.  Here needed means being in every closed
set under `-dead_strip`, and holding no overridden weak definition otherwise.
-/

namespace Mold.MachO.Subsections

open DeadStrip

variable {τ σ ω : Type*}

/-! ## Output sections -/

/-- The part of an output section that `add_subsec` changes. -/
structure OutputSection (σ : Type*) where
  members : List σ := []
  p2align : ℕ := 0
  attr : ℕ := 0
  type : ℕ := 0

/-- All output sections and the flags `added_to_osec`. -/
structure OutputState (σ ω : Type*) where
  osec : ω → OutputSection σ
  addedToOsec : σ → Bool

/-- A link with the options that decide what goes to the output sections.
`osecOf` is `isec->osec` of a subsection. -/
structure OutputLink (τ σ ω : Type*) extends Link τ σ where
  deadStripArg : Bool
  orderFile : List τ
  osecOf : σ → ω
  p2align : σ → ℕ

theorem foldl_addedToOsec {α : Type*} {f : OutputState σ ω → α → OutputState σ ω}
    {adds : α → σ → Prop}
    (hf : ∀ st x t, (f st x).addedToOsec t = true ↔ st.addedToOsec t = true ∨ adds x t)
    (st : OutputState σ ω) (xs : List α) (t : σ) :
    (xs.foldl f st).addedToOsec t = true ↔ st.addedToOsec t = true ∨ ∃ x ∈ xs, adds x t := by
  induction xs generalizing st with
  | nil => simp
  | cons x xs ih => simp [ih, hf, or_assoc]

namespace OutputLink

variable (link : OutputLink τ σ ω)

def orderTarget (name : τ) : Option σ :=
  match (link.sym name).file with
  | none => none
  | some _ => (link.sym name).subsec

def Needed (s : σ) : Prop :=
  if link.deadStripArg = true then
    ∀ S : Set σ, link.Closed S → s ∈ S
  else
    ∀ file ∈ link.objs, ¬ link.HoldsOverridden file s

def OrderFileNeeded : Prop :=
  ∀ name ∈ link.orderFile, ∀ s ∈ link.orderTarget name,
    link.Needed s ∧ ∃ file ∈ link.objs, s ∈ file.subsections

/-! ## What elimination leaves -/

structure LeavesNeeded (link : OutputLink τ σ ω) (after : Eliminated σ) : Prop where
  isAlive_iff : ∀ s, after.isAlive s = true ↔ link.Needed s
  mem_iff : ∀ s, s ∈ after.subsections.flatten ↔
    after.isAlive s = true ∧ ∃ file ∈ link.objs, s ∈ file.subsections

section Eliminating

variable [DecidableEq σ]

/-- The pass that eliminates subsections: dead stripping, or without the option
the elimination of weak definitions. -/
def eliminate [Fintype σ] (sched : Schedule link.toContext) : Option (Eliminated σ) :=
  if link.deadStripArg then
    (link.deadStrip sched).map fun result =>
      { isAlive := fun s => decide (s ∈ result.live)
        subsections := result.objs.map Prod.snd }
  else
    some link.removeUnreferencedSubsections

variable {link}

theorem leavesNeeded_removeUnreferencedSubsections (harg : link.deadStripArg = false) :
    link.LeavesNeeded link.removeUnreferencedSubsections := by
  have halive : ∀ s, link.removeUnreferencedSubsections.isAlive s = true ↔
      ∀ file ∈ link.objs, ¬ link.HoldsOverridden file s := by
    intro s
    rw [← Bool.not_eq_false, Link.isAlive_eq_false_iff]
    push Not
    rfl
  constructor
  · intro s
    rw [halive, Needed, if_neg (by simp [harg])]
  · intro s
    rw [halive]
    simp only [Link.removeUnreferencedSubsections, List.mem_flatten,
      List.mem_map, exists_exists_and_eq_and, List.mem_filter,
      Bool.not_eq_true', decide_eq_false_iff_not, Link.mem_killedBy]
    constructor
    · rintro ⟨file, hfile, hs, hkept⟩
      refine ⟨?_, file, hfile, hs⟩
      intro other hother hover
      have hmem := hover.mem_subsections hother
      rw [Link.file_unique hother hfile hmem hs] at hover
      exact hkept hover
    · rintro ⟨hkept, file, hfile, hs⟩
      exact ⟨file, hfile, hs, hkept file hfile⟩

theorem leavesNeeded_deadStrip [Fintype σ] (sched : Schedule link.toContext)
    (harg : link.deadStripArg = true) :
    ∃ result, link.deadStrip sched = some result ∧
      link.LeavesNeeded
        { isAlive := fun s => decide (s ∈ result.live)
          subsections := result.objs.map Prod.snd } := by
  obtain ⟨result, hresult, hleast, hobjs, -⟩ := Context.deadStrip_isLeast sched
  refine ⟨result, hresult, ?_, ?_⟩
  · intro s
    rw [Needed, if_pos harg, decide_eq_true_iff]
    constructor
    · exact fun hs S hS => hleast.2 hS hs
    · exact fun h => h _ hleast.1
  · intro s
    rw [hobjs]
    simp only [List.mem_flatten, List.mem_map, exists_exists_and_eq_and,
      List.mem_filter, decide_eq_true_iff]
    constructor
    · rintro ⟨file, hfile, hs, hlive⟩
      exact ⟨hlive, file, hfile, hs⟩
    · rintro ⟨hlive, file, hfile, hs⟩
      exact ⟨file, hfile, hs, hlive⟩

end Eliminating

section Adding

variable [DecidableEq σ] [DecidableEq ω]

def addSubsec (st : OutputState σ ω) (s : σ) : OutputState σ ω :=
  let osec := st.osec (link.osecOf s)
  { osec := Function.update st.osec (link.osecOf s)
      { members := osec.members ++ [s]
        p2align := max osec.p2align (link.p2align s)
        attr := osec.attr ||| (link.subsec s).hdr.attr
        type := (link.subsec s).hdr.type }
    addedToOsec := Function.update st.addedToOsec s true }

def addNew (st : OutputState σ ω) (s : σ) : OutputState σ ω :=
  if st.addedToOsec s then st else link.addSubsec st s

def addOrdered (st : OutputState σ ω) (name : τ) : OutputState σ ω :=
  match link.orderTarget name with
  | none => st
  | some s => link.addNew st s

/-- The output sections as `create_synthetic_chunks` fills them. -/
def createOutputSections (after : Eliminated σ) : OutputState σ ω :=
  after.subsections.flatten.foldl link.addNew
    (link.orderFile.foldl link.addOrdered
      { osec := fun _ => {}, addedToOsec := fun _ => false })

/-- The members of the output sections are the live subsections of the files,
each of them once and in its own output section. -/
def MembersExact (after : Eliminated σ) : Prop :=
  ∀ o s, ((link.createOutputSections after).osec o).members.count s =
    if after.isAlive s = true ∧ (∃ file ∈ link.objs, s ∈ file.subsections) ∧
        link.osecOf s = o then 1 else 0

/-! ## Adding a list of subsections -/

variable {link}

/-- Every subsection that is marked as added is in its output section once, and
no other one is anywhere. -/
def AddedOnce (link : OutputLink τ σ ω) (st : OutputState σ ω) : Prop :=
  ∀ o s, (st.osec o).members.count s =
    if st.addedToOsec s = true ∧ link.osecOf s = o then 1 else 0

variable {st : OutputState σ ω}

theorem addNew_addedToOsec {s t : σ} :
    (link.addNew st s).addedToOsec t = true ↔ st.addedToOsec t = true ∨ t = s := by
  rw [addNew]
  split
  · next hadded =>
      constructor
      · exact Or.inl
      · rintro (h | rfl)
        · exact h
        · exact hadded
  · by_cases hts : t = s
    · simp [addSubsec, hts]
    · simp [addSubsec, hts]

theorem AddedOnce.addNew (h : link.AddedOnce st) (s : σ) : link.AddedOnce (link.addNew st s) := by
  rw [OutputLink.addNew]
  split
  · exact h
  · next hnew =>
      intro o t
      have hold := h o t
      by_cases ho : o = link.osecOf s
      · subst ho
        by_cases hts : t = s
        · subst hts
          simp [addSubsec, hold, hnew]
        · have hne : s ≠ t := fun heq => hts heq.symm
          simp [addSubsec, hold, hts, hne]
      · by_cases hts : t = s
        · subst hts
          have hne : link.osecOf t ≠ o := fun heq => ho heq.symm
          simp [addSubsec, ho, hold, hne]
        · simp [addSubsec, ho, hold, hts]

theorem addOrdered_addedToOsec {name : τ} {t : σ} :
    (link.addOrdered st name).addedToOsec t = true ↔
      st.addedToOsec t = true ∨ link.orderTarget name = some t := by
  rw [addOrdered]
  split
  · next hnone => simp [hnone]
  · next s hs => rw [addNew_addedToOsec, hs, Option.some_inj, eq_comm (a := s)]

theorem AddedOnce.addOrdered (h : link.AddedOnce st)
    (name : τ) : link.AddedOnce (link.addOrdered st name) := by
  rw [OutputLink.addOrdered]
  split
  · exact h
  · exact h.addNew _

theorem AddedOnce.foldl {α : Type*} {f : OutputState σ ω → α → OutputState σ ω}
    (hf : ∀ st x, link.AddedOnce st → link.AddedOnce (f st x))
    (h : link.AddedOnce st) (xs : List α) :
    link.AddedOnce (xs.foldl f st) := by
  induction xs generalizing st with
  | nil => exact h
  | cons x xs ih => exact ih (hf st x h)

theorem createOutputSections_addedOnce (after : Eliminated σ) :
    link.AddedOnce (link.createOutputSections after) := by
  apply AddedOnce.foldl fun st s h => h.addNew s
  apply AddedOnce.foldl fun st name h => h.addOrdered name
  intro o s
  simp

theorem createOutputSections_addedToOsec (after : Eliminated σ) (t : σ) :
    (link.createOutputSections after).addedToOsec t = true ↔
      (∃ name ∈ link.orderFile, link.orderTarget name = some t) ∨
        t ∈ after.subsections.flatten := by
  have hnew : ∀ st x t, (link.addNew st x).addedToOsec t = true ↔
      st.addedToOsec t = true ∨ t = x :=
    fun st x t => addNew_addedToOsec
  have hordered : ∀ st x t, (link.addOrdered st x).addedToOsec t = true ↔
      st.addedToOsec t = true ∨ link.orderTarget x = some t :=
    fun st x t => addOrdered_addedToOsec
  rw [createOutputSections, foldl_addedToOsec hnew, foldl_addedToOsec hordered]
  simp

theorem membersExact_iff_of_leavesNeeded {after : Eliminated σ} (h : link.LeavesNeeded after) :
    link.MembersExact after ↔ link.OrderFileNeeded := by
  have hadded := link.createOutputSections_addedOnce after
  have hmem : ∀ s, (link.createOutputSections after).addedToOsec s = true ↔
      (∃ name ∈ link.orderFile, link.orderTarget name = some s) ∨ s ∈ after.subsections.flatten :=
    createOutputSections_addedToOsec after
  constructor
  · intro hexact name hname s hs
    have hmarked : (link.createOutputSections after).addedToOsec s = true :=
      (hmem s).mpr (Or.inl ⟨name, hname, hs⟩)
    have hcount := hexact (link.osecOf s) s
    rw [hadded, if_pos ⟨hmarked, rfl⟩] at hcount
    by_contra hneeded
    rw [if_neg] at hcount
    · exact absurd hcount (by decide)
    · rintro ⟨halive, hlisted, -⟩
      exact hneeded ⟨(h.isAlive_iff s).mp halive, hlisted⟩
  · intro hneeded o s
    rw [hadded]
    congr 1
    rw [eq_iff_iff, ← and_assoc, ← h.mem_iff, hmem]
    constructor
    · rintro ⟨⟨name, hname, hs⟩ | hs, ho⟩
      · obtain ⟨hneed, hlisted⟩ := hneeded name hname s hs
        exact ⟨(h.mem_iff s).mpr ⟨(h.isAlive_iff s).mpr hneed, hlisted⟩, ho⟩
      · exact ⟨hs, ho⟩
    · rintro ⟨hs, ho⟩
      exact ⟨Or.inr hs, ho⟩

/-- Under every schedule, the elimination ends, and the output sections have
exactly the live subsections as members if and only if everything that the
order file names is needed. -/
theorem membersExact_iff_orderFileNeeded [Fintype σ] (link : OutputLink τ σ ω)
    (sched : Schedule link.toContext) :
    ∃ after, link.eliminate sched = some after ∧
      (link.MembersExact after ↔ link.OrderFileNeeded) := by
  cases harg : link.deadStripArg with
  | false =>
    refine ⟨link.removeUnreferencedSubsections, by simp [eliminate, harg], ?_⟩
    exact membersExact_iff_of_leavesNeeded (leavesNeeded_removeUnreferencedSubsections harg)
  | true =>
    obtain ⟨result, hresult, hleaves⟩ := leavesNeeded_deadStrip sched harg
    exact ⟨_, by simp [eliminate, harg, hresult], membersExact_iff_of_leavesNeeded hleaves⟩

end Adding

end OutputLink

/-- An executable of one file with the functions `_main` and `_unused`, linked
with `-dead_strip` and an order file that names `_unused`. -/
def strippedLink : OutputLink String (Fin 2) Unit where
  outputType := .execute
  u := []
  entry := some "_main"
  stubHelper := false
  dyldStubBinder := "dyld_stub_binder"
  sym name :=
    if name = "_main" then
      { file := some (.obj 0), subsec := some 0 }
    else if name = "_unused" then
      { file := some (.obj 0), subsec := some 1 }
    else
      {}
  subsec _ := { hdr := { type := 0, attr := 0 }, rels := [], unwindRecords := [] }
  objs := [{
    file := .obj 0, syms := ["_main", "_unused"], initFunctions := [],
    subsections := [0, 1], cies := [] }]
  internalObj := none
  table _ := { subsectionsViaSymbols := true, machSyms := [] }
  inputAddr s := s.val.toUInt32 * 4
  isLocal _ := false
  subsections_nodup := by decide
  symToSubsec_mem := by decide
  deadStripArg := true
  orderFile := ["_unused"]
  osecOf _ := ()
  p2align _ := 2

def strippedLinkSchedule : Schedule strippedLink.toContext where
  roots := strippedLink.collectRootSet
  round _ := strippedLink.objs
  roots_perm := List.Perm.refl _
  round_perm _ := List.Perm.refl _

/-- The stripped function is a member of its output section. -/
theorem strippedLink_not_membersExact :
    ∃ after, strippedLink.eliminate strippedLinkSchedule = some after ∧
      ¬ strippedLink.MembersExact after := by
  refine ⟨_, rfl, ?_⟩
  intro h
  exact absurd (h () 1) (by decide)

end Mold.MachO.Subsections
