import Mold.MachO.LiteralsMerge

/-!
# The parallel insertions of literals

In `uniquify_literals` every member of a section is inserted by a task of its
own, and the tasks race for the entries of the hash table.  An entry is seeded
by the first task that comes, and another member takes it over if its file has
a higher priority.  Members of one file are equal for this comparison, so the
result is one for all interleavings exactly if no contents occur twice in the
file of the highest priority that has them.
-/

namespace Mold.MachO.Literals

open Mold.Lib

variable {τ σ ι κ : Type*}

/-! ## Tasks -/

structure Entry (σ : Type*) where
  owner : σ
  p2align : ℕ := 0

/-- Where a task is: in front of `map.insert`, in front of the load of the owner,
in front of a comparison with an owner that it has read, and likewise in
`update_maximum`. -/
inductive Task (σ : Type*) where
  | insert
  | loadOwner
  | challenge (existing : σ)
  | loadP2align
  | raise (oldVal : ℕ)
  | finished

structure Insertion (σ κ : Type*) where
  entry : κ → Option (Entry σ)
  task : σ → Task σ

/-- A state before merging with the alignments of the subsections. -/
structure AlignedContext (τ σ ι κ : Type*) extends Context τ σ ι κ where
  p2align : σ → ℕ

namespace AlignedContext

variable [DecidableEq σ] [DecidableEq κ] (C : AlignedContext τ σ ι κ)

/-- `get_contents` -/
def contents (s : σ) : κ := (C.subsec s).contents

/-- `isec->file.priority` -/
def priority (s : σ) : ℕ := (C.subsec s).filePriority

def store (table : Insertion σ κ) (s : σ) (e : Entry σ) : Insertion σ κ :=
  { table with entry := Function.update table.entry (C.contents s) (some e) }

def goOn (table : Insertion σ κ) (s : σ) (t : Task σ) : Insertion σ κ :=
  { table with task := Function.update table.task s t }

/-- One step of the task of a member.  While a new entry is written the other tasks
wait for it, so `insert` is one step.  A weak exchange may fail for no reason. -/
inductive Step (table : Insertion σ κ) (s : σ) : Insertion σ κ → Prop
  | insert (ht : table.task s = .insert) (he : table.entry (C.contents s) = none) :
      Step table s (goOn (C.store table s { owner := s }) s .loadOwner)
  | find (ht : table.task s = .insert) {e : Entry σ} (he : table.entry (C.contents s) = some e) :
      Step table s (goOn table s .loadOwner)
  | loadOwner (ht : table.task s = .loadOwner) {e : Entry σ}
      (he : table.entry (C.contents s) = some e) :
      Step table s (goOn table s (.challenge e.owner))
  | keep {existing : σ} (ht : table.task s = .challenge existing)
      (hlt : ¬ C.priority existing < C.priority s) :
      Step table s (goOn table s .loadP2align)
  | exchange {existing : σ} (ht : table.task s = .challenge existing)
      (hlt : C.priority existing < C.priority s) {e : Entry σ}
      (he : table.entry (C.contents s) = some e) (hsame : e.owner = existing) :
      Step table s (goOn (C.store table s { e with owner := s }) s .loadP2align)
  | retry {existing : σ} (ht : table.task s = .challenge existing)
      (hlt : C.priority existing < C.priority s) {e : Entry σ}
      (he : table.entry (C.contents s) = some e) :
      Step table s (goOn table s (.challenge e.owner))
  | loadP2align (ht : table.task s = .loadP2align) {e : Entry σ}
      (he : table.entry (C.contents s) = some e) :
      Step table s (goOn table s (.raise e.p2align))
  | keepP2align {oldVal : ℕ} (ht : table.task s = .raise oldVal) (hlt : ¬ oldVal < C.p2align s) :
      Step table s (goOn table s .finished)
  | exchangeP2align {oldVal : ℕ} (ht : table.task s = .raise oldVal)
      (hlt : oldVal < C.p2align s) {e : Entry σ}
      (he : table.entry (C.contents s) = some e) (hsame : e.p2align = oldVal) :
      Step table s (goOn (C.store table s { e with p2align := C.p2align s }) s .finished)
  | retryP2align {oldVal : ℕ} (ht : table.task s = .raise oldVal)
      (hlt : oldVal < C.p2align s) {e : Entry σ}
      (he : table.entry (C.contents s) = some e) :
      Step table s (goOn table s (.raise e.p2align))

def start : Insertion σ κ where
  entry _ := none
  task _ := .insert

def Reaches (osec : OutputSection σ) : Insertion σ κ → Insertion σ κ → Prop :=
  Relation.ReflTransGen fun table table' => ∃ s ∈ osec.members, C.Step table s table'

structure Run (osec : OutputSection σ) (table : Insertion σ κ) : Prop where
  reaches : C.Reaches osec start table
  finished : ∀ s ∈ osec.members, table.task s = .finished

/-- The second loop: a member that does not own its entry is replaced. -/
def replacement (table : Insertion σ κ) (s : σ) : Option σ :=
  match table.entry (C.contents s) with
  | none => none
  | some e => if s = e.owner then none else some e.owner

def kept (osec : OutputSection σ) (table : Insertion σ κ) : List σ :=
  osec.members.filter fun s => (C.replacement table s).isNone

/-- Any two runs replace the same members by the same owners, and leave the same
list of members. -/
def Deterministic (osec : OutputSection σ) : Prop :=
  ∀ table table', C.Run osec table → C.Run osec table' →
    (∀ s ∈ osec.members, C.replacement table s = C.replacement table' s) ∧
      C.kept osec table = C.kept osec table'

structure Top (osec : OutputSection σ) (s : σ) : Prop where
  mem : s ∈ osec.members
  highest : ∀ t ∈ osec.members, C.contents t = C.contents s → C.priority t ≤ C.priority s

/-- No contents occur twice in the file of the highest priority. -/
def UniqueTops (osec : OutputSection σ) : Prop :=
  ∀ s t, C.Top osec s → C.Top osec t → C.contents s = C.contents t → s = t

/-! ## What runs keep -/

variable {C} {osec : OutputSection σ} {table table' : Insertion σ κ} {s : σ}

/-- The entry of some contents is owned by a member with the contents whose
priority is not lower than `n`. -/
def OwnedFrom (C : AlignedContext τ σ ι κ) (osec : OutputSection σ)
    (entry : κ → Option (Entry σ)) (c : κ) (n : ℕ) : Prop :=
  ∃ e, entry c = some e ∧ e.owner ∈ osec.members ∧ C.contents e.owner = c ∧ n ≤ C.priority e.owner

def Done (C : AlignedContext τ σ ι κ) (osec : OutputSection σ)
    (entry : κ → Option (Entry σ)) (s : σ) : Task σ → Prop
  | .insert => True
  | .loadOwner => C.OwnedFrom osec entry (C.contents s) 0
  | .challenge existing => C.OwnedFrom osec entry (C.contents s) (C.priority existing)
  | .loadP2align | .raise _ | .finished =>
    C.OwnedFrom osec entry (C.contents s) (C.priority s)

structure Invariant (C : AlignedContext τ σ ι κ) (osec : OutputSection σ)
    (table : Insertion σ κ) : Prop where
  owned : ∀ c e, table.entry c = some e → C.OwnedFrom osec table.entry c 0
  done : ∀ s ∈ osec.members, C.Done osec table.entry s (table.task s)

omit [DecidableEq σ] [DecidableEq κ] in
theorem invariant_start : C.Invariant osec start where
  owned c e h := by cases h
  done s _ := trivial

omit [DecidableEq σ] [DecidableEq κ] in
theorem OwnedFrom.mono {entry : κ → Option (Entry σ)} {c : κ} {m n : ℕ}
    (h : C.OwnedFrom osec entry c n) (hle : m ≤ n) : C.OwnedFrom osec entry c m := by
  obtain ⟨e, he, hmem, hc, hn⟩ := h
  exact ⟨e, he, hmem, hc, hle.trans hn⟩

variable {t : Task σ}

omit [DecidableEq σ] [DecidableEq κ] in
theorem Done.grow {entry entry' : κ → Option (Entry σ)} (h : C.Done osec entry s t)
    (hgrow : ∀ c n, C.OwnedFrom osec entry c n → C.OwnedFrom osec entry' c n) :
    C.Done osec entry' s t := by
  cases t with
  | insert => trivial
  | loadOwner => exact hgrow _ _ h
  | challenge existing => exact hgrow _ _ h
  | loadP2align => exact hgrow _ _ h
  | raise oldVal => exact hgrow _ _ h
  | finished => exact hgrow _ _ h

omit [DecidableEq κ] in
theorem Invariant.goOn (h : C.Invariant osec table)
    (hdone : C.Done osec table.entry s t) : C.Invariant osec (goOn table s t) where
  owned := h.owned
  done r hr := by
    by_cases hrs : r = s
    · subst hrs
      simpa only [AlignedContext.goOn, Function.update_self] using hdone
    · simpa only [AlignedContext.goOn, Function.update_of_ne hrs] using h.done r hr

variable {e : Entry σ}

omit [DecidableEq σ] in
theorem Invariant.store (h : C.Invariant osec table)
    (hmem : e.owner ∈ osec.members) (hcontents : C.contents e.owner = C.contents s)
    (hle : ∀ n, C.OwnedFrom osec table.entry (C.contents s) n → n ≤ C.priority e.owner) :
    C.Invariant osec (C.store table s e) := by
  have hnew {n : ℕ} (hn : n ≤ C.priority e.owner) :
      C.OwnedFrom osec (C.store table s e).entry (C.contents s) n :=
    ⟨e, Function.update_self _ _ _, hmem, hcontents, hn⟩
  have hgrow : ∀ c n, C.OwnedFrom osec table.entry c n →
      C.OwnedFrom osec (C.store table s e).entry c n := by
    intro c n hc
    by_cases heq : c = C.contents s
    · subst heq
      exact hnew (hle n hc)
    · obtain ⟨e', he', hfacts⟩ := hc
      exact ⟨e', (Function.update_of_ne heq _ _).trans he', hfacts⟩
  constructor
  · intro c e' he'
    by_cases heq : c = C.contents s
    · subst heq
      exact hnew (Nat.zero_le _)
    · have hold : table.entry c = some e' := (Function.update_of_ne heq _ _).symm.trans he'
      exact hgrow c 0 (h.owned c e' hold)
  · exact fun r hr => (h.done r hr).grow hgrow

omit [DecidableEq σ] [DecidableEq κ] in
theorem OwnedFrom.le {entry : κ → Option (Entry σ)} {c : κ} {n : ℕ}
    (h : C.OwnedFrom osec entry c n) (he : entry c = some e) :
    e.owner ∈ osec.members ∧ C.contents e.owner = c ∧ n ≤ C.priority e.owner := by
  obtain ⟨e', he', hfacts⟩ := h
  obtain rfl := Option.some.inj (he.symm.trans he')
  exact hfacts

theorem Invariant.step (h : C.Invariant osec table) (hs : s ∈ osec.members)
    (hstep : C.Step table s table') : C.Invariant osec table' := by
  have hdone := h.done s hs
  cases hstep with
  | insert ht he =>
    have hstore : C.Invariant osec (C.store table s { owner := s }) := by
      refine h.store hs rfl fun n hn => ?_
      obtain ⟨e, he', -⟩ := hn
      rw [he] at he'
      cases he'
    refine hstore.goOn ?_
    exact hstore.owned _ _ (Function.update_self _ _ _)
  | find ht he => exact h.goOn (h.owned _ _ he)
  | @loadOwner ht e he =>
    obtain ⟨hmem, hc, -⟩ := (h.owned _ _ he).le he
    exact h.goOn ⟨e, he, hmem, hc, le_refl _⟩
  | keep ht hlt =>
    rw [ht] at hdone
    exact h.goOn (OwnedFrom.mono hdone (not_lt.mp hlt))
  | @exchange existing ht hlt e he hsame =>
    have hstore : C.Invariant osec (C.store table s { e with owner := s }) := by
      refine h.store hs rfl fun n hn => ?_
      have hle := (hn.le he).2.2
      rw [hsame] at hle
      exact hle.trans hlt.le
    refine hstore.goOn ?_
    exact ⟨_, Function.update_self _ _ _, hs, rfl, le_refl _⟩
  | @retry existing ht hlt e he =>
    obtain ⟨hmem, hc, -⟩ := (h.owned _ _ he).le he
    exact h.goOn ⟨e, he, hmem, hc, le_refl _⟩
  | loadP2align ht he =>
    rw [ht] at hdone
    exact h.goOn hdone
  | keepP2align ht hlt =>
    rw [ht] at hdone
    exact h.goOn hdone
  | @exchangeP2align oldVal ht hlt e he hsame =>
    rw [ht] at hdone
    obtain ⟨hmem, hc, hle⟩ := OwnedFrom.le hdone he
    have hstore : C.Invariant osec (C.store table s { e with p2align := C.p2align s }) :=
      h.store hmem hc fun n hn => (hn.le he).2.2
    refine hstore.goOn ?_
    exact ⟨_, Function.update_self _ _ _, hmem, hc, hle⟩
  | retryP2align ht hlt he =>
    rw [ht] at hdone
    exact h.goOn hdone

theorem invariant_of_reaches (h : C.Reaches osec start table) : C.Invariant osec table := by
  induction h with
  | refl => exact invariant_start
  | tail _ hstep ih =>
    obtain ⟨s, hs, hstep⟩ := hstep
    exact ih.step hs hstep

theorem Run.owner (h : C.Run osec table) (hs : s ∈ osec.members) :
    ∃ e, table.entry (C.contents s) = some e ∧ C.contents e.owner = C.contents s ∧
      C.Top osec e.owner := by
  have hinv := invariant_of_reaches h.reaches
  have hfinished {r : σ} (hr : r ∈ osec.members) :
      C.OwnedFrom osec table.entry (C.contents r) (C.priority r) := by
    have hdone := hinv.done r hr
    rw [h.finished r hr] at hdone
    exact hdone
  obtain ⟨e, he, hmem, hc, -⟩ := hfinished hs
  refine ⟨e, he, hc, hmem, fun t ht hct => ?_⟩
  rw [hc] at hct
  exact ((hfinished ht).le (hct ▸ he)).2.2

theorem Run.replacement_eq (h : C.Run osec table) (hs : s ∈ osec.members) :
    ∃ o, C.contents o = C.contents s ∧ C.Top osec o ∧
      C.replacement table s = if s = o then none else some o := by
  obtain ⟨e, he, hc, htop⟩ := h.owner hs
  refine ⟨e.owner, hc, htop, ?_⟩
  rw [replacement, he]

theorem deterministic_of_uniqueTops (h : C.UniqueTops osec) : C.Deterministic osec := by
  intro table table' hrun hrun'
  have hsame : ∀ s ∈ osec.members, C.replacement table s = C.replacement table' s := by
    intro s hs
    obtain ⟨o, hc, htop, ho⟩ := hrun.replacement_eq hs
    obtain ⟨o', hc', htop', ho'⟩ := hrun'.replacement_eq hs
    rw [ho, ho', h o o' htop htop' (hc.trans hc'.symm)]
  refine ⟨hsame, List.filter_congr fun s hs => ?_⟩
  rw [hsame s hs]

/-! ## One task after another -/

def owners (table : Insertion σ κ) (c : κ) : Option σ := (table.entry c).map Entry.owner

structure RunsAlone (C : AlignedContext τ σ ι κ) (osec : OutputSection σ)
    (table : Insertion σ κ) (s : σ) (owner : κ → Option σ) (table' : Insertion σ κ) : Prop where
  reaches : C.Reaches osec table table'
  task : table'.task = Function.update table.task s .finished
  owners : owners table' = owner

omit [DecidableEq σ] in
theorem owners_store (e : Entry σ) :
    owners (C.store table s e) = Function.update (owners table) (C.contents s) (some e.owner) := by
  funext c
  by_cases h : c = C.contents s
  · subst h
    simp only [owners, store, Function.update_self, Option.map_some]
  · simp only [owners, store, Function.update_of_ne h]

theorem RunsAlone.head (hs : s ∈ osec.members) {mid : Insertion σ κ}
    (hstep : C.Step table s (goOn mid s t)) (hmid : mid.task = table.task)
    {owner : κ → Option σ} (h : ∃ table', C.RunsAlone osec (goOn mid s t) s owner table') :
    ∃ table', C.RunsAlone osec table s owner table' := by
  obtain ⟨table', hreaches, htask, howners⟩ := h
  refine ⟨table', .head ⟨s, hs, hstep⟩ hreaches, ?_, howners⟩
  rw [htask, goOn, hmid, Function.update_idem]

omit [DecidableEq κ] in
theorem task_goOn (table : Insertion σ κ) (s : σ) (t : Task σ) : (goOn table s t).task s = t :=
  Function.update_self _ _ _

theorem exists_runsAlone_p2align (hs : s ∈ osec.members) (ht : table.task s = .loadP2align)
    (he : table.entry (C.contents s) = some e) :
    ∃ table', C.RunsAlone osec table s (owners table) table' := by
  refine RunsAlone.head hs (.loadP2align ht he) rfl ?_
  have htask := task_goOn table s (.raise e.p2align)
  by_cases hlt : e.p2align < C.p2align s
  · have hstep := Step.exchangeP2align (C := C) htask hlt he rfl
    refine ⟨_, .single ⟨s, hs, hstep⟩, rfl, ?_⟩
    have howners : owners (C.store table s { e with p2align := C.p2align s }) =
        Function.update (owners table) (C.contents s) (some e.owner) := owners_store _
    refine howners.trans (Function.update_eq_self_iff.mpr ?_)
    rw [owners, he, Option.map_some]
  · exact ⟨_, .single ⟨s, hs, .keepP2align htask hlt⟩, rfl, rfl⟩

theorem exists_runsAlone_owner (hs : s ∈ osec.members) (ht : table.task s = .loadOwner)
    (he : table.entry (C.contents s) = some e) :
    ∃ table', C.RunsAlone osec table s (C.insertLiteral (owners table) s) table' := by
  have howner : owners table (C.contents s) = some e.owner := by
    rw [owners, he, Option.map_some]
  refine RunsAlone.head hs (.loadOwner ht he) rfl ?_
  have htask := task_goOn table s (.challenge e.owner)
  by_cases hlt : C.priority e.owner < C.priority s
  · refine RunsAlone.head hs (.exchange htask hlt he rfl) rfl ?_
    have hinsert : C.insertLiteral (owners table) s =
        owners (C.store table s { e with owner := s }) := by
      rw [owners_store]
      simp only [contents] at howner
      simp only [State.insertLiteral, howner]
      exact if_pos hlt
    rw [hinsert]
    exact exists_runsAlone_p2align hs (task_goOn _ _ _) (Function.update_self _ _ _)
  · refine RunsAlone.head hs (.keep htask hlt) rfl ?_
    have hinsert : C.insertLiteral (owners table) s = owners table := by
      simp only [contents] at howner
      simp only [State.insertLiteral, howner]
      exact if_neg hlt
    rw [hinsert]
    exact exists_runsAlone_p2align hs (task_goOn _ _ _) he

theorem exists_runsAlone (hs : s ∈ osec.members) (ht : table.task s = .insert) :
    ∃ table', C.RunsAlone osec table s (C.insertLiteral (owners table) s) table' := by
  cases he : table.entry (C.contents s) with
  | some e =>
    refine RunsAlone.head hs (.find ht he) rfl ?_
    exact exists_runsAlone_owner hs (task_goOn _ _ _) he
  | none =>
    refine RunsAlone.head hs (.insert ht he) rfl ?_
    have howner : owners table (C.contents s) = none := by
      rw [owners, he, Option.map_none]
    have hself : (C.store table s { owner := s }).entry (C.contents s) =
        some { owner := s } := Function.update_self _ _ _
    obtain ⟨table', hreaches, htask, howners⟩ := exists_runsAlone_owner (C := C) hs
      (task_goOn (C.store table s { owner := s }) s .loadOwner) hself
    refine ⟨table', hreaches, htask, howners.trans ?_⟩
    -- the comparison with itself keeps the new owner
    have hnew : owners (C.store table s { owner := s }) (C.subsec s).contents = some s := by
      rw [owners, show (C.subsec s).contents = C.contents s from rfl, hself, Option.map_some]
    simp only [contents] at howner
    have hfound : C.insertLiteral (owners (C.store table s { owner := s })) s =
        owners (C.store table s { owner := s }) := by
      simp only [State.insertLiteral, hnew]
      exact if_neg (lt_irrefl _)
    refine hfound.trans ?_
    rw [owners_store]
    simp only [State.insertLiteral, howner]
    rfl

theorem exists_reaches {order : List σ} (hnodup : order.Nodup)
    (hmem : ∀ s ∈ order, s ∈ osec.members) (htask : ∀ s ∈ order, table.task s = .insert) :
    ∃ table', C.Reaches osec table table' ∧ (∀ s ∈ order, table'.task s = .finished) ∧
      (∀ s ∉ order, table'.task s = table.task s) ∧
        owners table' = order.foldl C.insertLiteral (owners table) := by
  induction order generalizing table with
  | nil => exact ⟨table, .refl, fun s hs => absurd hs List.not_mem_nil, fun s _ => rfl, rfl⟩
  | cons s order ih =>
    obtain ⟨hs, hnodup⟩ := List.nodup_cons.mp hnodup
    obtain ⟨hsmem, hmem⟩ := List.forall_mem_cons.mp hmem
    obtain ⟨hsinsert, htask⟩ := List.forall_mem_cons.mp htask
    obtain ⟨mid, hmid, hmidtask, hmidowners⟩ := exists_runsAlone (C := C) hsmem hsinsert
    have hwait : ∀ r ∈ order, mid.task r = .insert := by
      intro r hr
      have hne : r ≠ s := fun h => hs (h ▸ hr)
      rw [hmidtask, Function.update_of_ne hne, htask r hr]
    obtain ⟨table', hreaches, hfinished, hother, howners⟩ := ih hnodup hmem hwait
    refine ⟨table', hmid.trans hreaches, ?_, ?_, ?_⟩
    · intro r hr
      rcases List.mem_cons.mp hr with rfl | hr
      · rw [hother r hs, hmidtask, Function.update_self]
      · exact hfinished r hr
    · intro r hr
      rw [List.mem_cons, not_or] at hr
      obtain ⟨hne, hr⟩ := hr
      rw [hother r hr, hmidtask, Function.update_of_ne hne]
    · rw [howners, hmidowners, List.foldl_cons]

theorem exists_run {order : List σ} (hnodup : osec.members.Nodup)
    (hperm : order.Perm osec.members) :
    ∃ table, C.Run osec table ∧ owners table = C.literalOwner order := by
  obtain ⟨table, hreaches, hfinished, -, howners⟩ :=
    @exists_reaches _ _ _ _ _ _ C osec start order (hperm.nodup_iff.mpr hnodup)
      (fun s hs => hperm.mem_iff.mp hs) (fun s _ => rfl)
  exact ⟨table, ⟨hreaches, fun s hs => hfinished s (hperm.mem_iff.mpr hs)⟩, howners⟩

def ownsContents (C : AlignedContext τ σ ι κ) (table : Insertion σ κ) (s : σ) : Bool :=
  decide (owners table (C.contents s) = some s)

theorem Run.exists_order (h : C.Run osec table) :
    ∃ order, order.Perm osec.members ∧
      ∀ s ∈ osec.members, owners table (C.contents s) = C.literalOwner order (C.contents s) := by
  set isOwner := C.ownsContents table
  refine ⟨osec.members.filter isOwner ++ osec.members.filter fun s => !isOwner s,
    List.filter_append_perm isOwner osec.members, fun s hs => ?_⟩
  obtain ⟨e, he, hc, htop⟩ := h.owner hs
  have howner : owners table (C.contents s) = some e.owner := by
    rw [owners, he, Option.map_some]
  have hfirst : e.owner ∈ (osec.members.filter isOwner).filter
      fun r => decide ((C.subsec r).contents = C.contents s) := by
    have hown : isOwner e.owner = true := decide_eq_true (hc ▸ howner)
    exact List.mem_filter.mpr ⟨List.mem_filter.mpr ⟨htop.mem, hown⟩, decide_eq_true hc⟩
  have hfold := State.foldl_insertLiteral (S := C.toState)
    (osec.members.filter isOwner ++ osec.members.filter fun s => !isOwner s)
    (fun _ => none) (C.contents s)
  rw [List.filter_append] at hfold
  cases hfilter : (osec.members.filter isOwner).filter
      fun r => decide ((C.subsec r).contents = C.contents s) with
  | nil =>
    rw [hfilter] at hfirst
    exact absurd hfirst List.not_mem_nil
  | cons o rest =>
    have ho : o = e.owner := by
      have hmem : o ∈ (osec.members.filter isOwner).filter
          fun r => decide ((C.subsec r).contents = C.contents s) := by
        rw [hfilter]
        exact List.mem_cons_self
      obtain ⟨hmem, hoc⟩ := List.mem_filter.mp hmem
      have hown := of_decide_eq_true (List.mem_filter.mp hmem).2
      rw [show C.contents o = C.contents s from of_decide_eq_true hoc, howner] at hown
      exact (Option.some.inj hown).symm
    rw [hfilter, List.cons_append] at hfold
    rw [howner, State.literalOwner, hfold, ← ho]
    congr 1
    symm
    apply takeovers_eq_holder
    intro x hx
    have hxc : x ∈ osec.members ∧ C.contents x = C.contents s := by
      have hx' : x ∈ (osec.members.filter isOwner ++
          osec.members.filter fun s => !isOwner s).filter
            fun r => decide ((C.subsec r).contents = C.contents s) := by
        rw [List.filter_append, hfilter]
        exact List.mem_cons_of_mem o hx
      obtain ⟨hmem, hxc⟩ := List.mem_filter.mp hx'
      exact ⟨(List.filter_append_perm isOwner osec.members).mem_iff.mp hmem, of_decide_eq_true hxc⟩
    rw [ho]
    exact htop.highest x hxc.1 (hxc.2.trans hc.symm)

/-- The owners that the racing tasks can end with are those of some order in which the members
are inserted one after the other. -/
theorem exists_run_iff_exists_order (hnodup : osec.members.Nodup) (owner : σ → Option σ) :
    (∃ table, C.Run osec table ∧ ∀ s ∈ osec.members, owners table (C.contents s) = owner s) ↔
      ∃ order, order.Perm osec.members ∧
        ∀ s ∈ osec.members, C.literalOwner order (C.contents s) = owner s := by
  constructor
  · rintro ⟨table, hrun, howner⟩
    obtain ⟨order, hperm, horder⟩ := hrun.exists_order
    exact ⟨order, hperm, fun s hs => (horder s hs).symm.trans (howner s hs)⟩
  · rintro ⟨order, hperm, howner⟩
    obtain ⟨table, hrun, hsame⟩ := AlignedContext.exists_run (C := C) hnodup hperm
    exact ⟨table, hrun, fun s hs => (congrFun hsame _).trans (howner s hs)⟩

theorem Top.exists_run (h : C.Top osec s) (hnodup : osec.members.Nodup) :
    ∃ table, C.Run osec table ∧ owners table (C.contents s) = some s := by
  obtain ⟨table, hrun, howners⟩ := AlignedContext.exists_run (C := C) hnodup
    (List.perm_cons_erase h.mem).symm
  have hmem : s ∈ s :: osec.members.erase s := List.mem_cons_self
  obtain ⟨o, ho, howner, hc, -⟩ := State.literalOwner_spec (S := C.toState) hmem
  refine ⟨table, hrun, ?_⟩
  have hownerC : owners table (C.contents s) = some o := by rw [howners]; exact howner
  rcases State.literalOwner_first howner with rfl | hlt
  · exact hownerC
  · have hmem := (List.perm_cons_erase h.mem).mem_iff.mpr ho
    exact absurd hlt (not_lt.mpr (h.highest o hmem hc))

theorem uniqueTops_of_deterministic (hnodup : osec.members.Nodup)
    (h : C.Deterministic osec) : C.UniqueTops osec := by
  intro s t hs ht hc
  by_contra hne
  obtain ⟨table, hrun, howner⟩ := hs.exists_run hnodup
  obtain ⟨table', hrun', howner'⟩ := ht.exists_run hnodup
  have hsame := (h table table' hrun hrun').1 s hs.mem
  obtain ⟨e, he, rfl⟩ := Option.map_eq_some_iff.mp howner
  rw [← hc] at howner'
  obtain ⟨e', he', rfl⟩ := Option.map_eq_some_iff.mp howner'
  simp only [replacement, he, he', if_neg hne] at hsame
  cases hsame

/-- All runs over the members of a section have one result if and only if no
contents occur twice in the file of the highest priority that has them. -/
theorem deterministic_iff (hnodup : osec.members.Nodup) :
    C.Deterministic osec ↔ C.UniqueTops osec :=
  ⟨uniqueTops_of_deterministic hnodup, deterministic_of_uniqueTops⟩

end AlignedContext

/-- `__cstring` with the contents of `names`, one member for each, of one file. -/
def stringsOfFile (names : List String) : AlignedContext Unit ℕ Unit String where
  subsec s := { contents := names.getD s "", filePriority := 1, isec := () }
  sym _ := {}
  rels _ := []
  chunks := [{ type := 0x2, members := List.range names.length }]
  objs := [{ file := .obj 0, sections := [()], syms := [], subsections := [] }]
  disjoint := by simpa using List.nodup_range
  parsed := by simp
  owned := by simp
  p2align _ := 0

/-- Two equal strings, of which the second may be the owner. -/
theorem exists_run_iff_exists_order_stringsOfFile :
    let C := stringsOfFile ["foo", "foo"]
    let osec : OutputSection ℕ := { type := 0x2, members := [0, 1] }
    (∃ table, C.Run osec table ∧
      ∀ s ∈ osec.members, AlignedContext.owners table (C.contents s) = some 1) ↔
      ∃ order, order.Perm osec.members ∧
        ∀ s ∈ osec.members, C.literalOwner order (C.contents s) = some 1 := by
  refine AlignedContext.exists_run_iff_exists_order ?_ fun _ => some 1
  decide

/-- Different strings are kept by every run. -/
theorem deterministic_stringsOfFile :
    (stringsOfFile ["foo", "bar"]).Deterministic { type := 0x2, members := [0, 1] } := by
  refine (AlignedContext.deterministic_iff (by decide)).mpr ?_
  rintro s t ⟨hs, -⟩ ⟨ht, -⟩ hc
  rcases List.mem_pair.mp hs with rfl | rfl <;> rcases List.mem_pair.mp ht with rfl | rfl
  · rfl
  · exact absurd hc (by decide)
  · exact absurd hc (by decide)
  · rfl

/-- Either of two equal strings may be kept. -/
theorem not_deterministic_stringsOfFile :
    ¬ (stringsOfFile ["foo", "foo"]).Deterministic { type := 0x2, members := [0, 1] } := by
  intro h
  have htop (s : ℕ) (hs : s ∈ [0, 1]) :
      (stringsOfFile ["foo", "foo"]).Top { type := 0x2, members := [0, 1] } s :=
    ⟨hs, fun t _ _ => le_refl _⟩
  have heq := AlignedContext.uniqueTops_of_deterministic (by decide) h 0 1
    (htop 0 (by decide)) (htop 1 (by decide)) rfl
  exact absurd heq (by decide)

end Mold.MachO.Literals
