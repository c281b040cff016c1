import Mold.MachO.Resolution

/-!
# Archive member extraction

An archive is indexed when it is read: the entries of its Darwin symbol table
go to `archive_symbol_map`, and no member is opened.  While references are
examined, `maybe_extract_archive_member` loads members on behalf of symbols;
a loaded member waits at the end of `ctx.objs` until
`drain_archive_member_frontier` resolves the symbols of the whole frontier at
once.  The linker options of the new objects are obeyed at that point, so a
drain may also add dylibs, objects and archives.

A member is identified with the object file it is loaded as.
-/

namespace Mold.MachO.Resolver

variable {ν : Type*}

/-- What one round of `drain_incremental_linker_options` adds: object files
and dylibs in the order in which they are pushed, dylibs listed before that a
`-needed` option revives, and entries for the archive symbol map. -/
structure AutolinkWave (ν : Type*) where
  objs : List ℕ := []
  dylibs : List ℕ := []
  needed : List ℕ := []
  members : List (ν × ℕ) := []

/-- The part of the linker context that symbol resolution reads and writes.
`pendingArchiveBegin` holds `pending_archive_obj_begin` and
`pending_archive_dylib_begin`, and `none` stands for `-1`; `liveObjs` is the
part of the vector of that name that the marking loop has yet to visit, and
`ltoDone` says that `do_lto` has run. -/
structure State (ν : Type*) where
  syms : ν → Symbol ℕ
  isAlive : FileRef → Bool
  objs : List ℕ
  dylibs : List ℕ
  archiveSymbolMap : ν → List ℕ
  isLoaded : ℕ → Bool := fun _ => false
  pendingArchiveSymbols : List ν := []
  pendingArchiveBegin : Option (ℕ × ℕ) := none
  liveObjs : List ℕ := []
  ltoDone : Bool := false

/-- The inputs of a link after they were read.  `roots` are the names given
with `-u` followed by the entry point, `isObjectMember` says whether an archive
member is an object file or bitcode, and `autolink` gives the rounds of linker
options a drain obeys in a state.  `numDylibs` bounds the number of dylibs that
are ever created; `ltoObject` is the object file that link-time optimisation
compiles the bitcode to.

An archive is indexed only where `all_load` is off, so its members are created
dead.  A reexported library is hoisted only if it has the install name of a
system library. -/
structure Link (ν : Type*) where
  files : Files ν
  objs : List ℕ
  dylibs : List ℕ
  archiveSymbolMap : ν → List ℕ
  isObjectMember : ℕ → Bool
  autolink : State ν → List (AutolinkWave ν)
  numDylibs : ℕ
  ltoObject : ℕ
  roots : List ν
  objcMsgSend : ν
  dyldStubBinder : ν
  fixupChains : Bool := true
  members_dead : ∀ x, ∀ m ∈ archiveSymbolMap x, (files.obj m).isAlive = false
  autolink_dead : ∀ s, ∀ w ∈ autolink s, ∀ e ∈ w.members, (files.obj e.2).isAlive = false
  hoisted_named : ∀ d, ∀ h ∈ (files.dylib d).hoistedLibs,
    (files.dylib h).installName ≠ ""

/-- `load_archive_member`, with the test whether a file came out. -/
def Link.loadArchiveMember (L : Link ν) (s : State ν) (m : ℕ) : State ν × Bool :=
  if s.isLoaded m then
    (s, L.isObjectMember m)
  else
    let s := { s with isLoaded := Function.update s.isLoaded m true }
    if L.isObjectMember m then
      ({ s with
        pendingArchiveBegin :=
          some (s.pendingArchiveBegin.getD (s.objs.length, s.dylibs.length))
        objs := s.objs ++ [m] }, true)
    else
      (s, false)

/-- The loop of `maybe_extract_archive_member` over the members of a symbol:
load the first one that is not loaded and is an object file. -/
def Link.loadFirstMember (L : Link ν) (s : State ν) : List ℕ → State ν × Bool
  | [] => (s, false)
  | m :: ms =>
    if s.isLoaded m then
      L.loadFirstMember s ms
    else if (L.loadArchiveMember s m).2 then
      L.loadArchiveMember s m
    else
      L.loadFirstMember (L.loadArchiveMember s m).1 ms

/-- The local function `should_extract`. -/
def shouldExtract (isAlive : FileRef → Bool) (sym : Symbol ℕ) : Bool :=
  match sym.file with
  | none => true
  | some file =>
    file.isDylib || sym.isCommon || (!isAlive file && sym.isWeak)

def Link.maybeExtractArchiveMember [DecidableEq ν] (L : Link ν) (s : State ν)
    (x : ν) : State ν × Bool :=
  if s.archiveSymbolMap x = [] then
    (s, false)
  else if !shouldExtract s.isAlive (s.syms x) then
    (s, false)
  else if x ∈ s.pendingArchiveSymbols then
    (s, false)
  else
    let s := { s with pendingArchiveSymbols := x :: s.pendingArchiveSymbols }
    let (s', loaded) := L.loadFirstMember s (s.archiveSymbolMap x)
    if loaded then
      (s', true)
    else
      ({ s' with
        pendingArchiveSymbols := s'.pendingArchiveSymbols.erase x }, false)

/-! ## Draining the frontier -/

/-- The inner loop of `collect_hoisted_dylibs`: the dylibs that are pushed and
the install names seen so far. -/
def hoistLibs (F : Files ν) : List ℕ → List String → List ℕ × List String
  | [], seen => ([], seen)
  | h :: hs, seen =>
    let name := (F.dylib h).installName
    if name ∈ seen then
      hoistLibs F hs seen
    else
      let (pushed, seen) := hoistLibs F hs (name :: seen)
      (h :: pushed, seen)

/-- The outer loop of `collect_hoisted_dylibs`, which also visits the dylibs it
pushes.  As a dylib is pushed at most once, `fuel` need not exceed the number
of dylibs. -/
def hoistLoop (F : Files ν) : (fuel : ℕ) → (todo : List ℕ) → (seen : List String) → List ℕ
  | 0, _, _ => []
  | _, [], _ => []
  | fuel + 1, d :: todo, seen =>
    let (pushed, seen) := hoistLibs F (F.dylib d).hoistedLibs seen
    pushed ++ hoistLoop F fuel (todo ++ pushed) seen

def Link.collectHoistedDylibs (L : Link ν) (dylibs : List ℕ) : List ℕ :=
  let seen := (dylibs.map fun d => (L.files.dylib d).installName).filter (· ≠ "")
  dylibs ++ hoistLoop L.files L.numDylibs dylibs seen

/-- One iteration of `wait_for_new_input_frontier`. -/
def Link.loadWave [DecidableEq ν] (L : Link ν) (s : State ν) (w : AutolinkWave ν) : State ν :=
  { s with
    isAlive := fun f => s.isAlive f || decide (∃ d ∈ w.needed, f = .dylib d)
    objs := s.objs ++ w.objs
    dylibs := L.collectHoistedDylibs (s.dylibs ++ w.dylibs)
    archiveSymbolMap := fun x =>
      s.archiveSymbolMap x ++ (w.members.filter fun e => e.1 = x).map Prod.snd }

def Link.waitForNewInputFrontier [DecidableEq ν] (L : Link ν) (s : State ν) : State ν :=
  (L.autolink s).foldl L.loadWave s

def Link.resolveNewFiles [DecidableEq ν] (L : Link ν) (s : State ν)
    (objBegin dylibBegin : ℕ) : State ν :=
  let s := L.waitForNewInputFrontier s
  let syms :=
    resolveDylibs L.files s.isAlive (s.dylibs.drop dylibBegin) s.syms
  { s with
    syms := resolveObjectSymbols L.files s.isAlive (s.objs.drop objBegin) syms }

def Link.drainArchiveMemberFrontier [DecidableEq ν] (L : Link ν)
    (s : State ν) : Option (State ν) :=
  s.pendingArchiveBegin.map fun (objBegin, dylibBegin) =>
    { L.resolveNewFiles s objBegin dylibBegin with
      pendingArchiveBegin := none
      pendingArchiveSymbols := [] }

theorem Link.loadFirstMember_cases (L : Link ν) (s : State ν) (ms : List ℕ) :
    (∃ isLoaded, (∀ k, s.isLoaded k = true → isLoaded k = true) ∧
      L.loadFirstMember s ms = ({ s with isLoaded := isLoaded }, false)) ∨
    ∃ isLoaded, (∀ k, s.isLoaded k = true → isLoaded k = true) ∧
      ∃ m ∈ ms, s.isLoaded m = false ∧ isLoaded m = true ∧
        L.loadFirstMember s ms =
          ({ s with
            isLoaded := isLoaded
            pendingArchiveBegin := some (s.pendingArchiveBegin.getD
              (s.objs.length, s.dylibs.length))
            objs := s.objs ++ [m] }, true) := by
  induction ms generalizing s with
  | nil => exact Or.inl ⟨s.isLoaded, fun k hk => hk, rfl⟩
  | cons m ms ih =>
    rw [Link.loadFirstMember]
    by_cases hm : s.isLoaded m = true
    · rw [if_pos hm]
      rcases ih s with h | ⟨isLoaded, hmono, k, hk, h⟩
      · exact Or.inl h
      · exact Or.inr ⟨isLoaded, hmono, k, List.mem_cons_of_mem m hk, h⟩
    · have hmono : ∀ k, s.isLoaded k = true → Function.update s.isLoaded m true k = true := by
        intro k hk
        by_cases hkm : k = m
        · simp [hkm]
        · rw [Function.update_of_ne hkm, hk]
      rw [if_neg hm]
      by_cases hobject : L.isObjectMember m = true
      · rw [if_pos (by simp [Link.loadArchiveMember, hm, hobject])]
        refine Or.inr ⟨Function.update s.isLoaded m true, hmono, m,
          List.mem_cons_self, by simpa using hm, by simp, ?_⟩
        simp [Link.loadArchiveMember, hm, hobject]
      · rw [if_neg (by simp [Link.loadArchiveMember, hm, hobject])]
        have hload : (L.loadArchiveMember s m).1 =
            { s with isLoaded := Function.update s.isLoaded m true } := by
          simp [Link.loadArchiveMember, hm, hobject]
        rw [hload]
        rcases ih { s with isLoaded := Function.update s.isLoaded m true } with
          ⟨isLoaded, hmono', h⟩ | ⟨isLoaded, hmono', k, hk, hfresh, hloaded, h⟩
        · exact Or.inl ⟨isLoaded, fun k hk => hmono' k (hmono k hk), h⟩
        · refine Or.inr ⟨isLoaded, fun k hk => hmono' k (hmono k hk), k,
            List.mem_cons_of_mem m hk, ?_, hloaded, h⟩
          by_contra hne
          rw [Bool.not_eq_false] at hne
          have hfalse : Function.update s.isLoaded m true k = false := hfresh
          rw [hmono k hne] at hfalse
          cases hfalse

theorem Link.maybeExtractArchiveMember_cases [DecidableEq ν] (L : Link ν) (s : State ν) (x : ν) :
    (∃ isLoaded pending, (∀ k, s.isLoaded k = true → isLoaded k = true) ∧
      L.maybeExtractArchiveMember s x =
        ({ s with
          isLoaded := isLoaded, pendingArchiveSymbols := pending }, false)) ∨
    ∃ isLoaded pending, (∀ k, s.isLoaded k = true → isLoaded k = true) ∧
      ∃ m ∈ s.archiveSymbolMap x, s.isLoaded m = false ∧ isLoaded m = true ∧
        L.maybeExtractArchiveMember s x =
          ({ s with
            isLoaded := isLoaded
            pendingArchiveSymbols := pending
            pendingArchiveBegin := some (s.pendingArchiveBegin.getD
              (s.objs.length, s.dylibs.length))
            objs := s.objs ++ [m] }, true) := by
  rw [Link.maybeExtractArchiveMember]
  split
  · exact Or.inl ⟨s.isLoaded, s.pendingArchiveSymbols, fun k hk => hk, rfl⟩
  split
  · exact Or.inl ⟨s.isLoaded, s.pendingArchiveSymbols, fun k hk => hk, rfl⟩
  split
  · exact Or.inl ⟨s.isLoaded, s.pendingArchiveSymbols, fun k hk => hk, rfl⟩
  rcases L.loadFirstMember_cases
      { s with pendingArchiveSymbols := x :: s.pendingArchiveSymbols }
      (s.archiveSymbolMap x) with
    ⟨isLoaded, hmono, h⟩ | ⟨isLoaded, hmono, m, hm, hfresh, hloaded, h⟩
  · exact Or.inl ⟨isLoaded, _, hmono, by simp only [h]; rfl⟩
  · exact Or.inr ⟨isLoaded, _, hmono, m, hm, hfresh, hloaded,
      by simp only [h]; rfl⟩

end Mold.MachO.Resolver
