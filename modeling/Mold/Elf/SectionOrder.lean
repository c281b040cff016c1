import Mathlib.Data.List.Range
import Mold.Elf.OutputLayout
import Mold.Lib.OptionTraverse

/-!
# Addresses by `--section-order`

The entries of the argument are run one after another, and a cursor moves over the chunks,
which are sorted by the entries that they match.  The events are the writes of the loop in
their order, together with the changes of the address between them.
-/

namespace Mold.Elf.OrderedLayout

open Lib Layout

/-! ## Sorting -/

inductive Entry where
  | section (name : String)
  | group (name : String)
  | addr (value : ℕ)
  | align (value : ℕ)
  | symbol (name : String)
deriving DecidableEq, Repr

structure Chunks where
  list : List Chunk
  /-- `OutputShdr` has no flags. -/
  shdr_isAlloc : ∀ c ∈ list, c.kind = .shdr → c.isAlloc = false

def getSectionOrderGroup (c : Chunk) : String :=
  if c.isNobits then "BSS" else if c.isExec then "TEXT" else if c.isWrite then "DATA" else "RODATA"

def int32Max : ℤ := 2147483647

def findEntry (entries : List Entry) (c : Chunk) : Option ℕ :=
  (entries.findIdx? (· = .section c.name)).or
    (entries.findIdx? (· = .group (getSectionOrderGroup c)))

/-- The lambda `get_rank` of `sort_output_sections_by_order`.  It is an error if there is
no rank. -/
def getRank (entries : List Entry) (c : Chunk) : Option ℤ :=
  if c.kind = .ehdr && !c.isAlloc then some (-2)
  else if c.kind = .phdr && !c.isAlloc then some (-1)
  else if c.kind = .shdr then some int32Max
  else if !c.isAlloc then some (int32Max - 1)
  else (findEntry entries c).map fun i : ℕ => (i : ℤ)

/-- A chunk and its `sect_order`. -/
structure Ranked where
  chunk : Chunk
  sectOrder : ℤ
deriving DecidableEq, Repr

namespace Ranked

def isAlloc (c : Ranked) : Bool := c.chunk.isAlloc

/-- The chunk matches the entry `j`. -/
def hasOrder (j : ℕ) (c : Ranked) : Bool := c.sectOrder = (j : ℤ)

theorem hasOrder_iff {j : ℕ} {c : Ranked} : c.hasOrder j = true ↔ c.sectOrder = (j : ℤ) :=
  decide_eq_true_iff

end Ranked

def sortOutputSectionsByOrder (entries : List Entry) (chunks : List Chunk) :
    Option (List Ranked) :=
  (chunks.mapM fun c => (getRank entries c).map (Ranked.mk c)).map fun l =>
    l.mergeSort fun a b => a.sectOrder ≤ b.sectOrder

/-! ## The loop -/

def alignTo (val align : ℕ) : ℕ :=
  if align = 0 then val else val + align - 1 - ((val + align - 1) &&& (align - 1))

inductive Action where
  | place (c : Chunk)
  | addr (value : ℕ)
  | align (value : ℕ)
  | symbol (name : String)
deriving DecidableEq, Repr

/-- An action of the entry with a number: the address of the chunk, the value of the symbol
or the next address. -/
structure Event where
  index : ℕ
  action : Action
  addr : ℕ
deriving DecidableEq, Repr

/-- The loop of `set_virtual_addresses_by_order`: the next address, the chunk before the
cursor and the chunks from the cursor on. -/
structure Walk where
  addr : ℕ
  prev : Option Chunk
  rest : List Ranked

/-- The cursor passes over the chunks without memory. -/
def skipNonalloc (addr : ℕ) (prev : Option Chunk) : List Ranked → Walk
  | [] => ⟨addr, prev, []⟩
  | c :: rest =>
    if c.isAlloc then ⟨addr, prev, c :: rest⟩
    else skipNonalloc addr (some c.chunk) rest

section Loop

variable (args : Layout.Args)

/-- The lambda `assign_addr` at the chunk `c`, behind which is `rest`. -/
def assignAddr (j : ℕ) (w : Walk) (c : Ranked) (rest : List Ranked) : Event × Walk :=
  let addr := addrByOrder args w.addr w.prev c.chunk
  (⟨j, .place c.chunk, addr⟩, skipNonalloc (addr + c.chunk.size) (some c.chunk) rest)

/-- The entry `j` places one chunk if the next one matches it. -/
def assignSection (j : ℕ) (w : Walk) : List Event × Walk :=
  match w.rest with
  | [] => ([], w)
  | c :: rest =>
    if (j : ℤ) = c.sectOrder then
      let r := assignAddr args j w c rest
      ([r.1], r.2)
    else ([], w)

/-- The entry `j` places chunks as long as they match it, at most as many as there are. -/
def assignGroup (j : ℕ) : ℕ → Walk → List Event × Walk
  | 0, w => ([], w)
  | n + 1, w =>
    match w.rest with
    | [] => ([], w)
    | c :: rest =>
      if (j : ℤ) = c.sectOrder then
        let r := assignAddr args j w c rest
        let r' := assignGroup j n r.2
        (r.1 :: r'.1, r'.2)
      else ([], w)

/-- The body of the loop of `set_virtual_addresses_by_order`. -/
def runEntry (j : ℕ) (e : Entry) (w : Walk) : List Event × Walk :=
  match e with
  | .section _ => assignSection args j w
  | .group _ => assignGroup args j w.rest.length w
  | .addr value => ([⟨j, .addr value, value⟩], { w with addr := value })
  | .align value =>
    ([⟨j, .align value, alignTo w.addr value⟩], { w with addr := alignTo w.addr value })
  | .symbol name => ([⟨j, .symbol name, w.addr⟩], w)

/-- The loop from the entry `j` on. -/
def runEntries (j : ℕ) : List Entry → Walk → List Event
  | [], _ => []
  | e :: entries, w =>
    let r := runEntry args j e w
    r.1 ++ runEntries (j + 1) entries r.2

def setVirtualAddressesByOrder (entries : List Entry) (chunks : List Ranked) : List Event :=
  runEntries args 0 entries (skipNonalloc args.imageBase none chunks)

end Loop

/-! ## The meaning of the entries -/

def actionsOf (entries : List Entry) (chunks : List Chunk) (j : ℕ) : Entry → List Action
  | .section _ | .group _ =>
    (chunks.filter fun c => c.isAlloc && getRank entries c = some (j : ℤ)).map .place
  | .addr value => [.addr value]
  | .align value => [.align value]
  | .symbol name => [.symbol name]

def actions (entries : List Entry) (chunks : List Chunk) : List (ℕ × Action) :=
  entries.zipIdx.flatMap fun p => (actionsOf entries chunks p.2 p.1).map (p.2, ·)

namespace Event

def label (ev : Event) : ℕ × Action := (ev.index, ev.action)

def placed (ev : Event) : Option Chunk :=
  match ev.action with
  | .place c => some c
  | _ => none

def stop (ev : Event) : ℕ :=
  match ev.action with
  | .place c => ev.addr + c.size
  | _ => ev.addr

/-- The event is what its action does at the address `start`. -/
def TakesEffect (start : ℕ) (ev : Event) : Prop :=
  match ev.action with
  | .place c => start ≤ ev.addr ∧ c.align ∣ ev.addr
  | .addr value => ev.addr = value
  | .align value => ev.addr = alignTo start value
  | .symbol _ => ev.addr = start

end Event

def TakeEffect : ℕ → List Event → Prop
  | _, [] => True
  | start, ev :: events => ev.TakesEffect start ∧ TakeEffect ev.stop events

/-- Every chunk with memory gets an address once, in the order of the entries, and the other
entries take effect in between. -/
structure PlacedByOrder (args : Layout.Args) (entries : List Entry) (chunks : List Chunk)
    (events : List Event) : Prop where
  once : (events.filterMap Event.placed).Perm (chunks.filter Chunk.isAlloc)
  inOrder : events.map Event.label = actions entries chunks
  effects : TakeEffect args.imageBase events

def SectionsUnique (entries : List Entry) (chunks : List Chunk) : Prop :=
  ∀ name, .section name ∈ entries → (chunks.filter fun c => c.isAlloc && c.name = name).length ≤ 1

/-! ## What an entry places -/

namespace Walk

def remaining (w : Walk) : List Ranked := w.rest.filter Ranked.isAlloc

def Ready (w : Walk) : Prop := ∀ c ∈ w.rest.head?, c.isAlloc = true

variable {w : Walk} {c : Ranked} {rest : List Ranked}

theorem remaining_of_nil (hrest : w.rest = []) : w.remaining = [] := by
  rw [remaining, hrest, List.filter_nil]

theorem Ready.remaining_of_cons (h : w.Ready) (hrest : w.rest = c :: rest) :
    w.remaining = c :: rest.filter Ranked.isAlloc := by
  have hc : c.isAlloc = true := h c (by rw [hrest]; rfl)
  rw [remaining, hrest, List.filter_cons_of_pos hc]

end Walk

theorem skipNonalloc_ready (addr : ℕ) (prev : Option Chunk) (chunks : List Ranked) :
    (skipNonalloc addr prev chunks).Ready := by
  induction chunks generalizing prev with
  | nil => exact fun c hc => absurd hc (Option.not_mem_none c)
  | cons c chunks ih =>
    rw [skipNonalloc]
    split
    case isTrue h => exact fun d hd => Option.mem_some_iff.mp hd ▸ h
    case isFalse => exact ih (some c.chunk)

theorem remaining_skipNonalloc (addr : ℕ) (prev : Option Chunk) (chunks : List Ranked) :
    (skipNonalloc addr prev chunks).remaining = chunks.filter Ranked.isAlloc := by
  induction chunks generalizing prev with
  | nil => rfl
  | cons c chunks ih =>
    rw [skipNonalloc]
    split
    case isTrue => rfl
    case isFalse h => rw [ih, List.filter_cons_of_neg h]

theorem addr_skipNonalloc (addr : ℕ) (prev : Option Chunk) (chunks : List Ranked) :
    (skipNonalloc addr prev chunks).addr = addr := by
  induction chunks generalizing prev with
  | nil => rfl
  | cons c chunks ih =>
    rw [skipNonalloc]
    split
    · rfl
    · exact ih (some c.chunk)

theorem length_skipNonalloc_le (addr : ℕ) (prev : Option Chunk) (chunks : List Ranked) :
    (skipNonalloc addr prev chunks).rest.length ≤ chunks.length := by
  induction chunks generalizing prev with
  | nil => exact Nat.le_refl 0
  | cons c chunks ih =>
    rw [skipNonalloc]
    split
    · exact Nat.le_refl _
    · exact Nat.le_succ_of_le (ih (some c.chunk))

/-- The chunks that match the entry `j` in front. -/
def matching (j : ℕ) (chunks : List Ranked) : List Ranked :=
  chunks.takeWhile (Ranked.hasOrder j)

def placeLabels (j : ℕ) (chunks : List Ranked) : List (ℕ × Action) :=
  chunks.map fun c => (j, .place c.chunk)

/-- The first `n` chunks are placed by the entry `j`. -/
structure Places (j : ℕ) (w : Walk) (n : ℕ) (res : List Event × Walk) : Prop where
  labels : res.1.map Event.label = placeLabels j (w.remaining.take n)
  ready : res.2.Ready
  remaining : res.2.remaining = w.remaining.drop n

section Entries

variable {args : Layout.Args} {j : ℕ} {w : Walk}

theorem Places.none (h : w.Ready) : Places j w 0 ([], w) := ⟨rfl, h, rfl⟩

theorem assignSection_places (h : w.Ready) :
    Places j w ((matching j w.remaining).take 1).length (assignSection args j w) := by
  rw [assignSection]
  split
  case h_1 hrest =>
    rw [Walk.remaining_of_nil hrest]
    exact Places.none h
  case h_2 c rest hrest =>
    rw [h.remaining_of_cons hrest]
    split
    case isTrue hj =>
      rw [matching, List.takeWhile_cons_of_pos (Ranked.hasOrder_iff.mpr hj.symm)]
      refine ⟨?_, skipNonalloc_ready _ _ _, ?_⟩
      · rw [h.remaining_of_cons hrest]
        rfl
      · rw [h.remaining_of_cons hrest]
        exact remaining_skipNonalloc _ _ _
    case isFalse hj =>
      rw [matching, List.takeWhile_cons_of_neg fun h => hj (Ranked.hasOrder_iff.mp h).symm]
      exact Places.none h

theorem assignGroup_places {n : ℕ} (h : w.Ready) (hn : w.rest.length ≤ n) :
    Places j w (matching j w.remaining).length (assignGroup args j n w) := by
  induction n generalizing w with
  | zero =>
    have hrest := List.length_eq_zero_iff.mp (Nat.le_zero.mp hn)
    rw [Walk.remaining_of_nil hrest]
    exact Places.none h
  | succ n ih =>
    rw [assignGroup]
    split
    case h_1 hrest =>
      rw [Walk.remaining_of_nil hrest]
      exact Places.none h
    case h_2 c rest hrest =>
      have hw := h.remaining_of_cons hrest
      rw [hw]
      split
      case isTrue hj =>
        have hlen : (assignAddr args j w c rest).2.rest.length ≤ n := by
          rw [hrest] at hn
          exact Nat.le_trans (length_skipNonalloc_le _ _ _) (Nat.le_of_succ_le_succ hn)
        have hnext := ih (w := (assignAddr args j w c rest).2) (skipNonalloc_ready _ _ _) hlen
        have hrem : (assignAddr args j w c rest).2.remaining =
            rest.filter Ranked.isAlloc := remaining_skipNonalloc _ _ _
        rw [hrem] at hnext
        rw [matching, List.takeWhile_cons_of_pos (Ranked.hasOrder_iff.mpr hj.symm)]
        refine ⟨?_, hnext.ready, ?_⟩
        · rw [hw, List.map_cons, hnext.labels, hrem]
          rfl
        · rw [hw, hnext.remaining, hrem]
          rfl
      case isFalse hj =>
        rw [matching, List.takeWhile_cons_of_neg fun h => hj (Ranked.hasOrder_iff.mp h).symm]
        exact Places.none h

end Entries

/-- The number of chunks that the entry `j` places. -/
def numPlaced (j : ℕ) (chunks : List Ranked) : Entry → ℕ
  | .section _ => ((matching j chunks).take 1).length
  | .group _ => (matching j chunks).length
  | _ => 0

def directives : Entry → List Action
  | .section _ | .group _ => []
  | .addr value => [.addr value]
  | .align value => [.align value]
  | .symbol name => [.symbol name]

/-- The labels of the events from the entry `j` on. -/
def labelsFrom (j : ℕ) : List Entry → List Ranked → List (ℕ × Action)
  | [], _ => []
  | e :: entries, chunks =>
    placeLabels j (chunks.take (numPlaced j chunks e)) ++ (directives e).map (j, ·) ++
      labelsFrom (j + 1) entries (chunks.drop (numPlaced j chunks e))

theorem labels_runEntries (args : Layout.Args) {j : ℕ} (entries : List Entry) {w : Walk}
    (h : w.Ready) :
    (runEntries args j entries w).map Event.label = labelsFrom j entries w.remaining := by
  induction entries generalizing j w with
  | nil => rfl
  | cons e entries ih =>
    rw [runEntries, labelsFrom, List.map_append]
    cases e with
    | «section» name =>
      have hplaces : Places j w _ (assignSection args j w) := assignSection_places h
      rw [runEntry, hplaces.labels, ih hplaces.ready, hplaces.remaining]
      exact congrArg (· ++ _) (List.append_nil _).symm
    | group name =>
      have hplaces : Places j w _ (assignGroup args j w.rest.length w) :=
        assignGroup_places h (Nat.le_refl _)
      rw [runEntry, hplaces.labels, ih hplaces.ready, hplaces.remaining]
      exact congrArg (· ++ _) (List.append_nil _).symm
    | addr value => exact congrArg _ (ih (w := { w with addr := value }) h)
    | align value => exact congrArg _ (ih (w := { w with addr := alignTo w.addr value }) h)
    | symbol name => exact congrArg _ (ih h)

section Classes

variable {chunks : List Ranked} {j : ℕ}

def classLabels (chunks : List Ranked) (p : Entry × ℕ) : List (ℕ × Action) :=
  placeLabels p.2 (chunks.filter (Ranked.hasOrder p.2)) ++ (directives p.1).map (p.2, ·)

def EntryFits (chunks : List Ranked) (p : Entry × ℕ) : Prop :=
  match p.1 with
  | .section _ => (chunks.filter (Ranked.hasOrder p.2)).length ≤ 1
  | .group _ => True
  | _ => chunks.filter (Ranked.hasOrder p.2) = []

theorem matching_eq_filter (hsorted : chunks.Pairwise fun a b => a.sectOrder ≤ b.sectOrder)
    (hle : ∀ c ∈ chunks, (j : ℤ) ≤ c.sectOrder) :
    matching j chunks = chunks.filter (Ranked.hasOrder j) :=
  takeWhile_eq_eq_filter Ranked.sectOrder hsorted hle

theorem numPlaced_eq {e : Entry} (hfits : EntryFits chunks (e, j))
    (hmatching : matching j chunks = chunks.filter (Ranked.hasOrder j)) :
    numPlaced j chunks e = (chunks.filter (Ranked.hasOrder j)).length := by
  cases e with
  | «section» name =>
    rw [numPlaced, hmatching, List.take_of_length_le hfits]
  | group name => rw [numPlaced, hmatching]
  | addr value => exact (List.length_eq_zero_iff.mpr hfits).symm
  | align value => exact (List.length_eq_zero_iff.mpr hfits).symm
  | symbol name => exact (List.length_eq_zero_iff.mpr hfits).symm

theorem classLabels_congr {rest : List Ranked} {p : Entry × ℕ}
    (h : rest.filter (Ranked.hasOrder p.2) = chunks.filter (Ranked.hasOrder p.2)) :
    classLabels rest p = classLabels chunks p := by
  rw [classLabels, classLabels, h]

variable {entries : List Entry}

theorem labelsFrom_eq (hsorted : chunks.Pairwise fun a b => a.sectOrder ≤ b.sectOrder)
    (hle : ∀ c ∈ chunks, (j : ℤ) ≤ c.sectOrder)
    (hfits : ∀ p ∈ entries.zipIdx j, EntryFits chunks p) :
    labelsFrom j entries chunks = (entries.zipIdx j).flatMap (classLabels chunks) := by
  induction entries generalizing j chunks with
  | nil => rfl
  | cons e entries ih =>
    rw [List.zipIdx_cons] at hfits ⊢
    obtain ⟨hfirst, hrest⟩ := List.forall_mem_cons.mp hfits
    have hmatching := matching_eq_filter hsorted hle
    have hnum := numPlaced_eq hfirst hmatching
    have htake : chunks.take (numPlaced j chunks e) = chunks.filter (Ranked.hasOrder j) := by
      rw [hnum, ← hmatching]
      exact (List.prefix_iff_eq_take.mp (List.takeWhile_prefix _)).symm
    have happend := List.take_append_drop (numPlaced j chunks e) chunks
    rw [htake] at happend
    -- Nothing that is left matches the entry.
    have hnone : (chunks.drop (numPlaced j chunks e)).filter (Ranked.hasOrder j) = [] := by
      have hself : (chunks.filter (Ranked.hasOrder j)).filter (Ranked.hasOrder j) =
          chunks.filter (Ranked.hasOrder j) :=
        List.filter_eq_self.mpr fun c hc => (List.mem_filter.mp hc).2
      have hlen := congrArg List.length (congrArg (List.filter (Ranked.hasOrder j)) happend)
      rw [List.filter_append, hself, List.length_append] at hlen
      exact List.length_eq_zero_iff.mp (by omega)
    have hother (i : ℕ) (hi : i ≠ j) :
        (chunks.drop (numPlaced j chunks e)).filter (Ranked.hasOrder i) =
          chunks.filter (Ranked.hasOrder i) := by
      have hempty : (chunks.filter (Ranked.hasOrder j)).filter (Ranked.hasOrder i) = [] := by
        refine List.filter_eq_nil_iff.mpr fun c hc hci => hi ?_
        have hcj := Ranked.hasOrder_iff.mp (List.mem_filter.mp hc).2
        exact Int.ofNat_inj.mp ((Ranked.hasOrder_iff.mp hci).symm.trans hcj)
      conv => rhs; rw [← happend, List.filter_append, hempty, List.nil_append]
    have hnext : ∀ p ∈ entries.zipIdx (j + 1),
        (chunks.drop (numPlaced j chunks e)).filter (Ranked.hasOrder p.2) =
          chunks.filter (Ranked.hasOrder p.2) := fun p hp =>
      hother p.2 (Nat.ne_of_gt (List.le_snd_of_mem_zipIdx hp))
    rw [labelsFrom, List.flatMap_cons, htake, ih]
    · refine congrArg₂ _ rfl (List.flatMap_congr fun p hp => ?_)
      exact classLabels_congr (hnext p hp)
    · exact hsorted.sublist (List.drop_sublist _ _)
    · intro c hc
      have hne : c.sectOrder ≠ (j : ℤ) := fun heq =>
        List.filter_eq_nil_iff.mp hnone c hc (Ranked.hasOrder_iff.mpr heq)
      have hj := hle c (List.mem_of_mem_drop hc)
      push_cast
      omega
    · intro p hp
      have hp' := hrest p hp
      unfold EntryFits at hp' ⊢
      rw [hnext p hp]
      exact hp'

theorem le_of_mem_labelsFrom {x : ℕ × Action} (h : x ∈ labelsFrom j entries chunks) : j ≤ x.1 := by
  induction entries generalizing j chunks with
  | nil => exact absurd h List.not_mem_nil
  | cons e entries ih =>
    rw [labelsFrom, List.mem_append, List.mem_append] at h
    rcases h with (h | h) | h
    · obtain ⟨c, -, rfl⟩ := List.mem_map.mp h
      exact Nat.le_refl j
    · obtain ⟨a, -, rfl⟩ := List.mem_map.mp h
      exact Nat.le_refl j
    · exact Nat.le_of_succ_le (ih h)

theorem length_labelsFrom_section_le {name : String} {i : ℕ}
    (h : (.section name, i) ∈ entries.zipIdx j) :
    ((labelsFrom j entries chunks).filter fun x => x.1 = i).length ≤ 1 := by
  induction entries generalizing j chunks with
  | nil => exact absurd h List.not_mem_nil
  | cons e entries ih =>
    rw [List.zipIdx_cons, List.mem_cons] at h
    rw [labelsFrom, List.filter_append, List.length_append]
    rcases h with h | h
    · obtain ⟨rfl, rfl⟩ := Prod.mk.inj h
      have hlater : (labelsFrom (i + 1) entries
          (chunks.drop (numPlaced i chunks (.section name)))).filter (fun x => x.1 = i) = [] :=
        List.filter_eq_nil_iff.mpr fun x hx hi =>
          Nat.ne_of_gt (le_of_mem_labelsFrom hx) (of_decide_eq_true hi)
      have hnum : numPlaced i chunks (.section name) ≤ 1 := List.length_take_le _ _
      rw [hlater, List.length_nil, Nat.add_zero]
      refine Nat.le_trans (List.length_filter_le _ _) ?_
      rw [directives, List.map_nil, List.append_nil, placeLabels, List.length_map]
      exact Nat.le_trans (List.length_take_le _ _) hnum
    · have hlt := List.le_snd_of_mem_zipIdx h
      have hfirst : (placeLabels j (chunks.take (numPlaced j chunks e)) ++
          (directives e).map (j, ·)).filter (fun x => x.1 = i) = [] := by
        refine List.filter_eq_nil_iff.mpr fun x hx hi => ?_
        have hxj : x.1 = j := by
          rcases List.mem_append.mp hx with hx | hx
          · obtain ⟨c, -, rfl⟩ := List.mem_map.mp hx
            rfl
          · obtain ⟨a, -, rfl⟩ := List.mem_map.mp hx
            rfl
        exact Nat.ne_of_gt hlt ((of_decide_eq_true hi).symm.trans hxj)
      rw [hfirst, List.length_nil, Nat.zero_add]
      exact ih h

theorem length_class_le {name : String} {i : ℕ}
    (hlabels : labelsFrom 0 entries chunks = entries.zipIdx.flatMap (classLabels chunks))
    (h : (.section name, i) ∈ entries.zipIdx) :
    (chunks.filter (Ranked.hasOrder i)).length ≤ 1 := by
  have hle : ((labelsFrom 0 entries chunks).filter fun x => x.1 = i).length ≤ 1 :=
    length_labelsFrom_section_le h
  rw [hlabels] at hle
  have hsub : (placeLabels i (chunks.filter (Ranked.hasOrder i))).Sublist
      (entries.zipIdx.flatMap (classLabels chunks)) :=
    (List.sublist_append_left _ _).trans (List.sublist_flatten_of_mem (List.mem_map_of_mem h))
  have hself : (placeLabels i (chunks.filter (Ranked.hasOrder i))).filter (fun x => x.1 = i) =
      placeLabels i (chunks.filter (Ranked.hasOrder i)) := by
    refine List.filter_eq_self.mpr fun x hx => ?_
    obtain ⟨c, -, rfl⟩ := List.mem_map.mp hx
    exact decide_eq_true rfl
  have hlen := (hsub.filter fun x => x.1 = i).length_le
  rw [hself, placeLabels, List.length_map] at hlen
  exact Nat.le_trans hlen hle

end Classes

theorem le_separateByOrder (args : Layout.Args) (addr : ℕ) (prev : Option Chunk) (c : Chunk) :
    addr ≤ separateByOrder args addr prev c := by
  have halign : addr ≤ alignUp args.page addr := le_alignUp (Nat.two_pow_pos _) addr
  unfold separateByOrder
  split
  · exact Nat.le_refl addr
  · split
    · exact Nat.le_refl addr
    · split
      · exact halign
      · split
        · exact halign
        · exact Nat.le_refl addr
      · exact Nat.le_refl addr

section Effects

variable (args : Layout.Args) {j : ℕ}

theorem takesEffect_assignAddr (w : Walk) (c : Ranked) (rest : List Ranked) :
    (assignAddr args j w c rest).1.TakesEffect w.addr ∧
      (assignAddr args j w c rest).1.stop = (assignAddr args j w c rest).2.addr := by
  refine ⟨⟨?_, dvd_alignUp _ _⟩, (addr_skipNonalloc _ _ _).symm⟩
  exact Nat.le_trans (le_separateByOrder args w.addr w.prev c.chunk)
    (le_alignUp (Nat.two_pow_pos _) _)

variable {events : List Event}

theorem takeEffect_assignGroup {n : ℕ} {w : Walk}
    (h : TakeEffect (assignGroup args j n w).2.addr events) :
    TakeEffect w.addr ((assignGroup args j n w).1 ++ events) := by
  induction n generalizing w with
  | zero => exact h
  | succ n ih =>
    rw [assignGroup] at h ⊢
    split
    case h_1 hrest =>
      simp only [hrest] at h
      exact h
    case h_2 c rest hrest =>
      simp only [hrest] at h
      split
      case isTrue hj =>
        rw [if_pos hj] at h
        obtain ⟨heffect, hstop⟩ := takesEffect_assignAddr args (j := j) w c rest
        exact ⟨heffect, hstop ▸ ih h⟩
      case isFalse hj =>
        rw [if_neg hj] at h
        exact h

theorem takeEffect_runEntry (e : Entry) {w : Walk}
    (h : TakeEffect (runEntry args j e w).2.addr events) :
    TakeEffect w.addr ((runEntry args j e w).1 ++ events) := by
  cases e with
  | «section» name =>
    rw [runEntry, assignSection] at h ⊢
    split
    case h_1 hrest =>
      simp only [hrest] at h
      exact h
    case h_2 c rest hrest =>
      simp only [hrest] at h
      split
      case isTrue hj =>
        rw [if_pos hj] at h
        obtain ⟨heffect, hstop⟩ := takesEffect_assignAddr args (j := j) w c rest
        exact ⟨heffect, hstop ▸ h⟩
      case isFalse hj =>
        rw [if_neg hj] at h
        exact h
  | group name => exact takeEffect_assignGroup args h
  | addr value => exact ⟨rfl, h⟩
  | align value => exact ⟨rfl, h⟩
  | symbol name => exact ⟨rfl, h⟩

theorem takeEffect_runEntries (entries : List Entry) (w : Walk) :
    TakeEffect w.addr (runEntries args j entries w) := by
  induction entries generalizing j w with
  | nil => trivial
  | cons e entries ih => exact takeEffect_runEntry args e (ih _)

end Effects

/-! ## The chunks of an output -/

theorem findEntry_eq_some {entries : List Entry} {c : Chunk} {i : ℕ}
    (h : findEntry entries c = some i) :
    entries[i]? = some (.section c.name) ∨
      entries[i]? = some (.group (getSectionOrderGroup c)) := by
  have hget {e : Entry} (h : entries.findIdx? (· = e) = some i) : entries[i]? = some e := by
    obtain ⟨hi, he, -⟩ := List.findIdx?_eq_some_iff_getElem.mp h
    rw [List.getElem?_eq_getElem hi]
    exact congrArg some (of_decide_eq_true he)
  rw [findEntry, Option.or_eq_some_iff] at h
  exact h.imp hget fun h => hget h.2

theorem exists_findEntry {entries : List Entry} {name : String} (h : .section name ∈ entries) :
    ∃ i, entries[i]? = some (.section name) ∧
      ∀ c : Chunk, c.name = name → findEntry entries c = some i := by
  obtain ⟨i, hi⟩ := Option.isSome_iff_exists.mp
    (@List.findIdx?_isSome _ entries (· = Entry.section name) ▸
      List.any_eq_true.mpr ⟨_, h, decide_eq_true rfl⟩)
  obtain ⟨hlt, he, -⟩ := List.findIdx?_eq_some_iff_getElem.mp hi
  refine ⟨i, ?_, fun c hc => ?_⟩
  · rw [List.getElem?_eq_getElem hlt]
    exact congrArg some (of_decide_eq_true he)
  · rw [findEntry, hc, hi]
    rfl

namespace Chunks

variable {chunks : Chunks} {entries : List Entry} {sorted : List Ranked}

theorem getRank_eq {c : Chunk} (hc : c ∈ chunks.list) (halloc : c.isAlloc = true) :
    getRank entries c = (findEntry entries c).map fun i : ℕ => (i : ℤ) := by
  have hkind : c.kind ≠ .shdr := fun hkind => by
    have hnot := chunks.shdr_isAlloc c hc hkind
    rw [halloc] at hnot
    cases hnot
  simp [getRank, halloc, hkind]

theorem getRank_eq_some_iff {c : Chunk} (hc : c ∈ chunks.list) (halloc : c.isAlloc = true)
    {i : ℕ} : getRank entries c = some (i : ℤ) ↔ findEntry entries c = some i := by
  rw [getRank_eq hc halloc, Option.map_eq_some_iff]
  exact ⟨fun ⟨k, hk, heq⟩ => Int.ofNat_inj.mp heq ▸ hk, fun h => ⟨i, h, rfl⟩⟩

theorem exists_ranked (h : sortOutputSectionsByOrder entries chunks.list = some sorted) :
    ∃ ranked : List Ranked, sorted = ranked.mergeSort (fun a b => a.sectOrder ≤ b.sectOrder) ∧
      ranked.map Ranked.chunk = chunks.list ∧
      ∀ c ∈ ranked, getRank entries c.chunk = some c.sectOrder := by
  rw [sortOutputSectionsByOrder, Option.map_eq_some_iff] at h
  obtain ⟨ranked, hranked, hsorted⟩ := h
  refine ⟨ranked, hsorted.symm, ?_, fun c hc => ?_⟩
  · refine (map_of_mapM_eq_some (k := id) (fun c x hx => ?_) hranked).trans (List.map_id _)
    obtain ⟨rank, -, rfl⟩ := Option.map_eq_some_iff.mp hx
    rfl
  · obtain ⟨d, -, hd⟩ := (mem_of_mapM_eq_some hranked).mp hc
    obtain ⟨rank, hrank, rfl⟩ := Option.map_eq_some_iff.mp hd
    exact hrank

theorem class_eq (h : sortOutputSectionsByOrder entries chunks.list = some sorted) (j : ℕ) :
    ((sorted.filter Ranked.isAlloc).filter (Ranked.hasOrder j)).map Ranked.chunk =
      chunks.list.filter fun c => c.isAlloc && getRank entries c = some (j : ℤ) := by
  obtain ⟨ranked, rfl, hmap, hrank⟩ := exists_ranked h
  have hclass : (ranked.mergeSort fun a b => a.sectOrder ≤ b.sectOrder).filter
      (Ranked.hasOrder j) = ranked.filter (Ranked.hasOrder j) :=
    filter_mergeSort_key Ranked.sectOrder ranked (j : ℤ)
  rw [List.filter_comm, hclass, ← hmap, List.filter_map, List.filter_filter]
  refine congrArg _ (List.filter_congr fun c hc => ?_)
  rw [Function.comp_apply, hrank c hc, Ranked.hasOrder, Ranked.isAlloc]
  exact congrArg _ (decide_eq_decide.mpr Option.some_inj.symm)

theorem class_length_le (h : sortOutputSectionsByOrder entries chunks.list = some sorted)
    {j : ℕ} {p : Chunk → Bool}
    (hp : ∀ c ∈ chunks.list, c.isAlloc = true → findEntry entries c = some j → p c = true) :
    ((sorted.filter Ranked.isAlloc).filter (Ranked.hasOrder j)).length ≤
      (chunks.list.filter fun c => c.isAlloc && p c).length := by
  rw [← List.length_map Ranked.chunk, class_eq h, ← List.countP_eq_length_filter,
    ← List.countP_eq_length_filter]
  refine List.countP_mono_left fun c hc hclass => ?_
  obtain ⟨halloc, hrank⟩ := (Bool.and_eq_true _ _).mp hclass
  rw [halloc, Bool.true_and]
  exact hp c hc halloc ((getRank_eq_some_iff hc halloc).mp (of_decide_eq_true hrank))

theorem class_eq_nil (h : sortOutputSectionsByOrder entries chunks.list = some sorted)
    {e : Entry} {j : ℕ} (he : entries[j]? = some e) (hdir : directives e ≠ []) :
    (sorted.filter Ranked.isAlloc).filter (Ranked.hasOrder j) = [] := by
  have hnone : ∀ c ∈ chunks.list, c.isAlloc = true → findEntry entries c = some j →
      false = true := by
    intro c hc halloc hfind
    rcases findEntry_eq_some hfind with hget | hget
    · cases Option.some.inj (he.symm.trans hget)
      exact absurd rfl hdir
    · cases Option.some.inj (he.symm.trans hget)
      exact absurd rfl hdir
  refine List.length_eq_zero_iff.mp (Nat.le_zero.mp ?_)
  refine Nat.le_trans (class_length_le h (p := fun _ => false) hnone) ?_
  simp

theorem actions_eq (h : sortOutputSectionsByOrder entries chunks.list = some sorted) :
    actions entries chunks.list =
      entries.zipIdx.flatMap (classLabels (sorted.filter Ranked.isAlloc)) := by
  refine List.flatMap_congr fun p hp => ?_
  have he : entries[p.2]? = some p.1 := List.mem_zipIdx_iff_getElem?.mp hp
  obtain ⟨e, j⟩ := p
  rw [classLabels, placeLabels]
  cases e with
  | «section» name =>
    rw [actionsOf, ← class_eq h, List.map_map, List.map_map]
    exact (List.append_nil _).symm
  | group name =>
    rw [actionsOf, ← class_eq h, List.map_map, List.map_map]
    exact (List.append_nil _).symm
  | addr value => rw [class_eq_nil h he (List.cons_ne_nil _ _)]; rfl
  | align value => rw [class_eq_nil h he (List.cons_ne_nil _ _)]; rfl
  | symbol name => rw [class_eq_nil h he (List.cons_ne_nil _ _)]; rfl

theorem pairwise_sorted (h : sortOutputSectionsByOrder entries chunks.list = some sorted) :
    (sorted.filter Ranked.isAlloc).Pairwise fun a b => a.sectOrder ≤ b.sectOrder := by
  obtain ⟨ranked, rfl, -, -⟩ := exists_ranked h
  exact (pairwise_mergeSort_key Ranked.sectOrder ranked).filter _

theorem exists_sectOrder (h : sortOutputSectionsByOrder entries chunks.list = some sorted)
    {c : Ranked} (hc : c ∈ sorted.filter Ranked.isAlloc) :
    ∃ i < entries.length, c.sectOrder = (i : ℤ) := by
  obtain ⟨ranked, hsorted, hmap, hrank⟩ := exists_ranked h
  obtain ⟨hmem, halloc⟩ := List.mem_filter.mp hc
  rw [hsorted] at hmem
  have hmem := (List.mergeSort_perm ranked _).mem_iff.mp hmem
  have hchunk : c.chunk ∈ chunks.list := hmap ▸ List.mem_map_of_mem hmem
  have hc := hrank c hmem
  rw [getRank_eq hchunk halloc, Option.map_eq_some_iff] at hc
  obtain ⟨i, hi, heq⟩ := hc
  refine ⟨i, ?_, heq.symm⟩
  rcases findEntry_eq_some hi with hget | hget
  · exact (List.getElem?_eq_some_iff.mp hget).1
  · exact (List.getElem?_eq_some_iff.mp hget).1

theorem placed_actions (h : sortOutputSectionsByOrder entries chunks.list = some sorted) :
    ((actions entries chunks.list).filterMap fun x => Event.placed ⟨x.1, x.2, 0⟩).Perm
      (chunks.list.filter Chunk.isAlloc) := by
  obtain ⟨ranked, hsorted, hmap, hrank⟩ := exists_ranked h
  have hplaced (p : Entry × ℕ) : (classLabels (sorted.filter Ranked.isAlloc) p).filterMap
      (fun x => Event.placed ⟨x.1, x.2, 0⟩) =
        ((sorted.filter Ranked.isAlloc).filter fun c => c.sectOrder.toNat = p.2).map
          Ranked.chunk := by
    have hdir : ((directives p.1).map (p.2, ·)).filterMap
        (fun x => Event.placed ⟨x.1, x.2, 0⟩) = [] := by
      cases p.1 <;> rfl
    have hsome : ((fun x : ℕ × Action => Event.placed ⟨x.1, x.2, 0⟩) ∘
        fun c : Ranked => (p.2, Action.place c.chunk)) = some ∘ Ranked.chunk := rfl
    rw [classLabels, List.filterMap_append, hdir, List.append_nil, placeLabels,
      List.filterMap_map, hsome, List.filterMap_eq_map]
    refine congrArg _ (List.filter_congr fun c hc => ?_)
    obtain ⟨i, -, hi⟩ := exists_sectOrder h hc
    rw [Ranked.hasOrder, hi, Int.toNat_natCast]
    exact decide_eq_decide.mpr Int.ofNat_inj
  have hclasses := @flatMap_range_filter _ _ (fun c : Ranked => c.sectOrder.toNat)
    ((pairwise_sorted h).imp Int.toNat_le_toNat) entries.length fun c hc => by
      obtain ⟨i, hi, heq⟩ := exists_sectOrder h hc
      rw [heq, Int.toNat_natCast]
      exact hi
  have hall : (sorted.filter Ranked.isAlloc).Perm (ranked.filter Ranked.isAlloc) := by
    rw [hsorted]
    exact (List.mergeSort_perm ranked _).filter _
  have hchunks : (ranked.filter Ranked.isAlloc).map Ranked.chunk =
      chunks.list.filter Chunk.isAlloc := by
    rw [← hmap, List.filter_map]
    rfl
  rw [actions_eq h, List.filterMap_flatMap, List.flatMap_congr fun p _ => hplaced p,
    ← List.flatMap_map Prod.snd fun j => ((sorted.filter Ranked.isAlloc).filter fun c =>
      c.sectOrder.toNat = j).map Ranked.chunk, List.zipIdx_map_snd, ← List.range_eq_range',
    ← List.map_flatMap, hclasses, ← hchunks]
  exact hall.map Ranked.chunk

theorem entryFits_of_unique (h : sortOutputSectionsByOrder entries chunks.list = some sorted)
    (hunique : SectionsUnique entries chunks.list) {p : Entry × ℕ} (hp : p ∈ entries.zipIdx) :
    EntryFits (sorted.filter Ranked.isAlloc) p := by
  have he : entries[p.2]? = some p.1 := List.mem_zipIdx_iff_getElem?.mp hp
  obtain ⟨e, j⟩ := p
  cases e with
  | «section» name =>
    refine Nat.le_trans (class_length_le h fun c _ _ hfind => ?_)
      (hunique name (List.mem_of_getElem? he))
    rcases findEntry_eq_some hfind with hget | hget
    · exact decide_eq_true (Entry.section.inj (Option.some.inj (hget.symm.trans he)))
    · cases Option.some.inj (hget.symm.trans he)
  | group name => trivial
  | addr value => exact class_eq_nil h he (List.cons_ne_nil _ _)
  | align value => exact class_eq_nil h he (List.cons_ne_nil _ _)
  | symbol name => exact class_eq_nil h he (List.cons_ne_nil _ _)

theorem labels_setVirtualAddressesByOrder (args : Layout.Args) (entries : List Entry)
    (sorted : List Ranked) :
    (setVirtualAddressesByOrder args entries sorted).map Event.label =
      labelsFrom 0 entries (sorted.filter Ranked.isAlloc) := by
  rw [setVirtualAddressesByOrder, labels_runEntries args entries (skipNonalloc_ready _ _ _),
    remaining_skipNonalloc]

theorem sectionsUnique_of_placed {args : Layout.Args}
    (h : sortOutputSectionsByOrder entries chunks.list = some sorted)
    (hplaced : PlacedByOrder args entries chunks.list
      (setVirtualAddressesByOrder args entries sorted)) :
    SectionsUnique entries chunks.list := by
  intro name hname
  obtain ⟨i, hi, hfind⟩ := exists_findEntry hname
  have hlabels := (labels_setVirtualAddressesByOrder args entries sorted).symm.trans
    (hplaced.inOrder.trans (actions_eq h))
  have hclass := length_class_le hlabels (List.mem_zipIdx_iff_getElem?.mpr hi)
  refine Nat.le_trans ?_ hclass
  rw [← List.length_map Ranked.chunk, class_eq h, ← List.countP_eq_length_filter,
    ← List.countP_eq_length_filter]
  refine List.countP_mono_left fun c hc hcname => ?_
  obtain ⟨halloc, hcname⟩ := (Bool.and_eq_true _ _).mp hcname
  rw [halloc, Bool.true_and]
  exact decide_eq_true ((getRank_eq_some_iff hc halloc).mpr (hfind c (of_decide_eq_true hcname)))

/-- `set_virtual_addresses_by_order` places every chunk with memory once, and the other
entries take effect in between, exactly if no name of a `SECTION` entry is shared by chunks
with memory. -/
theorem placedByOrder_iff (args : Layout.Args) (chunks : Chunks)
    (h : sortOutputSectionsByOrder entries chunks.list = some sorted) :
    PlacedByOrder args entries chunks.list (setVirtualAddressesByOrder args entries sorted) ↔
      SectionsUnique entries chunks.list := by
  refine ⟨sectionsUnique_of_placed h, fun hunique => ?_⟩
  have horder : (setVirtualAddressesByOrder args entries sorted).map Event.label =
      actions entries chunks.list := by
    rw [labels_setVirtualAddressesByOrder, actions_eq h]
    refine labelsFrom_eq (pairwise_sorted h) (fun c hc => ?_) fun p hp =>
      entryFits_of_unique h hunique hp
    obtain ⟨i, -, hi⟩ := exists_sectOrder h hc
    rw [hi]
    exact Int.natCast_nonneg i
  refine ⟨?_, horder, ?_⟩
  · have hplaced := placed_actions h
    rw [← horder, List.filterMap_map] at hplaced
    exact hplaced
  · have heffects := takeEffect_runEntries args (j := 0) entries
      (skipNonalloc args.imageBase none sorted)
    rw [addr_skipNonalloc] at heffects
    exact heffects

end Chunks

/-- `.fn` behind a symbol, and then the other code. -/
def fnFirst : List Entry := [.addr 0x200000, .symbol "fn_start", .section ".fn", .group "TEXT"]

/-- A program with `.fn` and `.text`. -/
def oneFn : Chunks where
  list := [{ name := ".text", isExec := true, size := 16 },
    { name := ".fn", isExec := true, size := 8 }, { name := ".comment", isAlloc := false, size := 4 }]
  shdr_isAlloc := by decide

theorem placedByOrder_oneFn :
    ∃ sorted, sortOutputSectionsByOrder fnFirst oneFn.list = some sorted ∧
      PlacedByOrder {} fnFirst oneFn.list (setVirtualAddressesByOrder {} fnFirst sorted) := by
  refine ⟨_, rfl, (Chunks.placedByOrder_iff {} oneFn rfl).mpr fun name hname => ?_⟩
  obtain rfl : name = ".fn" := by simpa [fnFirst] using hname
  decide

/-- A part of `.fn` has flags of its own, so there are two output sections of the name. -/
def twoFns : Chunks where
  list := [{ name := ".fn", isExec := true, size := 8 },
    { name := ".fn", isExec := true, isWrite := true, size := 8 },
    { name := ".text", isExec := true, size := 16 }]
  shdr_isAlloc := by decide

/-- The cursor stays at the second `.fn`, and neither it nor `.text` gets an address. -/
theorem not_placedByOrder_twoFns :
    ∃ sorted, sortOutputSectionsByOrder fnFirst twoFns.list = some sorted ∧
      ¬ PlacedByOrder {} fnFirst twoFns.list (setVirtualAddressesByOrder {} fnFirst sorted) := by
  refine ⟨_, rfl, fun hplaced => ?_⟩
  exact absurd (Chunks.sectionsUnique_of_placed rfl hplaced ".fn" (by decide)) (by decide)

end Mold.Elf.OrderedLayout
