import Mold.Elf.OutputLayout

/-!
# Addresses of chunks

The addresses of an output are first computed as natural numbers.  These are the addresses that
the chunks get as long as they are in the address space.

Addresses only go up until the next one is given by the user.  So the chunks fall into
groups, and the chunks of one group are apart.  With `-z separate-loadable-segments` they
are on different pages if they have different protection.
-/

namespace Mold.Elf.Layout

open Lib

/-! ## Ideal addresses -/

namespace Cursor

variable (args : Args)

def idealSeparate (st : Cursor) (c : Chunk) : ℕ :=
  match st.prev with
  | none => st.addr
  | some prev =>
    if prev.kind = .relroPadding || prev.getFlags args = c.getFlags args then st.addr
    else
      match args.separateCode with
      | .loadableSegments => alignUp args.page st.addr
      | .code =>
        if (prev.toPhdrFlags args).exec ≠ (c.toPhdrFlags args).exec then
          alignUp args.page st.addr
        else if st.addr % args.page ≠ 0 then st.addr + args.page
        else st.addr
      | .noSeparate =>
        if st.addr % args.page ≠ 0 then st.addr + args.page else st.addr

def idealTbss (tlsP2 : ℕ) (st : Cursor) (addr addr2 : ℕ) (c : Chunk) (l : List Chunk) :
    Option (Chunk × Cursor) :=
  let addr2 := alignUp (st.alignment tlsP2 c) addr2
  match l with
  | [] => none
  | [_] => some ({ c with addr := addr2 }, st.next c addr)
  | d :: _ =>
    some ({ c with addr := addr2 },
      { st.next c addr with tbss := if d.isTbss then some (addr2 + c.size) else none })

def idealPlace (tlsP2 : ℕ) (st : Cursor) (c : Chunk) (l : List Chunk) : Option (Chunk × Cursor) :=
  match st.tbss with
  | some addr2 => st.idealTbss tlsP2 st.addr addr2 c l
  | none =>
    if !c.isAlloc then some (c, st.next c st.addr)
    else if c.kind = .relroPadding then
      let size := alignUp args.page st.addr - st.addr
      some ({ c with addr := st.addr, size := args.word size }, st.next c (st.addr + args.page))
    else
      match args.sectionStart c.name with
      | some addr => some ({ c with addr := addr }, st.next c (addr + c.size))
      | none =>
        let addr := st.idealSeparate args c
        if c.isTbss then st.idealTbss tlsP2 addr addr c l
        else
          let addr := alignUp (st.alignment tlsP2 c) addr
          some ({ c with addr := addr }, st.next c (addr + c.size))

end Cursor

variable (args : Args)

def idealRegular (tlsP2 : ℕ) : Cursor → List Chunk → Option (List Chunk)
  | _, [] => some []
  | st, c :: l =>
    match st.idealPlace args tlsP2 c l with
    | none => none
    | some (c, st) => (idealRegular tlsP2 st l).map (c :: ·)

def idealAlign (addr align : ℕ) : ℕ :=
  if align = 0 then addr else addr + (align - 1) - ((addr + (align - 1)) &&& (align - 1))

def idealByOrder (j : ℕ) (ords : List SectionOrder) (addr : ℕ) (prev : Option Chunk)
    (chunks : List Chunk) : List Chunk :=
  match chunks with
  | [] => []
  | c :: l =>
    if !c.isAlloc then c :: idealByOrder j ords addr (some c) l
    else
      match ords with
      | [] => c :: l
      | .section :: rest =>
        if c.sectOrder = j then
          { c with addr := addrByOrder args addr prev c } ::
            idealByOrder (j + 1) rest (addrByOrder args addr prev c + c.size) (some c) l
        else idealByOrder (j + 1) rest addr prev (c :: l)
      | .group :: rest =>
        if c.sectOrder = j then
          { c with addr := addrByOrder args addr prev c } ::
            idealByOrder j (.group :: rest) (addrByOrder args addr prev c + c.size) (some c) l
        else idealByOrder (j + 1) rest addr prev (c :: l)
      | .addr value :: rest => idealByOrder (j + 1) rest value prev (c :: l)
      | .align value :: rest =>
        idealByOrder (j + 1) rest (idealAlign addr (u64 value)) prev (c :: l)
      | .symbol :: rest => idealByOrder (j + 1) rest addr prev (c :: l)
termination_by ords.length + chunks.length

/-- The addresses of `set_virtual_addresses` if none is cut. -/
def idealAddresses (chunks : List Chunk) : Option (List Chunk) :=
  if args.sectionOrder = [] then
    idealRegular args (tlsP2align chunks) { addr := args.imageBase } chunks
  else some (idealByOrder args 0 args.sectionOrder args.imageBase none chunks)

/-! ## Groups -/

def startsGroup (prev : Option Chunk) (c : Chunk) : Bool :=
  c.isAlloc &&
    ((args.sectionStart c.name).isSome ||
      match prev with
      | none => false
      | some prev =>
        prev.isTbss && c.isTbss && prev.toPhdrFlags args ≠ c.toPhdrFlags args)

/-- The numbers of the groups of `set_virtual_addresses_regular`. -/
def groupsRegular : ℕ → Option Chunk → List Chunk → List ℕ
  | _, _, [] => []
  | n, prev, c :: l =>
    let n := if startsGroup args prev c then n + 1 else n
    n :: groupsRegular n (some c) l

/-- The numbers of the groups of `set_virtual_addresses_by_order`.  The chunks that do not
get an address are groups of their own. -/
def groupsByOrder (j : ℕ) (ords : List SectionOrder) (n : ℕ) (chunks : List Chunk) : List ℕ :=
  match chunks with
  | [] => []
  | c :: l =>
    if !c.isAlloc then n :: groupsByOrder j ords n l
    else
      match ords with
      | [] => List.range' (n + 1) (l.length + 1)
      | .section :: rest =>
        if c.sectOrder = j then n :: groupsByOrder (j + 1) rest n l
        else groupsByOrder (j + 1) rest n (c :: l)
      | .group :: rest =>
        if c.sectOrder = j then n :: groupsByOrder j (.group :: rest) n l
        else groupsByOrder (j + 1) rest n (c :: l)
      | .addr _ :: rest => groupsByOrder (j + 1) rest (n + 1) (c :: l)
      | .align _ :: rest => groupsByOrder (j + 1) rest n (c :: l)
      | .symbol :: rest => groupsByOrder (j + 1) rest n (c :: l)
termination_by ords.length + chunks.length

def groups (chunks : List Chunk) : List ℕ :=
  if args.sectionOrder = [] then groupsRegular args 0 none chunks
  else groupsByOrder 0 args.sectionOrder 0 chunks

/-- Two chunks of a group are apart, and on different pages if they need to be. -/
def Apart (x y : ℕ × Chunk) : Prop :=
  x.1 = y.1 → x.2.isMapped = true → y.2.isMapped = true →
    x.2.endAddr ≤ y.2.addr ∧
      (args.separateCode = .loadableSegments →
        x.2.toPhdrFlags args ≠ y.2.toPhdrFlags args → alignUp args.page x.2.endAddr ≤ y.2.addr)

def AllocFirst (chunks : List Chunk) : Prop :=
  chunks.Pairwise fun c d => d.isAlloc = true → c.isAlloc = true

def AllocTogether (chunks : List Chunk) : Prop :=
  ((chunks.map Chunk.isAlloc).dropWhile (!·)).Pairwise fun a b => b = true → a = true

variable {c : Chunk} {l : List Chunk}

theorem AllocTogether.tail (h : AllocTogether (c :: l)) :
    AllocTogether l ∧ (c.isAlloc = true → AllocFirst l) := by
  rw [AllocTogether, List.map_cons] at h
  cases halloc : c.isAlloc with
  | false =>
    rw [halloc, List.dropWhile_cons_of_pos rfl] at h
    exact ⟨h, fun h => absurd h Bool.false_ne_true⟩
  | true =>
    rw [halloc, List.dropWhile_cons_of_neg (by decide)] at h
    have hl := (List.pairwise_cons.mp h).2
    exact ⟨hl.sublist (List.dropWhile_sublist _), fun _ => List.pairwise_map.mp hl⟩

/-- The lowest address for a chunk with some protection, where `addr` is the next address
and `prev` the chunk before. -/
def lowest (addr : ℕ) (prev : Chunk) (flags : Prot) : ℕ :=
  if args.separateCode = .loadableSegments ∧ prev.toPhdrFlags args ≠ flags then
    alignUp args.page addr
  else addr

variable {args}

theorem page_pos : 0 < args.page := Nat.two_pow_pos _

theorem align_pos (c : Chunk) : 0 < c.align := Nat.two_pow_pos _

theorem le_lowest (addr : ℕ) (prev : Chunk) (flags : Prot) :
    addr ≤ lowest args addr prev flags := by
  rw [lowest]
  split
  · exact le_alignUp page_pos addr
  · exact Nat.le_refl addr

theorem lowest_le_lowest {addr addr' : ℕ} {prev c : Chunk} (flags : Prot)
    (h : lowest args addr prev (c.toPhdrFlags args) ≤ addr') :
    lowest args addr prev flags ≤ lowest args addr' c flags := by
  have hle : addr ≤ addr' := Nat.le_trans (le_lowest addr prev _) h
  by_cases hc : c.toPhdrFlags args = flags
  · rw [hc] at h
    exact Nat.le_trans h (le_lowest addr' c flags)
  · have haddr : lowest args addr prev flags ≤ lowest args addr' prev flags := by
      rw [lowest, lowest]
      split
      · exact alignUp_mono _ hle
      · exact hle
    refine Nat.le_trans haddr ?_
    rw [lowest, lowest]
    by_cases hmode : args.separateCode = .loadableSegments
    · rw [if_pos (And.intro hmode hc)]
      split
      · exact Nat.le_refl _
      · exact le_alignUp page_pos addr'
    · rw [if_neg fun h => hmode h.1, if_neg fun h => hmode h.1]

theorem apart_of_lowest_le {n : ℕ} {y : ℕ × Chunk} (addr : ℕ)
    (hend : c.isMapped = true → c.endAddr ≤ addr)
    (hle : y.1 = n → y.2.isMapped = true →
      lowest args addr c (y.2.toPhdrFlags args) ≤ y.2.addr) : Apart args (n, c) y := by
  intro hgroup hc hy
  have hbound := hle hgroup.symm hy
  refine ⟨Nat.le_trans (hend hc) (Nat.le_trans (le_lowest _ _ _) hbound),
    fun hmode hflags => ?_⟩
  rw [lowest, if_pos ⟨hmode, hflags⟩] at hbound
  exact Nat.le_trans (alignUp_mono _ (hend hc)) hbound

/-! ## One chunk -/

/-- What is the same for a chunk before and after it is placed. -/
def Chunk.shape (c : Chunk) : Chunk := { c with size := 0, addr := 0, offset := 0 }

theorem toPhdrFlags_of_shape {c d : Chunk} (h : c.shape = d.shape) :
    c.toPhdrFlags args = d.toPhdrFlags args := by
  have hflags : c.shape.toPhdrFlags args = d.shape.toPhdrFlags args := by rw [h]
  exact hflags

theorem isMapped_of_shape {c d : Chunk} (h : c.shape = d.shape) : c.isMapped = d.isMapped := by
  have hmapped : c.shape.isMapped = d.shape.isMapped := by rw [h]
  exact hmapped

variable {tlsP2 : ℕ}

namespace Cursor

theorem idealTbss_eq {st : Cursor} {addr addr2 : ℕ}
    {p : Chunk × Cursor} (h : st.idealTbss tlsP2 addr addr2 c l = some p) :
    p.1 = { c with addr := alignUp (st.alignment tlsP2 c) addr2 } ∧
      p.2.prev = some c ∧ p.2.addr = addr ∧ p.2.seenTls = (st.seenTls || c.isTls) ∧
      (p.2.tbss ≠ none → ∃ d rest, l = d :: rest ∧ d.isTbss = true) := by
  rcases l with _ | ⟨d, _ | ⟨e, rest⟩⟩
  · cases h
  · obtain rfl := Option.some.inj h
    exact ⟨rfl, rfl, rfl, rfl, fun h => absurd rfl h⟩
  · obtain rfl := Option.some.inj h
    refine ⟨rfl, rfl, rfl, rfl, fun h => ⟨d, _, rfl, ?_⟩⟩
    by_contra hd
    simp [hd] at h

theorem lowest_le_idealSeparate {st : Cursor} {prev c : Chunk} (hprev : st.prev = some prev)
    (hrelro : args.separateCode = .loadableSegments → prev.kind ≠ .relroPadding) :
    lowest args st.addr prev (c.toPhdrFlags args) ≤ st.idealSeparate args c := by
  have hle : st.addr ≤ alignUp args.page st.addr := le_alignUp page_pos _
  rw [lowest, idealSeparate, hprev]
  simp only [Bool.or_eq_true, decide_eq_true_eq]
  by_cases hsame : prev.kind = .relroPadding ∨ prev.getFlags args = c.getFlags args
  · have hno : ¬ (args.separateCode = .loadableSegments ∧
        prev.toPhdrFlags args ≠ c.toPhdrFlags args) := by
      rintro ⟨hmode, hflags⟩
      rcases hsame with hkind | hsame
      · exact hrelro hmode hkind
      · exact hflags (congrArg Prod.fst hsame)
    rw [if_neg hno, if_pos hsame]
  · rw [if_neg hsame]
    cases args.separateCode with
    | loadableSegments =>
      split
      · exact Nat.le_refl _
      · exact hle
    | code =>
      rw [if_neg (by simp)]
      simp only
      split
      · exact hle
      · split <;> omega
    | noSeparate =>
      rw [if_neg (by simp)]
      simp only
      split <;> omega

theorem alignment_pos (st : Cursor) (c : Chunk) : 0 < st.alignment tlsP2 c := by
  rw [alignment]
  split
  · exact Nat.two_pow_pos _
  · exact align_pos c

variable {st st' : Cursor} {c c' : Chunk}

theorem idealPlace_cases (h : st.idealPlace args tlsP2 c l = some (c', st')) :
    (∃ addr2, (st.tbss = some addr2 ∧ st'.addr = st.addr ∨
        st.tbss = none ∧ c.isAlloc = true ∧ c.isTbss = true ∧
          args.sectionStart c.name = none ∧ addr2 = st.idealSeparate args c ∧
          st'.addr = st.idealSeparate args c) ∧
      st.idealTbss tlsP2 st'.addr addr2 c l = some (c', st')) ∨
    (st.tbss = none ∧ c.isAlloc = false ∧ c' = c ∧ st' = st.next c st.addr) ∨
    (st.tbss = none ∧ c.isAlloc = true ∧ c.kind = .relroPadding ∧
      c' = { c with addr := st.addr, size := args.word (alignUp args.page st.addr - st.addr) } ∧
      st' = st.next c (st.addr + args.page)) ∨
    (st.tbss = none ∧ c.isAlloc = true ∧ ∃ addr, args.sectionStart c.name = some addr ∧
      c' = { c with addr := addr } ∧ st' = st.next c (addr + c.size)) ∨
    (st.tbss = none ∧ c.isAlloc = true ∧ c.isTbss = false ∧ args.sectionStart c.name = none ∧
      c' = { c with addr := alignUp (st.alignment tlsP2 c) (st.idealSeparate args c) } ∧
      st' = st.next c (alignUp (st.alignment tlsP2 c) (st.idealSeparate args c) + c.size)) := by
  rw [idealPlace] at h
  split at h
  · have heq := idealTbss_eq h
    refine .inl ⟨_, .inl ⟨‹_›, heq.2.2.1⟩, ?_⟩
    rw [heq.2.2.1]
    exact h
  · split at h
    case isTrue halloc =>
      obtain ⟨rfl, rfl⟩ := Prod.mk.inj (Option.some.inj h)
      exact .inr (.inl ⟨‹_›, by simpa using halloc, rfl, rfl⟩)
    case isFalse halloc =>
      have halloc : c.isAlloc = true := by simpa using halloc
      split at h
      case isTrue hkind =>
        obtain ⟨rfl, rfl⟩ := Prod.mk.inj (Option.some.inj h)
        exact .inr (.inr (.inl ⟨‹_›, halloc, hkind, rfl, rfl⟩))
      case isFalse =>
        split at h
        case h_1 addr hstart =>
          obtain ⟨rfl, rfl⟩ := Prod.mk.inj (Option.some.inj h)
          exact .inr (.inr (.inr (.inl ⟨‹_›, halloc, addr, hstart, rfl, rfl⟩)))
        case h_2 hstart =>
          simp only at h
          split at h
          case isTrue htbss =>
            have heq := idealTbss_eq h
            refine .inl ⟨_, .inr ⟨‹_›, halloc, htbss, hstart, rfl, heq.2.2.1⟩, ?_⟩
            rw [heq.2.2.1]
            exact h
          case isFalse htbss =>
            obtain ⟨rfl, rfl⟩ := Prod.mk.inj (Option.some.inj h)
            exact .inr (.inr (.inr (.inr ⟨‹_›, halloc, by simpa using htbss, hstart, rfl, rfl⟩)))

theorem idealPlace_shape (h : st.idealPlace args tlsP2 c l = some (c', st')) :
    c'.shape = c.shape ∧ st'.prev = some c ∧ st'.seenTls = (st.seenTls || c.isTls) := by
  rcases idealPlace_cases h with ⟨addr2, -, htbss⟩ | ⟨-, -, rfl, rfl⟩ | ⟨-, -, -, rfl, rfl⟩ |
    ⟨-, -, addr, -, rfl, rfl⟩ | ⟨-, -, -, -, rfl, rfl⟩
  · obtain ⟨hc, hprev, -, hseen, -⟩ := idealTbss_eq htbss
    simp only at hc hprev hseen
    exact ⟨by rw [hc]; rfl, hprev, hseen⟩
  all_goals exact ⟨rfl, rfl, rfl⟩

/-- While the loop over TLS bss chunks runs, the chunk before is one and the next too. -/
def InTbss (st : Cursor) (l : List Chunk) : Prop :=
  st.tbss ≠ none →
    (∃ prev, st.prev = some prev ∧ prev.isTbss = true) ∧ ∃ c rest, l = c :: rest ∧ c.isTbss = true

theorem InTbss.idealPlace
    (hmode : st.InTbss (c :: l)) (h : st.idealPlace args tlsP2 c l = some (c', st')) :
    st'.InTbss l := by
  rcases idealPlace_cases h with ⟨addr2, haddr, htbss⟩ | ⟨-, -, rfl, rfl⟩ | ⟨-, -, -, rfl, rfl⟩ |
    ⟨-, -, addr, -, rfl, rfl⟩ | ⟨-, -, -, -, rfl, rfl⟩
  · obtain ⟨-, hprev, -, -, hnext⟩ := idealTbss_eq htbss
    refine fun hst => ⟨⟨c, hprev, ?_⟩, hnext hst⟩
    rcases haddr with ⟨hin, -⟩ | ⟨-, -, hc, -⟩
    · obtain ⟨d, rest, heq, hd⟩ := (hmode (by rw [hin]; exact nofun)).2
      rw [(List.cons.inj heq).1]
      exact hd
    · exact hc
  all_goals exact fun hst => absurd rfl hst

theorem isTbss_of_idealTbss {addr2 : ℕ} (hmode : st.InTbss (c :: l))
    (haddr : st.tbss = some addr2 ∧ st'.addr = st.addr ∨
      st.tbss = none ∧ c.isAlloc = true ∧ c.isTbss = true ∧
        args.sectionStart c.name = none ∧ addr2 = st.idealSeparate args c ∧
        st'.addr = st.idealSeparate args c) : c.isTbss = true := by
  rcases haddr with ⟨hin, -⟩ | ⟨-, -, hc, -⟩
  · obtain ⟨d, rest, heq, hd⟩ := (hmode (by rw [hin]; exact nofun)).2
    rw [(List.cons.inj heq).1]
    exact hd
  · exact hc

theorem not_isMapped_of_isTbss (h : c.isTbss = true) : ¬ c.isMapped = true := by
  rw [Chunk.isMapped, h]
  simp

theorem endAddr_le (hmode : st.InTbss (c :: l)) (h : st.idealPlace args tlsP2 c l = some (c', st'))
    (hmapped : c.isMapped = true) : c'.endAddr ≤ st'.addr := by
  rcases idealPlace_cases h with ⟨addr2, haddr, -⟩ | ⟨-, halloc, -, -⟩ | ⟨-, -, -, rfl, rfl⟩ |
    ⟨-, -, addr, -, rfl, rfl⟩ | ⟨-, -, -, -, rfl, rfl⟩
  · exact absurd hmapped (not_isMapped_of_isTbss (isTbss_of_idealTbss hmode haddr))
  · rw [Chunk.isMapped, halloc] at hmapped
    cases hmapped
  · have hle : st.addr ≤ alignUp args.page st.addr := le_alignUp page_pos _
    have hlt : alignUp args.page st.addr < st.addr + args.page := alignUp_lt_add page_pos _
    have hsize : args.word (alignUp args.page st.addr - st.addr) ≤
        alignUp args.page st.addr - st.addr := Nat.mod_le _ _
    simp only [Chunk.endAddr, next]
    omega
  · exact Nat.le_refl _
  · exact Nat.le_refl _

theorem lowest_le_idealPlace {prev c c' : Chunk}
    (hprev : st.prev = some prev) (hmode : st.InTbss (c :: l)) (halloc : c.isAlloc = true)
    (hrelro : args.separateCode = .loadableSegments →
      prev.kind ≠ .relroPadding ∧ c.kind ≠ .relroPadding)
    (hgroup : startsGroup args (some prev) c = false)
    (h : st.idealPlace args tlsP2 c l = some (c', st')) :
    lowest args st.addr prev (c.toPhdrFlags args) ≤ st'.addr ∧
      (c.isMapped = true → lowest args st.addr prev (c.toPhdrFlags args) ≤ c'.addr) := by
  have hseparate := lowest_le_idealSeparate (c := c) hprev fun hmode => (hrelro hmode).1
  rcases idealPlace_cases h with ⟨addr2, haddr, -⟩ | ⟨-, hfalse, -, -⟩ |
    ⟨-, -, hkind, rfl, rfl⟩ | ⟨-, -, addr, hstart, -, -⟩ | ⟨-, -, -, -, rfl, rfl⟩
  · have htbss := isTbss_of_idealTbss hmode haddr
    refine ⟨?_, fun hmapped => absurd hmapped (not_isMapped_of_isTbss htbss)⟩
    rcases haddr with ⟨hin, haddr⟩ | ⟨-, -, -, -, -, haddr⟩
    · obtain ⟨p, hp, hptbss⟩ := (hmode (by rw [hin]; exact nofun)).1
      obtain rfl := Option.some.inj (hprev.symm.trans hp)
      have hflags : prev.toPhdrFlags args = c.toPhdrFlags args := by
        by_contra hne
        rw [startsGroup, halloc, hptbss, htbss, decide_eq_true hne] at hgroup
        simp at hgroup
      rw [haddr, lowest, if_neg fun h => h.2 hflags]
    · rw [haddr]
      exact hseparate
  · rw [halloc] at hfalse
    cases hfalse
  · have hno : ¬ (args.separateCode = .loadableSegments ∧
        prev.toPhdrFlags args ≠ c.toPhdrFlags args) := fun h => (hrelro h.1).2 hkind
    rw [lowest, if_neg hno]
    exact ⟨Nat.le_add_right _ _, fun _ => Nat.le_refl _⟩
  · rw [startsGroup, halloc, hstart] at hgroup
    simp at hgroup
  · have hle : st.idealSeparate args c ≤ alignUp (st.alignment tlsP2 c) (st.idealSeparate args c) :=
      le_alignUp (st.alignment_pos c) _
    exact ⟨Nat.le_trans hseparate (Nat.le_add_right_of_le hle),
      fun _ => Nat.le_trans hseparate hle⟩

end Cursor

/-! ## All chunks -/

theorem groupsRegular_ge (n : ℕ) (prev : Option Chunk) (l : List Chunk) :
    ∀ m ∈ groupsRegular args n prev l, n ≤ m := by
  induction l generalizing n prev with
  | nil => exact fun m hm => absurd hm List.not_mem_nil
  | cons c l ih =>
    intro m hm
    rw [groupsRegular] at hm
    have hle : n ≤ if startsGroup args prev c then n + 1 else n := by
      split <;> omega
    rcases List.mem_cons.mp hm with rfl | hm
    · exact hle
    · exact Nat.le_trans hle (ih _ _ m hm)

/-- There is no padding section for `PT_GNU_RELRO` between loadable segments that are
separate. -/
def NoRelroPadding (args : Args) (l : List Chunk) : Prop :=
  args.separateCode = .loadableSegments → ∀ c ∈ l, c.kind ≠ .relroPadding

variable {st : Cursor} {l l' : List Chunk}

theorem idealRegular_cons (h : idealRegular args tlsP2 st (c :: l) = some l') :
    ∃ c' st' rest, st.idealPlace args tlsP2 c l = some (c', st') ∧
      idealRegular args tlsP2 st' l = some rest ∧ l' = c' :: rest := by
  rw [idealRegular] at h
  split at h
  · cases h
  · obtain ⟨rest, hrest, rfl⟩ := Option.map_eq_some_iff.mp h
    exact ⟨_, _, rest, ‹_›, hrest, rfl⟩

theorem shape_idealRegular (h : idealRegular args tlsP2 st l = some l') :
    l'.map Chunk.shape = l.map Chunk.shape := by
  induction l generalizing st l' with
  | nil =>
    obtain rfl := Option.some.inj h
    rfl
  | cons c l ih =>
    obtain ⟨c', st', rest, hplace, hrest, rfl⟩ := idealRegular_cons h
    rw [List.map_cons, List.map_cons, (Cursor.idealPlace_shape hplace).1, ih hrest]

theorem not_isMapped_of_allocFirst (hfirst : AllocFirst (c :: l)) (hc : c.isAlloc = false)
    (hshape : l'.map Chunk.shape = (c :: l).map Chunk.shape) :
    ∀ d ∈ l', ¬ d.isMapped = true := by
  intro d hd hmapped
  have hmem : d.shape ∈ (c :: l).map Chunk.shape := hshape ▸ List.mem_map_of_mem hd
  obtain ⟨e, he, heq⟩ := List.mem_map.mp hmem
  rw [← isMapped_of_shape heq, Chunk.isMapped, Bool.and_eq_true] at hmapped
  rcases List.mem_cons.mp he with rfl | he
  · rw [hc] at hmapped
    exact Bool.false_ne_true hmapped.1
  · have halloc := (List.pairwise_cons.mp hfirst).1 e he hmapped.1
    rw [hc] at halloc
    exact Bool.false_ne_true halloc

theorem lowest_le_of_idealRegular {prev : Chunk} {n : ℕ}
    (hprev : st.prev = some prev) (hmode : st.InTbss l) (hfirst : AllocFirst l)
    (hrelro : NoRelroPadding args (prev :: l))
    (h : idealRegular args tlsP2 st l = some l') :
    ∀ x ∈ (groupsRegular args n (some prev) l).zip l', x.1 = n → x.2.isMapped = true →
      lowest args st.addr prev (x.2.toPhdrFlags args) ≤ x.2.addr := by
  induction l generalizing st prev l' with
  | nil => exact fun x hx => absurd hx List.not_mem_nil
  | cons c l ih =>
    intro x hx hgroup hmapped
    have hshapes := shape_idealRegular h
    obtain ⟨c', st', rest, hplace, hrest, rfl⟩ := idealRegular_cons h
    obtain ⟨hshape, hprev', -⟩ := Cursor.idealPlace_shape hplace
    have hc : c.isAlloc = true := by
      by_contra hc
      exact not_isMapped_of_allocFirst hfirst (Bool.eq_false_iff.mpr hc) hshapes x.2
        (List.of_mem_zip hx).2 hmapped
    rw [groupsRegular] at hx
    simp only [List.zip_cons_cons] at hx
    cases hstarts : startsGroup args (some prev) c with
    | true =>
      rw [hstarts, if_pos rfl] at hx
      have hge : n + 1 ≤ x.1 := by
        rcases List.mem_cons.mp hx with rfl | hx
        · exact Nat.le_refl _
        · exact groupsRegular_ge _ _ _ _ (List.of_mem_zip hx).1
      omega
    | false =>
      rw [hstarts, if_neg Bool.false_ne_true] at hx
      obtain ⟨haddr, hcaddr⟩ := Cursor.lowest_le_idealPlace hprev hmode hc
        (fun hmode => ⟨hrelro hmode _ List.mem_cons_self,
          hrelro hmode _ (List.mem_cons_of_mem _ List.mem_cons_self)⟩) hstarts hplace
      rcases List.mem_cons.mp hx with rfl | hx
      · simp only at hmapped ⊢
        rw [toPhdrFlags_of_shape hshape]
        exact hcaddr ((isMapped_of_shape hshape).symm.trans hmapped)
      · have hle := ih hprev' (hmode.idealPlace hplace) (List.pairwise_cons.mp hfirst).2
          (fun hmode d hd => hrelro hmode d (List.mem_cons_of_mem _ hd)) hrest x hx hgroup
          hmapped
        exact Nat.le_trans (lowest_le_lowest _ haddr) hle

theorem lowest_of_shape {addr : ℕ} {c d : Chunk} {flags : Prot} (h : c.shape = d.shape) :
    lowest args addr c flags = lowest args addr d flags := by
  rw [lowest, lowest, toPhdrFlags_of_shape h]

theorem apart_idealRegular {n : ℕ} {prev : Option Chunk}
    (hmode : st.InTbss l) (htogether : AllocTogether l) (hrelro : NoRelroPadding args l)
    (h : idealRegular args tlsP2 st l = some l') :
    ((groupsRegular args n prev l).zip l').Pairwise (Apart args) := by
  induction l generalizing st n prev l' with
  | nil => exact List.Pairwise.nil
  | cons c l ih =>
    obtain ⟨c', st', rest, hplace, hrest, rfl⟩ := idealRegular_cons h
    obtain ⟨hshape, hprev', -⟩ := Cursor.idealPlace_shape hplace
    have hnext := hmode.idealPlace hplace
    rw [groupsRegular, List.zip_cons_cons]
    refine List.Pairwise.cons (fun x hx hgroup hmapped => ?_)
      (ih hnext htogether.tail.1
        (fun hmode d hd => hrelro hmode d (List.mem_cons_of_mem _ hd)) hrest)
    have hmapped' : c.isMapped = true := (isMapped_of_shape hshape).symm.trans hmapped
    have hfirst := htogether.tail.2 (Bool.and_eq_true_iff.mp hmapped').1
    refine apart_of_lowest_le st'.addr (fun _ => Cursor.endAddr_le hmode hplace hmapped')
      (fun hgroup hmapped => ?_) hgroup hmapped
    rw [lowest_of_shape hshape]
    exact lowest_le_of_idealRegular hprev' hnext hfirst hrelro hrest x hx hgroup hmapped

end Mold.Elf.Layout
