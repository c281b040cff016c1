import Mold.Elf.LayoutAddresses

/-!
# Addresses of an output

The addresses by order have the same properties as the regular ones: the chunks of a group
are apart.  In both cases a chunk that is not placed by the user is aligned, and nothing
but the place of a chunk is changed.
-/

namespace Mold.Elf.Layout

open Lib

variable {args : Args}

/-! ## Addresses by order -/

theorem le_idealAlign (addr align : ℕ) : addr ≤ idealAlign addr align := by
  rw [idealAlign]
  split
  · exact Nat.le_refl addr
  · have hle : (addr + (align - 1)) &&& (align - 1) ≤ align - 1 := Nat.and_le_right
    omega

theorem lowest_mono {addr addr' : ℕ} (h : addr ≤ addr') (prev : Chunk) (flags : Prot) :
    lowest args addr prev flags ≤ lowest args addr' prev flags := by
  rw [lowest, lowest]
  split
  · exact alignUp_mono _ h
  · exact h

theorem lowest_le_addrByOrder (args : Args) (addr : ℕ) (prev c : Chunk) :
    lowest args addr prev (c.toPhdrFlags args) ≤ addrByOrder args addr (some prev) c := by
  have hle : addr ≤ alignUp args.page addr := le_alignUp page_pos _
  refine Nat.le_trans ?_ (le_alignUp (align_pos c) _)
  rw [lowest, separateByOrder]
  by_cases hflags : prev.toPhdrFlags args = c.toPhdrFlags args
  · rw [if_neg fun h => h.2 hflags, if_pos hflags]
  · rw [if_neg hflags]
    cases args.separateCode with
    | loadableSegments =>
      rw [if_pos ⟨rfl, hflags⟩]
    | code =>
      rw [if_neg fun h => by cases h.1]
      simp only
      split
      · exact hle
      · exact Nat.le_refl _
    | noSeparate =>
      rw [if_neg fun h => by cases h.1]

/-- How `set_virtual_addresses_by_order` goes over the chunks: `n` is the number of the
group and `addr` the next address. -/
inductive Ordered (args : Args) :
    ℕ → ℕ → Option Chunk → List Chunk → List ℕ → List Chunk → Prop where
  | nil (n addr : ℕ) (prev : Option Chunk) : Ordered args n addr prev [] [] []
  | skip {n addr : ℕ} {prev : Option Chunk} {c : Chunk} {l l' : List Chunk} {g : List ℕ}
      (halloc : c.isAlloc = false) (h : Ordered args n addr (some c) l g l') :
      Ordered args n addr prev (c :: l) (n :: g) (c :: l')
  | stuck (n addr : ℕ) (prev : Option Chunk) (l : List Chunk) :
      Ordered args n addr prev l (List.range' (n + 1) l.length) l
  | place {n addr : ℕ} {prev : Option Chunk} {c : Chunk} {l l' : List Chunk} {g : List ℕ}
      (halloc : c.isAlloc = true)
      (h : Ordered args n (addrByOrder args addr prev c + c.size) (some c) l g l') :
      Ordered args n addr prev (c :: l) (n :: g)
        ({ c with addr := addrByOrder args addr prev c } :: l')
  | raise {n addr addr' : ℕ} {prev : Option Chunk} {l l' : List Chunk} {g : List ℕ}
      (hle : addr ≤ addr') (h : Ordered args n addr' prev l g l') :
      Ordered args n addr prev l g l'
  | jump {n addr : ℕ} (addr' : ℕ) {prev : Option Chunk} {l l' : List Chunk} {g : List ℕ}
      (h : Ordered args (n + 1) addr' prev l g l') : Ordered args n addr prev l g l'

theorem ordered_idealByOrder (args : Args) (j : ℕ) (ords : List SectionOrder) (n addr : ℕ)
    (prev : Option Chunk) (l : List Chunk) :
    Ordered args n addr prev l (groupsByOrder j ords n l)
      (idealByOrder args j ords addr prev l) := by
  induction j, ords, addr, prev, l using idealByOrder.induct args generalizing n with
  | case1 j ords addr prev =>
    rw [groupsByOrder.eq_def, idealByOrder.eq_def]
    exact .nil n addr prev
  | case2 j ords addr prev c l halloc ih =>
    rw [groupsByOrder.eq_def, idealByOrder.eq_def]
    simp only [halloc, if_true]
    exact .skip (by simpa using halloc) (ih n)
  | case3 j addr prev c l halloc =>
    rw [groupsByOrder.eq_def, idealByOrder.eq_def]
    simp only [halloc]
    exact .stuck n addr prev (c :: l)
  | case4 addr prev c l halloc rest ih =>
    rw [groupsByOrder.eq_def, idealByOrder.eq_def]
    simp only [halloc, if_true]
    exact .place (by simpa using halloc) (ih n)
  | case5 j addr prev c l halloc rest hj ih =>
    rw [groupsByOrder.eq_def, idealByOrder.eq_def]
    simp only [halloc, hj]
    exact ih n
  | case6 addr prev c l halloc rest ih =>
    rw [groupsByOrder.eq_def, idealByOrder.eq_def]
    simp only [halloc, if_true]
    exact .place (by simpa using halloc) (ih n)
  | case7 j addr prev c l halloc rest hj ih =>
    rw [groupsByOrder.eq_def, idealByOrder.eq_def]
    simp only [halloc, hj]
    exact ih n
  | case8 j addr prev c l halloc value rest ih =>
    rw [groupsByOrder.eq_def, idealByOrder.eq_def]
    simp only [halloc]
    exact .jump value (ih (n + 1))
  | case9 j addr prev c l halloc value rest ih =>
    rw [groupsByOrder.eq_def, idealByOrder.eq_def]
    simp only [halloc]
    exact .raise (le_idealAlign addr (u64 value)) (ih n)
  | case10 j addr prev c l halloc rest ih =>
    rw [groupsByOrder.eq_def, idealByOrder.eq_def]
    simp only [halloc]
    exact ih n

namespace Ordered

variable {n addr : ℕ} {prev : Option Chunk} {l l' : List Chunk} {g : List ℕ}

theorem shape_eq (h : Ordered args n addr prev l g l') :
    l'.map Chunk.shape = l.map Chunk.shape := by
  induction h with
  | nil => rfl
  | skip halloc h ih => rw [List.map_cons, List.map_cons, ih]
  | stuck => rfl
  | place halloc h ih =>
    rw [List.map_cons, List.map_cons, ih]
    rfl
  | raise hle h ih => exact ih
  | jump addr' h ih => exact ih

theorem length_eq (h : Ordered args n addr prev l g l') : g.length = l.length := by
  induction h with
  | nil => rfl
  | skip halloc h ih => rw [List.length_cons, List.length_cons, ih]
  | stuck => exact List.length_range'
  | place halloc h ih => rw [List.length_cons, List.length_cons, ih]
  | raise hle h ih => exact ih
  | jump addr' h ih => exact ih

theorem le_of_mem (h : Ordered args n addr prev l g l') : ∀ m ∈ g, n ≤ m := by
  induction h with
  | nil => exact fun m hm => absurd hm List.not_mem_nil
  | skip halloc h ih => exact List.forall_mem_cons.mpr ⟨Nat.le_refl _, ih⟩
  | stuck n =>
    intro m hm
    have hmem := List.mem_range'_1.mp hm
    omega
  | place halloc h ih => exact List.forall_mem_cons.mpr ⟨Nat.le_refl _, ih⟩
  | raise hle h ih => exact ih
  | jump addr' h ih => exact fun m hm => Nat.le_of_succ_le (ih m hm)

theorem dvd_addr (h : Ordered args n addr prev l g l')
    (hdvd : ∀ c ∈ l, c.isAlloc = true → args.sectionStart c.name = none → c.align ∣ c.addr) :
    ∀ c ∈ l', c.isAlloc = true → args.sectionStart c.name = none → c.align ∣ c.addr := by
  induction h with
  | nil => exact hdvd
  | skip halloc h ih =>
    have hdvd := List.forall_mem_cons.mp hdvd
    exact List.forall_mem_cons.mpr ⟨hdvd.1, ih hdvd.2⟩
  | stuck => exact hdvd
  | place halloc h ih =>
    have hdvd := List.forall_mem_cons.mp hdvd
    exact List.forall_mem_cons.mpr ⟨fun _ _ => dvd_alignUp _ _, ih hdvd.2⟩
  | raise hle h ih => exact ih hdvd
  | jump addr' h ih => exact ih hdvd

theorem lowest_le {prev : Chunk} (h : Ordered args n addr (some prev) l g l')
    (hfirst : AllocFirst l) :
    ∀ x ∈ g.zip l', x.1 = n → x.2.isMapped = true →
      lowest args addr prev (x.2.toPhdrFlags args) ≤ x.2.addr := by
  generalize hprev : some prev = p at h
  induction h generalizing prev with
  | nil => exact fun x hx => absurd hx List.not_mem_nil
  | skip halloc h ih =>
    intro x hx hgroup hmapped
    refine absurd hmapped (not_isMapped_of_allocFirst hfirst halloc ?_ x.2 (List.of_mem_zip hx).2)
    rw [List.map_cons, List.map_cons, h.shape_eq]
  | stuck n =>
    intro x hx hgroup
    have hmem := List.mem_range'_1.mp (List.of_mem_zip hx).1
    omega
  | @place n addr p c l l' g halloc h ih =>
    subst hprev
    intro x hx hgroup hmapped
    have hle := lowest_le_addrByOrder args addr prev c
    rcases List.mem_cons.mp hx with rfl | hx
    · exact hle
    · exact Nat.le_trans (lowest_le_lowest _ (Nat.le_add_right_of_le hle))
        (ih (List.pairwise_cons.mp hfirst).2 rfl x hx hgroup hmapped)
  | raise hle h ih =>
    intro x hx hgroup hmapped
    exact Nat.le_trans (lowest_mono hle _ _) (ih hfirst hprev x hx hgroup hmapped)
  | jump addr' h ih =>
    intro x hx hgroup
    have hge := h.le_of_mem x.1 (List.of_mem_zip hx).1
    omega

theorem apart (h : Ordered args n addr prev l g l') (htogether : AllocTogether l) :
    (g.zip l').Pairwise (Apart args) := by
  induction h with
  | nil => exact List.Pairwise.nil
  | @skip n addr prev c l l' g halloc h ih =>
    refine List.Pairwise.cons (fun x hx hgroup hmapped => ?_) (ih htogether.tail.1)
    rw [Chunk.isMapped, halloc] at hmapped
    exact absurd hmapped Bool.false_ne_true
  | stuck n addr prev l =>
    have hnodup : ((List.range' (n + 1) l.length).zip l |>.map Prod.fst).Nodup := by
      rw [List.map_fst_zip (Nat.le_of_eq List.length_range')]
      exact List.nodup_range'
    exact (List.pairwise_map.mp hnodup).imp fun hne heq => absurd heq hne
  | @place n addr prev c l l' g halloc h ih =>
    refine List.Pairwise.cons (fun x hx => ?_) (ih htogether.tail.1)
    refine apart_of_lowest_le (addrByOrder args addr prev c + c.size)
      (fun _ => Nat.le_refl _) fun hgroup hmapped => ?_
    exact h.lowest_le (htogether.tail.2 halloc) x hx hgroup hmapped
  | raise hle h ih => exact ih htogether
  | jump addr' h ih => exact ih htogether

end Ordered

theorem p2align_le_tlsP2align {chunks : List Chunk} :
    ∀ c ∈ chunks, c.isTls = true → c.p2align ≤ tlsP2align chunks := fun _ hc htls =>
  (le_foldl_max id _ 0).2 _ (List.mem_map_of_mem (List.mem_filter.mpr ⟨hc, htls⟩))

variable {tlsP2 : ℕ} {c : Chunk}

theorem Cursor.align_dvd_alignUp {st : Cursor} (addr : ℕ)
    (htls : c.isTls = true → c.p2align ≤ tlsP2) :
    c.align ∣ alignUp (st.alignment tlsP2 c) addr := by
  refine Nat.dvd_trans ?_ (dvd_alignUp _ _)
  rw [alignment]
  split
  case isTrue h => exact Nat.pow_dvd_pow 2 (htls (Bool.and_eq_true_iff.mp h).1)
  case isFalse h => exact Nat.dvd_refl _

variable {l : List Chunk}

theorem Cursor.align_dvd_idealPlace {st st' : Cursor} {c c' : Chunk}
    (htls : c.isTls = true → c.p2align ≤ tlsP2)
    (hrelro : c.kind = .relroPadding → c.p2align = 0)
    (h : st.idealPlace args tlsP2 c l = some (c', st')) :
    c'.isAlloc = true → args.sectionStart c'.name = none → c'.align ∣ c'.addr := by
  intro halloc hstart
  rcases idealPlace_cases h with ⟨addr2, -, htbss⟩ | ⟨-, hfalse, rfl, -⟩ |
    ⟨-, -, hkind, rfl, -⟩ | ⟨-, -, addr, hsome, rfl, -⟩ | ⟨-, -, -, -, rfl, -⟩
  · obtain ⟨hc, -⟩ := idealTbss_eq htbss
    simp only at hc
    rw [hc]
    exact align_dvd_alignUp addr2 htls
  · rw [halloc] at hfalse
    cases hfalse
  · rw [Chunk.align, hrelro hkind]
    exact Nat.one_dvd _
  · rw [hstart] at hsome
    cases hsome
  · exact align_dvd_alignUp _ htls

theorem align_dvd_idealRegular {st : Cursor} {l l' : List Chunk}
    (htls : ∀ c ∈ l, c.isTls = true → c.p2align ≤ tlsP2)
    (hrelro : ∀ c ∈ l, c.kind = .relroPadding → c.p2align = 0)
    (h : idealRegular args tlsP2 st l = some l') :
    ∀ c ∈ l', c.isAlloc = true → args.sectionStart c.name = none → c.align ∣ c.addr := by
  induction l generalizing st l' with
  | nil =>
    obtain rfl := Option.some.inj h
    exact fun c hc => absurd hc List.not_mem_nil
  | cons c l ih =>
    obtain ⟨c', st', rest, hplace, hrest, rfl⟩ := idealRegular_cons h
    have htls := List.forall_mem_cons.mp htls
    have hrelro := List.forall_mem_cons.mp hrelro
    exact List.forall_mem_cons.mpr
      ⟨Cursor.align_dvd_idealPlace htls.1 hrelro.1 hplace, ih htls.2 hrelro.2 hrest⟩

/-! ## Groups -/

theorem length_groupsRegular (n : ℕ) (prev : Option Chunk) (l : List Chunk) :
    (groupsRegular args n prev l).length = l.length := by
  induction l generalizing n prev with
  | nil => rfl
  | cons c l ih =>
    rw [groupsRegular, List.length_cons, List.length_cons, ih]

theorem length_groups (chunks : List Chunk) : (groups args chunks).length = chunks.length := by
  rw [groups]
  split
  · exact length_groupsRegular _ _ _
  · exact (ordered_idealByOrder args 0 args.sectionOrder 0 0 none chunks).length_eq

structure Output (args : Args) (chunks : List Chunk) : Prop where
  word : args.wordSize = 4 ∨ args.wordSize = 8
  /-- The size of a page is an `i64`. -/
  page : args.pageBits < 63
  align : ∀ c ∈ chunks, c.p2align < args.wordBits
  addr : ∀ c ∈ chunks, c.addr < 2 ^ args.wordBits
  order : AllocTogether chunks
  relro : NoRelroPadding args chunks
  padding : ∀ c ∈ chunks, c.kind = .relroPadding → c.p2align = 0
  aligned : ∀ c ∈ chunks, c.isAlloc = true → args.sectionStart c.name = none → c.align ∣ c.addr

structure Addressed (args : Args) (chunks placed : List Chunk) : Prop where
  shape : placed.map Chunk.shape = chunks.map Chunk.shape
  apart : ((groups args chunks).zip placed).Pairwise (Apart args)
  aligned : ∀ c ∈ placed, c.isAlloc = true → args.sectionStart c.name = none → c.align ∣ c.addr

theorem addressed_of_idealAddresses {chunks placed : List Chunk}
    (hout : Output args chunks) (h : idealAddresses args chunks = some placed) :
    Addressed args chunks placed := by
  rw [idealAddresses] at h
  split at h
  case isTrue horder =>
    refine ⟨shape_idealRegular h, ?_, align_dvd_idealRegular p2align_le_tlsP2align hout.padding h⟩
    rw [groups, if_pos horder]
    exact apart_idealRegular (fun hst => absurd rfl hst) hout.order hout.relro h
  case isFalse horder =>
    obtain rfl := Option.some.inj h
    have hordered := ordered_idealByOrder args 0 args.sectionOrder 0 args.imageBase none chunks
    refine ⟨hordered.shape_eq, ?_, hordered.dvd_addr hout.aligned⟩
    rw [groups, if_neg horder]
    exact hordered.apart hout.order

/-! ## Words -/

theorem foldl_max_le {n : ℕ} {l : List ℕ} (hl : ∀ p ∈ l, p ≤ n) {m : ℕ} (hm : m ≤ n) :
    l.foldl max m ≤ n := by
  induction l generalizing m with
  | nil => exact hm
  | cons p l ih =>
    obtain ⟨hp, hl⟩ := List.forall_mem_cons.mp hl
    exact ih hl (Nat.max_le.mpr ⟨hm, hp⟩)

def Chunk.cut (args : Args) (c : Chunk) : Chunk := { c with addr := args.word c.addr }

def Cursor.cut (st : Cursor) : Cursor :=
  { st with addr := u64 st.addr, tbss := st.tbss.map u64 }

theorem u64_add (m n : ℕ) : u64 (u64 m + n) = u64 (m + n) := Nat.mod_add_mod m _ n

theorem u64_sub {m n : ℕ} (h : m ≤ n) : u64 (u64 n + 2 ^ 64 - u64 m) = u64 (n - m) := by
  unfold u64
  omega

theorem alignTo_u64 (n : ℕ) {align : ℕ} (h : align ≤ 2 ^ 64) :
    alignTo (u64 n) align = u64 (idealAlign n align) := by
  rw [alignTo, idealAlign]
  split
  · rfl
  · have hand : (n + (align - 1)) &&& (align - 1) = u64 (n + (align - 1)) &&& (align - 1) := by
      have hmod := Nat.and_mod_two_pow (n := 64) (a := n + (align - 1)) (b := align - 1)
      have hle : (n + (align - 1)) &&& (align - 1) ≤ align - 1 := Nat.and_le_right
      rw [Nat.mod_eq_of_lt (by omega), Nat.mod_eq_of_lt (a := align - 1) (by omega)] at hmod
      exact hmod
    have hle : u64 (n + (align - 1)) &&& (align - 1) ≤ u64 (n + (align - 1)) := Nat.and_le_left
    rw [u64_add, hand]
    generalize u64 (n + (align - 1)) &&& (align - 1) = m at hle
    unfold u64 at hle ⊢
    omega

theorem idealAlign_two_pow (n k : ℕ) : idealAlign n (2 ^ k) = alignUp (2 ^ k) n := by
  have hpos : 0 < 2 ^ k := Nat.two_pow_pos k
  have hdiv := Nat.div_add_mod' (n + (2 ^ k - 1)) (2 ^ k)
  have hsum : n + 2 ^ k - 1 = n + (2 ^ k - 1) := by omega
  rw [idealAlign, if_neg (Nat.ne_of_gt hpos), Nat.and_two_pow_sub_one_eq_mod, alignUp, hsum]
  omega

theorem alignTo_two_pow (n : ℕ) {k : ℕ} (h : k ≤ 64) :
    alignTo (u64 n) (2 ^ k) = u64 (alignUp (2 ^ k) n) := by
  rw [alignTo_u64 n (Nat.pow_le_pow_right Nat.two_pos h), idealAlign_two_pow]

section Output

variable {chunks : List Chunk} (hout : Output args chunks)
include hout

theorem Output.wordBits_eq : args.wordBits = 32 ∨ args.wordBits = 64 := by
  rw [Args.wordBits]
  rcases hout.word with h | h
  · exact .inl (by rw [h])
  · exact .inr (by rw [h])

theorem Output.word_u64 (n : ℕ) : args.word (u64 n) = args.word n := by
  refine Nat.mod_mod_of_dvd n (Nat.pow_dvd_pow 2 ?_)
  rcases hout.wordBits_eq with h | h <;> omega

theorem Output.p2align_le (hc : c ∈ chunks) : c.p2align ≤ 64 := by
  have hlt := hout.align c hc
  rcases hout.wordBits_eq with h | h <;> omega

theorem Output.tlsP2align_le : tlsP2align chunks ≤ 64 := by
  refine foldl_max_le (fun p hp => ?_) (Nat.zero_le _)
  obtain ⟨c, hc, rfl⟩ := List.mem_map.mp hp
  exact hout.p2align_le (List.mem_filter.mp hc).1

theorem separate_cut (st : Cursor) (c : Chunk) :
    st.cut.separate args c = u64 (st.idealSeparate args c) := by
  have hpage : alignTo (u64 st.addr) args.page = u64 (alignUp args.page st.addr) :=
    alignTo_two_pow st.addr (by have := hout.page; omega)
  have hmod : u64 st.addr % args.page = st.addr % args.page :=
    Nat.mod_mod_of_dvd _ (Nat.pow_dvd_pow 2 (by have := hout.page; omega))
  have haddr : st.cut.addr = u64 st.addr := rfl
  have hprev : st.cut.prev = st.prev := rfl
  rw [Cursor.separate, Cursor.idealSeparate, hprev]
  cases st.prev with
  | none => rfl
  | some prev =>
    simp only [haddr, hpage, hmod, u64_add]
    cases args.separateCode <;> simp only <;> split_ifs <;> rfl

theorem alignTo_alignment (st : Cursor) (n : ℕ) (hc : c ∈ chunks) :
    alignTo (u64 n) (st.alignment (tlsP2align chunks) c) =
      u64 (alignUp (st.alignment (tlsP2align chunks) c) n) := by
  rw [Cursor.alignment]
  split
  · exact alignTo_two_pow n hout.tlsP2align_le
  · exact alignTo_two_pow n (hout.p2align_le hc)

theorem placeTbss_cut (st : Cursor) (addr addr2 : ℕ) (hc : c ∈ chunks) (l : List Chunk) :
    st.cut.placeTbss args (tlsP2align chunks) (u64 addr) (u64 addr2) c l =
      (st.idealTbss (tlsP2align chunks) addr addr2 c l).map
        (Prod.map (Chunk.cut args) Cursor.cut) := by
  have halign : st.cut.alignment (tlsP2align chunks) c = st.alignment (tlsP2align chunks) c := rfl
  have hup := alignTo_alignment hout st addr2 hc
  rcases l with _ | ⟨d, _ | ⟨e, l⟩⟩
  · rfl
  · simp only [Cursor.placeTbss, Cursor.idealTbss, halign, hup, hout.word_u64]
    rfl
  · simp only [Cursor.placeTbss, Cursor.idealTbss, halign, hup, hout.word_u64, u64_add]
    cases d.isTbss <;> rfl

theorem cut_of_mem (hc : c ∈ chunks) : c.cut args = c := by
  rw [Chunk.cut, Args.word, Nat.mod_eq_of_lt (hout.addr c hc)]

theorem place_cut (st : Cursor) (hc : c ∈ chunks) (l : List Chunk) :
    st.cut.place args (tlsP2align chunks) c l =
      (st.idealPlace args (tlsP2align chunks) c l).map (Prod.map (Chunk.cut args) Cursor.cut) := by
  rw [Cursor.place, Cursor.idealPlace]
  cases htbss : st.tbss with
  | some addr2 =>
    have hcut : st.cut.tbss = some (u64 addr2) := congrArg (Option.map u64) htbss
    simp only [hcut]
    exact placeTbss_cut hout st st.addr addr2 hc l
  | none =>
    have hcut : st.cut.tbss = none := congrArg (Option.map u64) htbss
    have haddr : st.cut.addr = u64 st.addr := rfl
    simp only [hcut, haddr]
    split
    · rw [Option.map_some, Prod.map_apply, cut_of_mem hout hc]
      rfl
    · split
      · have hpage : alignTo (u64 st.addr) args.page = u64 (alignUp args.page st.addr) :=
          alignTo_two_pow st.addr (by have := hout.page; omega)
        rw [hpage, u64_sub (le_alignUp page_pos st.addr), hout.word_u64, hout.word_u64, u64_add]
        rfl
      · cases args.sectionStart c.name with
        | some addr => rfl
        | none =>
          simp only [separate_cut hout]
          split
          · exact placeTbss_cut hout st _ _ hc l
          · have halign : st.cut.alignment (tlsP2align chunks) c =
                st.alignment (tlsP2align chunks) c := rfl
            simp only [halign, alignTo_alignment hout st _ hc, hout.word_u64, u64_add]
            rfl

theorem placeRegular_cut (st : Cursor) (hl : l ⊆ chunks) :
    placeRegular args (tlsP2align chunks) st.cut l =
      (idealRegular args (tlsP2align chunks) st l).map (List.map (Chunk.cut args)) := by
  induction l generalizing st with
  | nil => rfl
  | cons c l ih =>
    obtain ⟨hc, hl⟩ := List.cons_subset.mp hl
    rw [placeRegular, idealRegular, place_cut hout st hc]
    cases st.idealPlace args (tlsP2align chunks) c l with
    | none => rfl
    | some p =>
      simp only [Option.map_some, Prod.map_fst, Prod.map_snd, ih p.2 hl, Option.map_map]
      rfl

theorem assignAddr_cut (addr : ℕ) (prev : Option Chunk) (hc : c ∈ chunks) :
    assignAddr args (u64 addr) prev c = u64 (addrByOrder args addr prev c) := by
  have hpage : alignTo (u64 addr) args.page = u64 (alignUp args.page addr) :=
    alignTo_two_pow addr (by have := hout.page; omega)
  have halign (n : ℕ) : alignTo (u64 n) c.align = u64 (alignUp c.align n) :=
    alignTo_two_pow n (hout.p2align_le hc)
  rw [addrByOrder, ← halign]
  cases prev with
  | none => rfl
  | some prev =>
    simp only [assignAddr, separateByOrder, hpage]
    cases args.separateCode <;> simp only <;> split_ifs <;> rfl

theorem placeByOrder_cut (j : ℕ) (ords : List SectionOrder) (addr : ℕ) (prev : Option Chunk)
    (hl : l ⊆ chunks) :
    placeByOrder args j ords (u64 addr) prev l =
      (idealByOrder args j ords addr prev l).map (Chunk.cut args) := by
  induction j, ords, addr, prev, l using idealByOrder.induct args with
  | case1 j ords addr prev => rw [placeByOrder.eq_def, idealByOrder.eq_def]; rfl
  | case2 j ords addr prev c l halloc ih =>
    obtain ⟨hc, hl⟩ := List.cons_subset.mp hl
    rw [placeByOrder.eq_def, idealByOrder.eq_def]
    simp only [halloc, if_true, List.map_cons, ih hl, cut_of_mem hout hc]
  | case3 j addr prev c l halloc =>
    rw [placeByOrder.eq_def, idealByOrder.eq_def]
    simp only [halloc]
    exact (List.map_id (c :: l)).symm.trans
      (List.map_congr_left fun d hd => (cut_of_mem hout (hl hd)).symm)
  | case4 addr prev c l halloc rest ih =>
    obtain ⟨hc, hl⟩ := List.cons_subset.mp hl
    rw [placeByOrder.eq_def, idealByOrder.eq_def]
    simp only [halloc, assignAddr_cut hout addr prev hc, hout.word_u64, u64_add, ih hl]
    rfl
  | case5 j addr prev c l halloc rest hj ih =>
    rw [placeByOrder.eq_def, idealByOrder.eq_def]
    simp only [halloc, hj]
    exact ih hl
  | case6 addr prev c l halloc rest ih =>
    obtain ⟨hc, hl⟩ := List.cons_subset.mp hl
    rw [placeByOrder.eq_def, idealByOrder.eq_def]
    simp only [halloc, assignAddr_cut hout addr prev hc, hout.word_u64, u64_add, ih hl]
    rfl
  | case7 j addr prev c l halloc rest hj ih =>
    rw [placeByOrder.eq_def, idealByOrder.eq_def]
    simp only [halloc, hj]
    exact ih hl
  | case8 j addr prev c l halloc value rest ih =>
    rw [placeByOrder.eq_def, idealByOrder.eq_def]
    simp only [halloc]
    exact ih hl
  | case9 j addr prev c l halloc value rest ih =>
    rw [placeByOrder.eq_def, idealByOrder.eq_def]
    have halign : alignTo (u64 addr) (u64 value) = u64 (idealAlign addr (u64 value)) :=
      alignTo_u64 addr (Nat.le_of_lt (Nat.mod_lt value (Nat.two_pow_pos 64)))
    simp only [halloc, Bool.false_eq_true, if_false, halign]
    exact ih hl
  | case10 j addr prev c l halloc rest ih =>
    rw [placeByOrder.eq_def, idealByOrder.eq_def]
    simp only [halloc]
    exact ih hl

/-- The addresses of the source are the ideal ones in 64 bits, cut to words. -/
theorem setVirtualAddresses_eq :
    setVirtualAddresses args chunks =
      (idealAddresses args chunks).map (List.map (Chunk.cut args)) := by
  rw [setVirtualAddresses, idealAddresses]
  split
  · exact placeRegular_cut hout { addr := args.imageBase } (List.Subset.refl chunks)
  · rw [placeByOrder_cut hout 0 _ _ _ (List.Subset.refl chunks)]
    rfl

theorem setVirtualAddresses_eq_some {ideal : List Chunk}
    (h : idealAddresses args chunks = some ideal)
    (haddr : ∀ c ∈ ideal, c.addr < 2 ^ args.wordBits) :
    setVirtualAddresses args chunks = some ideal := by
  rw [setVirtualAddresses_eq hout, h, Option.map_some]
  refine congrArg some ((List.map_congr_left fun c hc => ?_).trans (List.map_id ideal))
  rw [Chunk.cut, Args.word, Nat.mod_eq_of_lt (haddr c hc), id]

end Output

end Mold.Elf.Layout
