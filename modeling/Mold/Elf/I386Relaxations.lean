import Mold.Elf.I386Scan

/-!
# What the sequences compute

A sequence that is rewritten computes what it computed before, and one that is left as it is
finds its entry in the GOT.  The exceptions are a local-dynamic sequence with a direct call at
the beginning of its section, and loads from the GOT.
-/

namespace Mold.Elf.I386

open Mold.Lib Mold.Lib.I386

section Bytes

variable {mem : Memory} {loc off : ℕ} {val : BitVec 32}

theorem set32_eq (mem : Memory) (loc : ℕ) (val : BitVec 32) :
    set32 mem loc val = storeBytes mem loc (le32 val) := storeField_little 4 val.toNat

theorem set32_of_not_mem {k : ℕ} (h : k < loc ∨ loc + 4 ≤ k) : set32 mem loc val k = mem k :=
  storeField_of_not_mem h

theorem storeBytes_eq_of_not_mem {bytes : List Byte} {k : ℕ}
    (h : k < loc ∨ loc + bytes.length ≤ k) : storeBytes mem loc bytes k = mem k := by
  rcases h with hlow | hhigh
  · exact storeBytes_of_lt hlow
  · exact storeBytes_of_le hhigh

theorem loadBytes_of_apart (mem : Memory) {loc' : ℕ} {xs ys : List Byte}
    (h : loc + xs.length ≤ loc' ∨ loc' + ys.length ≤ loc) :
    loadBytes (storeBytes (storeBytes mem loc xs) loc' ys) loc xs.length = xs := by
  have hcongr : loadBytes (storeBytes (storeBytes mem loc xs) loc' ys) loc xs.length =
      loadBytes (storeBytes mem loc xs) loc xs.length :=
    loadBytes_congr fun k hlow hhigh => storeBytes_eq_of_not_mem (by omega)
  rw [hcongr, loadBytes_storeBytes_self]

theorem set32_storeBytes (xs ys ws : List Byte) (h : ys.length = 4) :
    set32 (storeBytes mem loc (xs ++ (ys ++ ws))) (loc + xs.length) val =
      storeBytes mem loc (xs ++ (le32 val ++ ws)) := by
  have hlen : ys.length = (le32 val).length := h.trans (length_le 4 _).symm
  rw [set32_eq, storeBytes_overwrite xs ws hlen]

variable {n : ℕ} {zs : List Byte}

theorem loadBytes_part (xs ys : List Byte) (h : loadBytes mem loc n = xs ++ (ys ++ zs)) :
    loadBytes mem (loc + xs.length) ys.length = ys := by
  have hlen := congrArg List.length h
  simp only [length_loadBytes, List.length_append] at hlen
  rw [hlen, loadBytes_add, loadBytes_add] at h
  have htail := (List.append_inj h (length_loadBytes _ _ _)).2
  exact (List.append_inj htail (length_loadBytes _ _ _)).1

theorem byte_of_part (xs : List Byte) {b : Byte}
    (h : loadBytes mem loc n = xs ++ b :: zs) : mem (loc + xs.length) = b := by
  have hload := loadBytes_part xs [b] h
  exact List.singleton_inj.mp hload

theorem addend_eq_zero (xs : List Byte) (h : loadBytes mem loc n = xs ++ (le32 0 ++ zs)) :
    BitVec.ofNat 32 (loadField .little 4 mem (loc + xs.length)) = 0 := by
  have hload : loadBytes mem (loc + xs.length) 4 = le32 0 := loadBytes_part xs (le32 0) h
  have hfield : loadField .little 4 mem (loc + xs.length) =
      readLe (loadBytes mem (loc + xs.length) 4) := rfl
  rw [hfield, hload]
  decide

/-- `mov %gs:0, %eax; add $val, %eax` -/
def gdCode (val : BitVec 32) : List Byte :=
  0x65 :: 0xa1 :: 0 :: 0 :: 0 :: 0 :: 0x81 :: 0xc0 :: le32 val

/-- `mov %gs:0, %eax; sub $val, %eax` and what is behind it. -/
def ldCode (val : BitVec 32) (tail : List Byte) : List Byte :=
  0x65 :: 0xa1 :: 0 :: 0 :: 0 :: 0 :: 0x2d :: (le32 val ++ tail)

theorem relaxGdToLe_eq {ty : RelType} (h : tlsRelaxPrefix ty = some n) :
    relaxGdToLe mem (off + n) val ty = some (storeBytes mem off (gdCode val)) := by
  have hstore : set32 (storeBytes mem off [0x65, 0xa1, 0, 0, 0, 0, 0x81, 0xc0, 0, 0, 0, 0])
      (off + 8) val = storeBytes mem off (gdCode val) :=
    (set32_storeBytes [0x65, 0xa1, 0, 0, 0, 0, 0x81, 0xc0] [0, 0, 0, 0] [] rfl).trans
      (by rw [List.append_nil]; rfl)
  cases ty with
  | pc32 | plt32 =>
    obtain rfl : 3 = n := Option.some_inj.mp h
    exact congrArg some hstore
  | got32 | got32x =>
    obtain rfl : 2 = n := Option.some_inj.mp h
    exact congrArg some hstore
  | _ => cases h

theorem relaxLdToLe_direct (plt : Bool) :
    relaxLdToLe mem (off + 2) val (directType plt) =
      some (storeBytes mem off (ldCode val [])) := by
  have hstore : set32 (storeBytes mem off [0x65, 0xa1, 0, 0, 0, 0, 0x2d, 0, 0, 0, 0])
      (off + 7) val = storeBytes mem off (ldCode val []) :=
    set32_storeBytes [0x65, 0xa1, 0, 0, 0, 0, 0x2d] [0, 0, 0, 0] [] rfl
  cases plt <;> exact congrArg some hstore

theorem relaxLdToLe_indirect (x : Bool) :
    relaxLdToLe mem (off + 2) val (indirectType x) =
      some (storeBytes mem off (ldCode val [0x90])) := by
  have hstore : set32 (storeBytes mem off [0x65, 0xa1, 0, 0, 0, 0, 0x2d, 0, 0, 0, 0, 0x90])
      (off + 7) val = storeBytes mem off (ldCode val [0x90]) :=
    set32_storeBytes [0x65, 0xa1, 0, 0, 0, 0, 0x2d] [0, 0, 0, 0] [0x90] rfl
  cases x <;> exact congrArg some hstore

theorem run_gdCode (m : Machine) (regs : Regs) :
    run m (gdCode val) regs = some (Function.update regs 0 (m.gs 0 + val)) := by
  have hadd : runTo m 11 (0x81 :: 0xc0 :: (le32 val ++ [])) (Function.update regs 0 (m.gs 0)) =
      _ := runTo_addImm val
  rw [List.append_nil, runTo_nil, Function.update_idem, Function.update_self] at hadd
  exact hadd

theorem sub_sub_eq (a b c : BitVec 32) : a - (b - c) = a + (c - b) := by bv_omega

theorem run_ldCode (m : Machine) (regs : Regs) (a b : BitVec 32) {tail : List Byte}
    (htail : tail = [] ∨ tail = [0x90]) :
    run m (ldCode (a - b) tail) regs = some (Function.update regs 0 (m.gs 0 + (b - a))) := by
  have hsub (n : ℕ) : runTo m (n + 1) (0x2d :: (le32 (a - b) ++ tail))
      (Function.update regs 0 (m.gs 0)) = _ := runTo_subImm (a - b)
  rcases htail with rfl | rfl
  · have h := hsub 9
    rw [runTo_nil, Function.update_idem, Function.update_self, sub_sub_eq] at h
    exact h
  · have h := hsub 10
    rw [runTo_nop, runTo_nil, Function.update_idem, Function.update_self, sub_sub_eq] at h
    exact h

theorem relaxed_got32x (m : Byte) : (0x8d00 ||| m.val) ≠ 0 ∧
    Fin.ofNat 256 ((0x8d00 ||| m.val) >>> 8) = 0x8d ∧ Fin.ofNat 256 (0x8d00 ||| m.val) = m := by
  revert m
  decide +kernel

end Bytes

section Treatment

variable {σ : Type*} [DecidableEq σ] {L : Link σ} {s : Section σ} {rel call : Rel σ}
  {next : Option RelType} {mem : Memory} {sym callee : σ} {off : ℕ}

theorem has_iff {e : Entry σ} : L.has e = true ↔ e ∈ L.asks := decide_eq_true_iff

theorem applyStep_call (s : Section σ) (next : Option RelType) (mem : Memory)
    (hcall : call.rType.isCall = true)
    (hgot : call.rType = .got32x → L.has (.got call.rSym) = true) :
    ∃ v, L.applyStep s call next mem = some (set32 mem call.rOffset v, false) := by
  cases htype : call.rType with
  | pc32 | plt32 | got32 =>
    simp only [Link.applyStep, htype]
    exact ⟨_, rfl⟩
  | got32x =>
    simp only [Link.applyStep, htype, hgot htype, if_true]
    exact ⟨_, rfl⟩
  | _ =>
    rw [htype] at hcall
    cases hcall

theorem applyGroup_single {mem' : Memory} (h : L.applyStep s rel none mem = some (mem', false)) :
    L.applyGroup s [rel] mem = some mem' := Option.bind_eq_some_iff.mpr ⟨_, h, rfl⟩

theorem applyGroup_left (s : Section σ) (mem : Memory) (hpair : rel.rType.isPair = true)
    (hhas : L.has (pairEntry rel) = true)
    (hcall : call.rType.isCall = true)
    (hgot : call.rType = .got32x → L.has (.got call.rSym) = true) :
    ∃ v v', L.applyGroup s [rel, call] mem =
      some (set32 (set32 mem rel.rOffset v) call.rOffset v') := by
  obtain ⟨v, hfirst⟩ : ∃ v, L.applyStep s rel (some call.rType) mem =
      some (set32 mem rel.rOffset v, false) := by
    cases htype : rel.rType with
    | tlsGd =>
      rw [pairEntry, htype] at hhas
      simp only [Link.applyStep, htype, hhas, if_true]
      exact ⟨_, rfl⟩
    | tlsLdm =>
      rw [pairEntry, htype] at hhas
      simp only [Link.applyStep, htype, hhas, if_true]
      exact ⟨_, rfl⟩
    | _ =>
      rw [htype] at hpair
      cases hpair
  obtain ⟨v', hsecond⟩ := applyStep_call s none (set32 mem rel.rOffset v) hcall hgot
  exact ⟨v, v', Option.bind_eq_some_iff.mpr ⟨_, hfirst,
    Option.bind_eq_some_iff.mpr ⟨_, hsecond, rfl⟩⟩⟩

theorem applyGroup_pair {n : ℕ} {mem' : Memory} {rewrite : RelType → Option Memory}
    (hstep : L.applyStep s rel (some call.rType) mem = applyPair rel (some call.rType) rewrite)
    (hn : tlsRelaxPrefix call.rType = some n) (hle : n ≤ rel.rOffset)
    (hrewrite : rewrite call.rType = some mem') :
    L.applyGroup s [rel, call] mem = some mem' := by
  refine Option.bind_eq_some_iff.mpr ⟨(mem', true), ?_, rfl⟩
  rw [List.head?_cons, Option.map_some, hstep, applyPair, Option.bind_some, hn, Option.bind_some,
    checkRelaxPrefix, if_neg (Nat.not_lt.mpr hle), Option.bind_some, hrewrite, Option.map_some]

theorem correct_of_pair {seq : Sequence} {bytes : List Byte} (h : seq.At L s sym callee off)
    (hgroups : seq.groups sym callee off = [[rel, call]]) (hparts : seq.parts off = [(off, bytes)])
    (hpair : rel.rType.isPair = true) (hcall : call.rType.isCall = true)
    (hentry : seq.entry sym = pairEntry rel)
    (hwants : L.leaves (pairEntry rel) = true → L.Wants s.contents rel (pairEntry rel))
    (hbefore : L.relaxesPair rel = true →
      ∃ n, tlsRelaxPrefix call.rType = some n ∧ n ≤ rel.rOffset)
    (hgot : L.relaxesPair rel = false → call.rType = .got32x → L.needsGot s.contents call = true)
    (hrel : off ≤ rel.rOffset ∧ rel.rOffset + 4 ≤ off + bytes.length)
    (hcallOffset : off ≤ call.rOffset ∧ call.rOffset + 4 ≤ off + bytes.length)
    (hrewrite : L.has (pairEntry rel) = false → L.relaxesPair rel = true → ∀ mem,
      ∃ code : List Byte,
      L.applyGroup s [rel, call] mem = some (storeBytes mem off code) ∧
        code.length = bytes.length ∧ seq.Computes L sym code) :
    seq.Correct L s sym callee off := by
  have hmem : [rel, call] ∈ s.groups := h.groups _ (by rw [hgroups]; exact List.mem_singleton_self _)
  obtain ⟨asks, hscan⟩ := scanGroup_pair s.contents hpair hcall hbefore
  have hfirst : rel ∈ L.lookedAt [rel, call] := by
    rw [Link.lookedAt]
    split <;> simp
  obtain ⟨hown, hall⟩ := mem_asks_iff_leaves h.mem_sections hmem hscan fun hleaves =>
    ⟨rel, hfirst, hwants hleaves⟩
  refine ⟨asks, ?_, ?_, fun mem _ => ?_⟩
  · rw [hgroups]
    exact (bind_pure _).trans hscan
  · rw [hentry, has_iff]
    exact hown.trans hall.symm
  · rw [hgroups, hentry, hparts]
    cases hhas : L.has (pairEntry rel) with
    | true =>
      have hrelaxes : L.relaxesPair rel = false :=
        (Bool.not_eq_true' _).mp ((leaves_pairEntry hpair).symm.trans (hall.mp (has_iff.mp hhas)))
      have hhasCall : call.rType = .got32x → L.has (.got call.rSym) = true := by
        intro htype
        refine has_iff.mpr (mem_asks.mpr ⟨s, h.mem_sections, _, hmem, asks, hscan, ?_⟩)
        refine (mem_scanGroup (s.wellFormed _ hmem) hscan _).mpr (.inr ⟨call, ?_, rfl,
          .inr (hgot hrelaxes htype)⟩)
        rw [Link.lookedAt, hrelaxes, if_neg Bool.false_ne_true]
        simp
      obtain ⟨v, v', happly⟩ := applyGroup_left s mem hpair hhas hcall hhasCall
      refine ⟨_, (bind_pure _).trans happly, fun k hk => ?_, ?_⟩
      · have hk' := hk _ (List.mem_singleton_self _)
        rw [set32_of_not_mem (by grind), set32_of_not_mem (by grind)]
      · rintro (hgot' | hfalse)
        · rw [pairEntry] at hgot'
          split at hgot' <;> cases hgot'
        · exact absurd hfalse (by decide)
    | false =>
      have hrelaxes : L.relaxesPair rel = true := by
        by_contra hne
        have hleaves := leaves_pairEntry (L := L) hpair
        rw [(Bool.not_eq_true _).mp hne] at hleaves
        exact absurd (hhas.symm.trans (has_iff.mpr (hall.mpr hleaves))) Bool.false_ne_true
      obtain ⟨code, happly, hlen, hcomputes⟩ := hrewrite hhas hrelaxes mem
      refine ⟨_, (bind_pure _).trans happly, fun k hk => ?_, fun _ => ?_⟩
      · exact storeBytes_eq_of_not_mem (hlen ▸ hk _ (List.mem_singleton_self _))
      · rw [Sequence.code, hparts, List.flatMap_singleton, ← hlen, loadBytes_storeBytes_self]
        exact hcomputes

end Treatment

section Sequences

variable {σ : Type*} [DecidableEq σ] {L : Link σ} {s : Section σ} {sym callee : σ} {off : ℕ}

/-- The condition under which a sequence is treated as it should be.  A load needs a base
register, and may not be relaxed while another relocation asks for a GOT entry.  A local dynamic
sequence with a direct call may not be relaxed at the first byte of a section. -/
def Sequence.Meets (L : Link σ) (sym : σ) (off : ℕ) : Sequence → Prop
  | .load base _ => base ≠ none ∧
      ¬((L.symbols sym).isIfunc = false ∧ (L.symbols sym).isImported = false ∧
        (L.symbols sym).isAbsolute = false ∧ L.AsksGot sym)
  | .ldDirect _ => ¬(L.relaxLdm = true ∧ off = 0)
  | _ => True

variable {base : BaseReg}

theorem byte_of_indirect {contents : Memory}
    (h : loadBytes contents off 12 =
      0x8d :: modRM 0 (some base) :: (le32 0 ++ 0xff :: modRM 2 (some base) :: le32 0)) :
    contents (off + 8 - 2) = 0xff :=
  byte_of_part (0x8d :: modRM 0 (some base) :: le32 0) h

theorem tlsRelaxPrefix_direct (plt : Bool) : tlsRelaxPrefix (directType plt) = some 3 := by
  cases plt <;> rfl

theorem tlsRelaxPrefix_indirect (x : Bool) : tlsRelaxPrefix (indirectType x) = some 2 := by
  cases x <;> rfl

theorem directType_ne (plt : Bool) : directType plt ≠ .got32x := by
  cases plt <;> decide

theorem correct_gdDirect {plt : Bool} (h : (Sequence.gdDirect plt).At L s sym callee off) :
    (Sequence.gdDirect plt).Correct L s sym callee off := by
  refine correct_of_pair h rfl rfl rfl (by cases plt <;> rfl) rfl
    (fun hleaves => ⟨rfl, rfl, (Bool.not_eq_true' _).mp hleaves⟩)
    (fun _ => ⟨3, tlsRelaxPrefix_direct plt, Nat.le_add_left _ _⟩)
    (fun _ htype => absurd htype (directType_ne plt)) ⟨Nat.le_add_right _ _, ?_⟩
    ⟨Nat.le_add_right _ _, Nat.le_refl _⟩ fun hhas _ mem => ?_
  · change off + 7 ≤ off + 12
    omega
  · refine ⟨gdCode ((L.symbols sym).addr - L.tpAddr), ?_, rfl, run_gdCode⟩
    refine applyGroup_pair ?_ (tlsRelaxPrefix_direct plt) (Nat.le_add_left _ _)
      (relaxGdToLe_eq (tlsRelaxPrefix_direct plt))
    simp only [pairEntry] at hhas
    simp only [Link.applyStep, hhas, Bool.false_eq_true, if_false]

theorem correct_gdIndirect {x : Bool} (h : (Sequence.gdIndirect base x).At L s sym callee off) :
    (Sequence.gdIndirect base x).Correct L s sym callee off := by
  have hbyte := byte_of_indirect (h.holds _ (List.mem_singleton_self _))
  refine correct_of_pair h rfl rfl rfl (by cases x <;> rfl) rfl
    (fun hleaves => ⟨rfl, rfl, (Bool.not_eq_true' _).mp hleaves⟩)
    (fun _ => ⟨2, tlsRelaxPrefix_indirect x, Nat.le_add_left _ _⟩)
    (fun _ htype => needsGot_call htype hbyte) ⟨Nat.le_add_right _ _, ?_⟩
    ⟨Nat.le_add_right _ _, Nat.le_refl _⟩ fun hhas _ mem => ?_
  · change off + 6 ≤ off + 12
    omega
  · refine ⟨gdCode ((L.symbols sym).addr - L.tpAddr), ?_, rfl, run_gdCode⟩
    refine applyGroup_pair ?_ (tlsRelaxPrefix_indirect x) (Nat.le_add_left _ _)
      (relaxGdToLe_eq (tlsRelaxPrefix_indirect x))
    simp only [pairEntry] at hhas
    simp only [Link.applyStep, hhas, Bool.false_eq_true, if_false]

theorem correct_ldIndirect {x : Bool} (h : (Sequence.ldIndirect base x).At L s sym callee off) :
    (Sequence.ldIndirect base x).Correct L s sym callee off := by
  have hbyte := byte_of_indirect (h.holds _ (List.mem_singleton_self _))
  refine correct_of_pair h rfl rfl rfl (by cases x <;> rfl) rfl
    (fun hleaves => ⟨rfl, (Bool.not_eq_true' _).mp hleaves⟩)
    (fun _ => ⟨2, tlsRelaxPrefix_indirect x, Nat.le_add_left _ _⟩)
    (fun _ htype => needsGot_call htype hbyte) ⟨Nat.le_add_right _ _, ?_⟩
    ⟨Nat.le_add_right _ _, Nat.le_refl _⟩ fun hhas _ mem => ?_
  · change off + 6 ≤ off + 12
    omega
  · refine ⟨ldCode (L.tpAddr - L.tlsBegin) [0x90], ?_, rfl,
      fun m regs => run_ldCode m regs _ _ (.inr rfl)⟩
    refine applyGroup_pair ?_ (tlsRelaxPrefix_indirect x) (Nat.le_add_left _ _)
      (relaxLdToLe_indirect x)
    simp only [pairEntry] at hhas
    simp only [Link.applyStep, hhas, Bool.false_eq_true, if_false]

theorem correct_ldDirect_iff {plt : Bool} (h : (Sequence.ldDirect plt).At L s sym callee off) :
    (Sequence.ldDirect plt).Correct L s sym callee off ↔ ¬(L.relaxLdm = true ∧ off = 0) := by
  constructor
  · rintro ⟨asks, hscan, -⟩ ⟨hrelax, rfl⟩
    obtain ⟨⟨a, skip⟩, hstep, -⟩ := Option.bind_eq_some_iff.mp ((bind_pure _).symm.trans hscan)
    simp only [Link.scanStep, hrelax] at hstep
    obtain ⟨ty, hty, hpair⟩ := Option.bind_eq_some_iff.mp hstep
    obtain rfl : directType plt = ty := Option.some_inj.mp hty
    cases plt <;> cases hpair
  · intro hmeets
    have hle : L.relaxLdm = true → 3 ≤ off + 2 := by
      intro hrelax
      have hne : off ≠ 0 := fun hzero => hmeets ⟨hrelax, hzero⟩
      omega
    refine correct_of_pair h rfl rfl rfl (by cases plt <;> rfl) rfl
      (fun hleaves => ⟨rfl, (Bool.not_eq_true' _).mp hleaves⟩)
      (fun hrelax => ⟨3, tlsRelaxPrefix_direct plt, hle hrelax⟩)
      (fun _ htype => absurd htype (directType_ne plt)) ⟨Nat.le_add_right _ _, ?_⟩
      ⟨Nat.le_add_right _ _, Nat.le_refl _⟩ fun hhas hrelax mem => ?_
    · change off + 6 ≤ off + 11
      omega
    · refine ⟨ldCode (L.tpAddr - L.tlsBegin) [], ?_, rfl,
        fun m regs => run_ldCode m regs _ _ (.inl rfl)⟩
      refine applyGroup_pair ?_ (tlsRelaxPrefix_direct plt) (hle hrelax) (relaxLdToLe_direct plt)
      simp only [pairEntry] at hhas
      simp only [Link.applyStep, hhas, Bool.false_eq_true, if_false]

theorem run_descCode (m : Machine) (regs : Regs) (val : BitVec 32) :
    run m (0x8d :: 0x05 :: (le32 val ++ [0x66, 0x90])) regs =
      some (Function.update regs 0 val) := by
  have hlea : runTo m 8 (0x8d :: modRM 0 none :: (le32 val ++ [0x66, 0x90])) regs = _ :=
    runTo_lea 0 none val
  rw [runTo_nop2, runTo_nil] at hlea
  exact hlea

variable {callOffset : ℕ}

theorem scan_desc (h : (Sequence.desc base callOffset).At L s sym callee off) :
    ∃ asks, ((Sequence.desc base callOffset).groups sym callee off).foldlM
        (fun a g => L.scanGroup s.contents g a) [] = some asks ∧
      (.tlsdesc sym ∈ asks ↔ L.has (.tlsdesc sym) = true) := by
  have hmem : [⟨off + 2, .tlsGotdesc, sym⟩] ∈ s.groups := h.groups _ List.mem_cons_self
  obtain ⟨asks, hstep⟩ : ∃ asks, L.scanStep s.contents ⟨off + 2, .tlsGotdesc, sym⟩ none [] =
      some (asks, false) := by
    have hoff : ¬off + 2 < 2 := Nat.not_lt.mpr (Nat.le_add_left _ _)
    simp only [Link.scanStep, checkRelaxPrefix, hoff, if_false, Option.map_some]
    split <;> exact ⟨_, rfl⟩
  have hscan := scanGroup_single hstep
  obtain ⟨hown, hall⟩ := mem_asks_iff_leaves (e := .tlsdesc sym) h.mem_sections hmem hscan
    fun hleaves => ⟨_, List.mem_singleton_self _, rfl, rfl, (Bool.not_eq_true' _).mp hleaves⟩
  obtain ⟨asks', hscan'⟩ : ∃ asks',
      L.scanGroup s.contents [⟨callOffset, .tlsDescCall, sym⟩] asks = some asks' := ⟨_, rfl⟩
  have hcall : .tlsdesc sym ∈ asks' ↔ .tlsdesc sym ∈ asks := by
    rw [mem_scanGroup (.inl ⟨_, rfl, rfl⟩) hscan']
    refine or_iff_left ?_
    rintro ⟨rel, hrel, -, htype, -⟩
    obtain rfl := List.mem_singleton.mp hrel
    cases htype
  exact ⟨asks', Option.bind_eq_some_iff.mpr ⟨_, hscan, (bind_pure _).trans hscan'⟩,
    hcall.trans (hown.trans (hall.symm.trans has_iff.symm))⟩

theorem apply_desc_left (s : Section σ) (callee : σ) (off : ℕ)
    (hhas : L.has (.tlsdesc sym) = true) (base : BaseReg) (callOffset : ℕ) (mem : Memory) :
    ∃ v, ((Sequence.desc base callOffset).groups sym callee off).foldlM
      (fun m g => L.applyGroup s g m) mem = some (set32 mem (off + 2) v) := by
  obtain ⟨v, hlea⟩ : ∃ v, L.applyStep s ⟨off + 2, .tlsGotdesc, sym⟩ none mem =
      some (set32 mem (off + 2) v, false) := by
    simp only [Link.applyStep, hhas, if_true]
    exact ⟨_, rfl⟩
  have hcall (mem' : Memory) :
      L.applyStep s ⟨callOffset, .tlsDescCall, sym⟩ none mem' = some (mem', false) := by
    simp only [Link.applyStep, hhas, if_true]
  exact ⟨v, Option.bind_eq_some_iff.mpr ⟨_, applyGroup_single hlea,
    (bind_pure _).trans (applyGroup_single (hcall _))⟩⟩

theorem apply_desc (h : (Sequence.desc base callOffset).At L s sym callee off)
    (hhas : L.has (.tlsdesc sym) = false) (mem : Memory) :
    ((Sequence.desc base callOffset).groups sym callee off).foldlM
      (fun m g => L.applyGroup s g m) mem =
        some (storeBytes (storeBytes mem off
          (0x8d :: 0x05 :: le32 ((L.symbols sym).addr - L.tpAddr))) callOffset [0x66, 0x90]) := by
  have haddend : BitVec.ofNat 32 (loadField .little 4 s.contents (off + 2)) = 0 :=
    addend_eq_zero [0x8d, modRM 0 (some base)] (h.holds _ List.mem_cons_self)
  have hoff : ¬off + 2 < 2 := Nat.not_lt.mpr (Nat.le_add_left _ _)
  have hzero : (L.symbols sym).addr + 0 = (L.symbols sym).addr := BitVec.add_zero _
  obtain ⟨val, hval⟩ : ∃ val, val = (L.symbols sym).addr - L.tpAddr := ⟨_, rfl⟩
  obtain ⟨mem₁, hmem₁⟩ : ∃ mem₁, mem₁ = storeBytes mem off (0x8d :: 0x05 :: le32 val) := ⟨_, rfl⟩
  have hlea : set32 (storeBytes mem off [0x8d, 0x05, 0, 0, 0, 0]) (off + 2) val = mem₁ :=
    (set32_storeBytes [0x8d, 0x05] [0, 0, 0, 0] [] rfl).trans (by rw [List.append_nil, hmem₁]; rfl)
  have hnop : setByte (setByte mem₁ callOffset 0x66) (callOffset + 1) 0x90 =
      storeBytes mem₁ callOffset [0x66, 0x90] := storeBytes_append [0x66] [0x90]
  rw [← hval, ← hmem₁]
  refine Option.bind_eq_some_iff.mpr ⟨mem₁, applyGroup_single ?_,
    (bind_pure _).trans (applyGroup_single ?_)⟩
  · simp only [Link.applyStep, hhas, Bool.false_eq_true, if_false, checkRelaxPrefix, hoff,
      Option.map_some, Nat.add_sub_cancel, haddend, hzero, ← hval, hlea]
  · simp only [Link.applyStep, hhas, Bool.false_eq_true, if_false]
    rw [hnop]

theorem correct_desc (h : (Sequence.desc base callOffset).At L s sym callee off) :
    (Sequence.desc base callOffset).Correct L s sym callee off := by
  obtain ⟨asks, hscan, hiff⟩ := scan_desc h
  refine ⟨asks, hscan, hiff, fun mem _ => ?_⟩
  cases hhas : L.has (.tlsdesc sym) with
  | true =>
    obtain ⟨v, happly⟩ := apply_desc_left s callee off hhas base callOffset mem
    refine ⟨_, happly, fun k hk => set32_of_not_mem ?_, ?_⟩
    · have hk' : k < off ∨ off + 6 ≤ k := hk _ List.mem_cons_self
      omega
    · rintro (hgot | hfalse)
      · cases hgot
      · exact absurd (hhas.symm.trans hfalse) (by decide)
  | false =>
    refine ⟨_, apply_desc h hhas mem, fun k hk => ?_, fun _ m regs => ?_⟩
    · have hlow : k < off ∨ off + 6 ≤ k := hk _ List.mem_cons_self
      have hhigh : k < callOffset ∨ callOffset + 2 ≤ k :=
        hk _ (List.mem_cons_of_mem _ List.mem_cons_self)
      exact (storeBytes_eq_of_not_mem hhigh).trans (storeBytes_eq_of_not_mem hlow)
    · obtain ⟨lea, hlea⟩ : ∃ lea : List Byte,
          lea = 0x8d :: 0x05 :: le32 ((L.symbols sym).addr - L.tpAddr) := ⟨_, rfl⟩
      have hlen : lea.length = 6 := by rw [hlea]; rfl
      have hapart : off + lea.length ≤ callOffset ∨ callOffset + [(0x66 : Byte), 0x90].length ≤ off :=
        hlen ▸ h.apart base callOffset rfl
      have hfirst := loadBytes_of_apart mem hapart
      have hsecond := loadBytes_storeBytes_self (storeBytes mem off lea) callOffset [0x66, 0x90]
      have hcode : (Sequence.desc base callOffset).code off
          (storeBytes (storeBytes mem off lea) callOffset [0x66, 0x90]) = lea ++ [0x66, 0x90] := by
        rw [hlen] at hfirst
        exact congrArg₂ _ hfirst ((List.append_nil _).trans hsecond)
      rw [← hlea, hcode, hlea]
      exact run_descCode m regs _

/-! ### Loads -/

theorem run_mov (m : Machine) (regs : Regs) (dst : Reg) (base : Option BaseReg)
    (val : BitVec 32) : run m (0x8b :: modRM dst base :: le32 val) regs =
      some (Function.update regs dst (m.load (address regs (base.map Subtype.val) val))) := by
  have hmov : runTo m 6 (0x8b :: modRM dst base :: (le32 val ++ [])) regs = _ :=
    runTo_mov dst base val
  rw [List.append_nil, runTo_nil] at hmov
  exact hmov

theorem run_lea (m : Machine) (regs : Regs) (dst : Reg) (base : Option BaseReg)
    (val : BitVec 32) : run m (0x8d :: modRM dst base :: le32 val) regs =
      some (Function.update regs dst (address regs (base.map Subtype.val) val)) := by
  have hlea : runTo m 6 (0x8d :: modRM dst base :: (le32 val ++ [])) regs = _ :=
    runTo_lea dst base val
  rw [List.append_nil, runTo_nil] at hlea
  exact hlea

variable {base : Option BaseReg} {dst : Reg}

omit [DecidableEq σ] in
theorem computes_load_iff {code : List Byte}
    (hcode : code = 0x8b :: modRM dst base :: le32 (L.symbols sym).gotOffset ∨
      code = 0x8d :: modRM dst base :: le32 ((L.symbols sym).addr - L.GOT) ∧
        (L.symbols sym).isImported = false ∧ (L.symbols sym).isAbsolute = false) :
    (Sequence.load base dst).Computes L sym code ↔ base ≠ none := by
  cases base with
  | some r =>
    refine iff_of_true (fun m regs loadBase addr hbase _ haddr hload => ?_) (by simp)
    have hr : regs r.val = L.GOT + loadBase := hbase r rfl
    rcases hcode with rfl | ⟨rfl, himported, habsolute⟩
    · have haddress : address regs (some r.val) (L.symbols sym).gotOffset =
          L.GOT + loadBase + (L.symbols sym).gotOffset := congrArg (· + _) hr
      rw [run_mov, Option.map_some, haddress, hload]
    · have haddress : address regs (some r.val) ((L.symbols sym).addr - L.GOT) = addr := by
        rw [haddr himported habsolute]
        change regs r.val + _ = _
        rw [hr]
        bv_omega
      rw [run_lea, Option.map_some, haddress]
  | none =>
    refine iff_of_false (fun hcomputes => ?_) (by simp)
    have hupdate {a b : BitVec 32}
        (h : some (Function.update (fun _ : Reg => (0 : BitVec 32)) dst a) =
          some (Function.update (fun _ : Reg => (0 : BitVec 32)) dst b)) : a = b := by
      have happly := congrFun (Option.some_inj.mp h) dst
      rwa [Function.update_self, Function.update_self] at happly
    obtain ⟨S, hS⟩ : ∃ S, S = (L.symbols sym).addr := ⟨_, rfl⟩
    obtain ⟨slot, hslot⟩ : ∃ slot, slot = L.GOT + (L.symbols sym).gotOffset := ⟨_, rfl⟩
    have hzero : L.GOT + 0 + (L.symbols sym).gotOffset = slot := by
      rw [hslot]
      bv_omega
    have hrun := hcomputes ⟨fun x => if x = slot then S else S + 1, fun _ => 0⟩ (fun _ => 0) 0 S
      (fun r hr => by cases hr) (fun _ => rfl) (fun _ _ => by rw [hS]; bv_omega)
      (by rw [hzero]; exact if_pos rfl)
    have hne := L.got_ne_zero
    rcases hcode with rfl | ⟨rfl, -, -⟩
    · rw [run_mov] at hrun
      have hload : (if (L.symbols sym).gotOffset = slot then S else S + 1) = S := hupdate hrun
      rw [hslot] at hload
      rw [if_neg (by bv_omega)] at hload
      bv_omega
    · rw [run_lea] at hrun
      have haddr : (L.symbols sym).addr - L.GOT = S := hupdate hrun
      bv_omega

theorem apply_load {mem : Memory} (h : (Sequence.load base dst).At L s sym callee off)
    (hmem : (Sequence.load base dst).Holds off mem) :
    ∃ mem', ((Sequence.load base dst).groups sym callee off).foldlM
        (fun m g => L.applyGroup s g m) mem = some mem' ∧
      (∀ k, k < off ∨ off + 6 ≤ k → mem' k = mem k) ∧
      loadBytes mem' off 6 = if L.has (.got sym) = true
        then 0x8b :: modRM dst base :: le32 (L.symbols sym).gotOffset
        else 0x8d :: modRM dst base :: le32 ((L.symbols sym).addr - L.GOT) := by
  have haddend : BitVec.ofNat 32 (loadField .little 4 s.contents (off + 2)) = 0 :=
    addend_eq_zero [0x8b, modRM dst base] (h.holds _ List.mem_cons_self)
  have hbytes : loadBytes mem off 6 = 0x8b :: modRM dst base :: le32 0 :=
    hmem _ (List.mem_singleton_self _)
  have hzero (a : BitVec 32) : a + 0 = a := BitVec.add_zero a
  cases hhas : L.has (.got sym) with
  | true =>
    refine ⟨set32 mem (off + 2) (L.symbols sym).gotOffset,
      (bind_pure _).trans (applyGroup_single ?_), fun k hk => set32_of_not_mem (by omega), ?_⟩
    · simp only [Link.applyStep, hhas, if_true, haddend, hzero]
    · have hfirst : loadBytes (set32 mem (off + 2) (L.symbols sym).gotOffset) off 2 =
          [0x8b, modRM dst base] := by
        rw [loadBytes_congr fun k _ hhigh => set32_of_not_mem (.inl hhigh)]
        exact loadBytes_part [] [0x8b, modRM dst base] hbytes
      have hsecond : loadBytes (set32 mem (off + 2) (L.symbols sym).gotOffset) (off + 2) 4 =
          le32 (L.symbols sym).gotOffset := by
        rw [set32_eq]
        exact loadBytes_storeBytes_self mem (off + 2) (le32 _)
      rw [loadBytes_add _ _ 2 4, hfirst, hsecond, if_pos rfl]
      rfl
  | false =>
    obtain ⟨lea, hlea⟩ : ∃ lea : List Byte,
      lea = 0x8d :: modRM dst base :: le32 ((L.symbols sym).addr - L.GOT) := ⟨_, rfl⟩
    have hopcode : mem off = 0x8b := byte_of_part [] hbytes
    have hmodRM : mem (off + 1) = modRM dst base := byte_of_part [0x8b] hbytes
    have hinsn : relaxGot32x mem off = 0x8d00 ||| (modRM dst base).val := by
      rw [relaxGot32x, if_pos hopcode, hmodRM]
    obtain ⟨hne, hhigh, hlow⟩ := relaxed_got32x (modRM dst base)
    have hstore : set32 (setByte (setByte mem off (relaxGot32x mem off >>> 8)) (off + 1)
        (relaxGot32x mem off)) (off + 2) ((L.symbols sym).addr - L.GOT) =
          storeBytes mem off lea := by
      rw [hinsn, setByte, setByte, hhigh, hlow, set32_eq, hlea]
      exact (congrArg (storeBytes · _ _) (storeBytes_append [0x8d] [modRM dst base])).trans
        (storeBytes_append [0x8d, modRM dst base] (le32 _))
    have hoff : ¬off + 2 < 2 := Nat.not_lt.mpr (Nat.le_add_left _ _)
    have hoff' : off + 2 - 1 = off + 1 := rfl
    refine ⟨storeBytes mem off lea, (bind_pure _).trans (applyGroup_single ?_),
      fun k hk => storeBytes_eq_of_not_mem (hlea ▸ hk), ?_⟩
    · simp only [Link.applyStep, hhas, Bool.false_eq_true, if_false, checkRelaxPrefix, hoff,
        Option.bind_some, Nat.add_sub_cancel, hinsn, hne, haddend, hzero, hoff']
      rw [← hinsn, hstore]
    · rw [if_neg Bool.false_ne_true, ← hlea]
      exact hlea ▸ loadBytes_storeBytes_self mem off _

omit [DecidableEq σ] in
theorem scan_load (h : (Sequence.load base dst).At L s sym callee off) :
    ∃ asks, ((Sequence.load base dst).groups sym callee off).foldlM
        (fun a g => L.scanGroup s.contents g a) [] = some asks ∧ (∀ e ∈ asks, e ∈ L.asks) ∧
      (.got sym ∈ asks ↔ ¬((L.symbols sym).isIfunc = false ∧ (L.symbols sym).isImported = false ∧
        (L.symbols sym).isAbsolute = false)) := by
  have hmem : [⟨off + 2, .got32x, sym⟩] ∈ s.groups := h.groups _ List.mem_cons_self
  obtain ⟨asks, hstep⟩ := scanStep_call L s.contents ⟨off + 2, .got32x, sym⟩ (.inr rfl) none []
  have hscan := scanGroup_single hstep
  have hbytes : loadBytes s.contents off 6 = 0x8b :: modRM dst base :: le32 0 :=
    h.holds _ (List.mem_singleton_self _)
  have hopcode : s.contents off = 0x8b := byte_of_part [] hbytes
  have hinsn : relaxGot32x s.contents off ≠ 0 := by
    rw [relaxGot32x, if_pos hopcode]
    exact (relaxed_got32x _).1
  refine ⟨asks, (bind_pure _).trans hscan, fun e he =>
    mem_asks.mpr ⟨s, h.mem_sections, _, hmem, asks, hscan, he⟩, ?_⟩
  rw [(scanStep_eq_some hstep).2]
  simp only [Link.Wants, Link.needsGot, doRelax]
  cases (L.symbols sym).isIfunc <;> cases (L.symbols sym).isImported <;>
    cases (L.symbols sym).isAbsolute <;> simp [hinsn]

theorem correct_load_iff (h : (Sequence.load base dst).At L s sym callee off) :
    (Sequence.load base dst).Correct L s sym callee off ↔
      (Sequence.load base dst).Meets L sym off := by
  obtain ⟨asks, hscan, hsubset, hown⟩ := scan_load h
  have htreatment : (.got sym ∈ asks ↔ L.has (.got sym) = true) ↔
      ¬((L.symbols sym).isIfunc = false ∧ (L.symbols sym).isImported = false ∧
        (L.symbols sym).isAbsolute = false ∧ L.AsksGot sym) := by
    constructor
    · rintro hiff ⟨hifunc, himported, habsolute, hasks⟩
      exact hown.mp (hiff.mpr (has_iff.mpr ((got_mem_asks_iff hifunc).mpr hasks)))
        ⟨hifunc, himported, habsolute⟩
    · intro hnot
      refine ⟨fun hasks => has_iff.mpr (hsubset _ hasks), fun hhas => hown.mpr ?_⟩
      rintro ⟨hifunc, himported, habsolute⟩
      exact hnot ⟨hifunc, himported, habsolute, (got_mem_asks_iff hifunc).mp (has_iff.mp hhas)⟩
  have hcode : ∀ code : List Byte, (code = if L.has (.got sym) = true
      then 0x8b :: modRM dst base :: le32 (L.symbols sym).gotOffset
      else 0x8d :: modRM dst base :: le32 ((L.symbols sym).addr - L.GOT)) →
        ((Sequence.load base dst).Computes L sym code ↔ base ≠ none) := by
    intro code hcode
    refine computes_load_iff ?_
    cases hhas : L.has (.got sym) with
    | true => exact .inl (hcode.trans (if_pos hhas))
    | false =>
      have hnot : ¬.got sym ∈ asks := fun hasks =>
        absurd (hhas.symm.trans (has_iff.mpr (hsubset _ hasks))) Bool.false_ne_true
      obtain ⟨-, himported, habsolute⟩ := not_not.mp fun hn => hnot (hown.mpr hn)
      refine .inr ⟨hcode.trans (if_neg ?_), himported, habsolute⟩
      rw [hhas]
      exact Bool.false_ne_true
  constructor
  · rintro ⟨asks', hscan', hiff, happly⟩
    obtain rfl : asks = asks' := Option.some_inj.mp (hscan.symm.trans hscan')
    obtain ⟨mem', happly', -, hcomputes⟩ := happly s.contents h.holds
    obtain ⟨mem'', happly'', -, hbytes⟩ := apply_load h h.holds
    obtain rfl : mem' = mem'' := Option.some_inj.mp (happly'.symm.trans happly'')
    exact ⟨(hcode _ ((List.append_nil _).trans hbytes)).mp (hcomputes (.inl rfl)),
      htreatment.mp hiff⟩
  · rintro ⟨hbase, hmeets⟩
    refine ⟨asks, hscan, htreatment.mpr hmeets, fun mem hmem => ?_⟩
    obtain ⟨mem', happly, hframe, hbytes⟩ := apply_load h hmem
    exact ⟨mem', happly, fun k hk => hframe k (hk _ (List.mem_singleton_self _)),
      fun _ => (hcode _ ((List.append_nil _).trans hbytes)).mpr hbase⟩

/-- Every load and every sequence is treated as it should be if and only if its condition
holds. -/
theorem relaxation_correct_iff {seq : Sequence} (h : seq.At L s sym callee off) :
    seq.Correct L s sym callee off ↔ seq.Meets L sym off := by
  cases seq with
  | load base dst => exact correct_load_iff h
  | gdDirect plt => exact iff_of_true (correct_gdDirect h) trivial
  | gdIndirect base x => exact iff_of_true (correct_gdIndirect h) trivial
  | ldDirect plt => exact correct_ldDirect_iff h
  | ldIndirect base x => exact iff_of_true (correct_ldIndirect h) trivial
  | desc base callOffset => exact iff_of_true (correct_desc h) trivial

end Sequences

section Example

def ldSection (off : ℕ) : Section Unit where
  addr := 0x1000
  contents := storeBytes (fun _ => 0) off (0x8d :: 0x83 :: (le32 0 ++ 0xe8 :: le32 (-4)))
  groups := [[⟨off + 2, .tlsLdm, ()⟩, ⟨off + 7, .plt32, ()⟩]]
  wellFormed := by
    intro g hg
    obtain rfl := List.mem_singleton.mp hg
    exact .inr ⟨_, _, rfl, rfl, rfl⟩

def ldLink (off : ℕ) : Link Unit where
  isStatic := false
  relax := true
  shared := false
  symbols := fun _ => ⟨false, false, false, 0x3000, 0, 0, 0⟩
  GOT := 0x2000
  tpAddr := 0x4000
  tlsBegin := 0x3000
  tlsldAddr := 0
  otherCase := fun _ mem => mem
  sections := [ldSection off]
  got_ne_zero := by decide

theorem at_ldSection (off : ℕ) :
    (Sequence.ldDirect true).At (ldLink off) (ldSection off) () () off where
  mem_sections := List.mem_singleton_self _
  groups := fun g hg => hg
  holds := by
    intro part hpart
    obtain rfl := List.mem_singleton.mp hpart
    exact loadBytes_storeBytes_self _ _ _
  apart := fun base callOffset heq => by cases heq

/-- Behind the first byte of its section the sequence is treated as it should be. -/
theorem correct_ldSection_one :
    (Sequence.ldDirect true).Correct (ldLink 1) (ldSection 1) () () 1 :=
  (relaxation_correct_iff (at_ldSection 1)).mpr fun h => absurd h.2 (by decide)

/-- At the first byte it is rejected. -/
theorem not_correct_ldSection_zero : ¬∀ (L : Link Unit) (s : Section Unit) (seq : Sequence)
    (sym callee : Unit) (off : ℕ), seq.At L s sym callee off → seq.Correct L s sym callee off := by
  intro h
  have hcorrect := h _ _ _ _ _ _ (at_ldSection 0)
  exact (correct_ldDirect_iff (at_ldSection 0)).mp hcorrect ⟨rfl, rfl⟩

end Example

end Mold.Elf.I386
