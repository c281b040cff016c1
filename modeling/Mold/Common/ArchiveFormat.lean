import Mold.Common.ArchiveIndex

/-!
# The format of archives

What a well-formed archive is, as it is written: numbers are decimal digits and blanks, a
name is short, or it is stored in front of the contents, or in a string table.  A header is
followed by its body, and the next header is at an even offset.  In a thin archive, the header
of a file is followed by the next header.
-/

namespace Mold.ArchiveFile

open Lib

/-! ## Numbers and names -/

def digitsValue (digits : List Byte) : ℕ :=
  digits.foldl (fun val c => val * 10 + (c.val - 48)) 0

def IsDecimal (field : List Byte) (n : ℕ) : Prop :=
  ∃ digits blanks, field = digits ++ List.replicate blanks 32 ∧ digits ≠ [] ∧
    (∀ c ∈ digits, 48 ≤ c.val ∧ c.val ≤ 57) ∧ digitsValue digits = n

inductive HasName (arName strtab : List Byte) : List Byte → List Byte → ℕ → Prop
  | bsd {field body name contents : List Byte} {n zeros : ℕ} (hfield : arName = str "#1/" ++ field)
      (hn : IsDecimal field n) (hname : 0 ∉ name) (hlen : name.length + zeros = n)
      (hbody : body = name ++ List.replicate zeros 0 ++ contents) : HasName arName strtab body name n
  | sysv {field body name front back : List Byte} (hfield : arName = str "/" ++ field)
      (hn : IsDecimal field front.length) (hname : ¬ str "/\n" <:+: name)
      (hstrtab : strtab = front ++ (name ++ str "/\n" ++ back)) : HasName arName strtab body name 0
  | short {body name rest : List Byte} (hbsd : ¬ str "#1/" <+: arName) (hsysv : ¬ str "/" <+: arName)
      (hname : 47 ∉ name) (hfield : arName = name ++ rest) (hrest : rest = [] ∨ str "/" <+: rest) :
      HasName arName strtab body name 0

def IsHeader (header arName : List Byte) (size : ℕ) : Prop :=
  ∃ other sizeField, header = arName ++ other ++ sizeField ++ str "`\n" ∧ arName.length = 16 ∧
    other.length = 32 ∧ sizeField.length = 10 ∧ IsDecimal sizeField size

section

variable {field digits strtab body name arName header : List Byte} {n val size : ℕ}

theorem foldl_digits_mono (digits : List Byte) (val : ℕ) :
    val ≤ digits.foldl (fun val c => val * 10 + (c.val - 48)) val := by
  induction digits generalizing val with
  | nil => exact Nat.le_refl val
  | cons c digits ih => exact Nat.le_trans (by omega) (ih (val * 10 + (c.val - 48)))

theorem parseDigits_eq (hdigits : ∀ c ∈ digits, 48 ≤ c.val ∧ c.val ≤ 57)
    (hlt : digits.foldl (fun val c => val * 10 + (c.val - 48)) val ≤ 0xffffffffffffffff) :
    parseDigits digits val = some (digits.foldl (fun val c => val * 10 + (c.val - 48)) val) := by
  induction digits generalizing val with
  | nil => rfl
  | cons c digits ih =>
    have hc := hdigits c List.mem_cons_self
    have hmono := foldl_digits_mono digits (val * 10 + (c.val - 48))
    rw [List.foldl_cons] at hlt
    rw [parseDigits, if_neg (by omega), if_neg (by omega), List.foldl_cons]
    exact ih (fun d hd => hdigits d (List.mem_cons_of_mem c hd)) hlt

theorem foldl_digits_lt (hdigits : ∀ c ∈ digits, 48 ≤ c.val ∧ c.val ≤ 57) :
    digits.foldl (fun val c => val * 10 + (c.val - 48)) val < (val + 1) * 10 ^ digits.length := by
  induction digits generalizing val with
  | nil => simp
  | cons c digits ih =>
    have hc := hdigits c List.mem_cons_self
    have hrest := @ih (val * 10 + (c.val - 48)) fun d hd => hdigits d (List.mem_cons_of_mem c hd)
    rw [List.foldl_cons, List.length_cons, Nat.pow_succ]
    refine Nat.lt_of_lt_of_le hrest ?_
    calc (val * 10 + (c.val - 48) + 1) * 10 ^ digits.length
        ≤ ((val + 1) * 10) * 10 ^ digits.length := Nat.mul_le_mul_right _ (by omega)
      _ = (val + 1) * (10 ^ digits.length * 10) := by
        rw [Nat.mul_assoc, Nat.mul_comm 10]

theorem rdropWhile_blanks (hdigits : ∀ c ∈ digits, 48 ≤ c.val ∧ c.val ≤ 57) (blanks : ℕ) :
    (digits ++ List.replicate blanks 32).rdropWhile (· = 32) = digits := by
  induction blanks with
  | zero =>
    rw [List.replicate_zero, List.append_nil, List.rdropWhile_eq_self_iff]
    intro hne hlast
    have hc := hdigits _ (List.getLast_mem hne)
    rw [of_decide_eq_true hlast] at hc
    exact absurd hc.1 (by decide)
  | succ blanks ih =>
    rw [List.replicate_succ', ← List.append_assoc, List.rdropWhile_concat_pos _ _ _ (by decide), ih]

theorem parseArNum_eq (h : IsDecimal field n) (hlen : field.length ≤ 16) :
    parseArNum field = some n := by
  obtain ⟨digits, blanks, rfl, hne, hdigits, rfl⟩ := h
  have hlt : digits.foldl (fun val c => val * 10 + (c.val - 48)) 0 ≤ 0xffffffffffffffff := by
    refine Nat.le_trans (Nat.le_of_lt (foldl_digits_lt hdigits)) ?_
    rw [List.length_append] at hlen
    calc (0 + 1) * 10 ^ digits.length = 10 ^ digits.length := Nat.one_mul _
      _ ≤ 10 ^ 16 := Nat.pow_le_pow_right (by decide) (by omega)
      _ ≤ 0xffffffffffffffff := by decide
  rw [parseArNum, rdropWhile_blanks hdigits]
  rw [if_neg (by simpa using hne)]
  exact parseDigits_eq hdigits hlt

theorem before_eq {back : List Byte} (hname : ¬ str "/\n" <:+: name) :
    before (str "/\n") (name ++ str "/\n" ++ back) = some name := by
  induction name with
  | nil => rfl
  | cons c name ih =>
    have hrest := ih fun h => hname (h.trans (List.suffix_cons c name).isInfix)
    have hfirst : ¬ (str "/\n").isPrefixOf (c :: (name ++ str "/\n" ++ back)) = true := by
      intro h
      obtain ⟨hc, h⟩ := List.cons_prefix_cons.mp (List.isPrefixOf_iff_prefix.mp h)
      cases name with
      | nil =>
        obtain ⟨hd, -⟩ := List.cons_prefix_cons.mp h
        exact absurd hd (by decide)
      | cons d name =>
        obtain ⟨hd, -⟩ := List.cons_prefix_cons.mp h
        refine hname ⟨[], name, ?_⟩
        rw [← hc, ← hd]
        rfl
    rw [List.cons_append, List.cons_append, before, if_neg hfirst, hrest]
    rfl

theorem takeWhile_append_of_not_mem {c : Byte} {rest : List Byte} (hname : c ∉ name)
    (hrest : rest = [] ∨ [c] <+: rest) : (name ++ rest).takeWhile (· ≠ c) = name := by
  have hpos : ∀ d ∈ name, decide (d ≠ c) = true := fun d hd =>
    decide_eq_true fun h => hname (h ▸ hd)
  rw [List.takeWhile_append_of_pos hpos]
  rcases hrest with rfl | ⟨rest, rfl⟩
  · exact List.append_nil name
  · rw [List.singleton_append, List.takeWhile_cons_of_neg (by simp), List.append_nil]

variable {hdr : ArHdr}

theorem startsWith_iff {s : List Byte} : hdr.startsWith s = true ↔ s <+: hdr.arName :=
  List.isPrefixOf_iff_prefix

theorem HasName.readName (h : HasName hdr.arName strtab body name n)
    (hlen : hdr.arName.length = 16) : hdr.readName strtab body = some (name, n) := by
  cases h with
  | @bsd field _ _ contents _ zeros hfield hn hname hlen' hbody =>
    have hstart : hdr.startsWith (str "#1/") = true := startsWith_iff.mpr ⟨field, hfield.symm⟩
    have hnum : parseArNum (hdr.arName.drop 3) = some n := by
      rw [hfield, List.length_append] at hlen
      rw [hfield]
      exact parseArNum_eq hn (Nat.le_trans (Nat.le_add_left _ _) hlen.le)
    have htake : body.take n = name ++ List.replicate zeros 0 := by
      rw [hbody, List.take_left' (by rw [List.length_append, List.length_replicate, hlen'])]
    rw [ArHdr.readName, if_pos hstart, ArHdr.getBsdNameLen, if_pos hstart, hnum]
    dsimp only
    rw [if_neg ?_, htake, takeWhile_append_of_not_mem hname]
    · cases zeros with
      | zero => exact .inl rfl
      | succ zeros => exact .inr ⟨List.replicate zeros 0, rfl⟩
    · rw [hbody, List.length_append, List.length_append, List.length_replicate]
      omega
  | @sysv field _ _ front back hfield hn hname hstrtab =>
    have hbsd : hdr.startsWith (str "#1/") = false := by
      rw [ArHdr.startsWith, hfield]
      rfl
    have hstart : hdr.startsWith (str "/") = true := startsWith_iff.mpr ⟨field, hfield.symm⟩
    have hnum : parseArNum (hdr.arName.drop 1) = some front.length := by
      rw [hfield, List.length_append] at hlen
      rw [hfield]
      exact parseArNum_eq hn (Nat.le_trans (Nat.le_add_left _ _) hlen.le)
    rw [ArHdr.readName, if_neg (by rw [hbsd]; decide), if_pos hstart, ArHdr.getSysvNameOffset,
      if_pos hstart, hnum]
    dsimp only
    rw [if_neg ?_, hstrtab, List.drop_left, before_eq hname]
    · rfl
    · rw [hstrtab, List.length_append, List.length_append, List.length_append]
      have : (str "/\n").length = 2 := rfl
      omega
  | @short _ _ rest hbsd hsysv hname hfield hrest =>
    rw [ArHdr.readName, if_neg (mt startsWith_iff.mp hbsd), if_neg (mt startsWith_iff.mp hsysv),
      hfield, takeWhile_append_of_not_mem hname hrest]

theorem HasName.not_table (h : HasName hdr.arName strtab body name n) :
    (hdr.isStrtab || hdr.isSymtab) = false := by
  rw [ArHdr.isStrtab, ArHdr.isSymtab]
  cases h with
  | bsd hfield =>
    rw [ArHdr.startsWith, ArHdr.startsWith, ArHdr.startsWith, hfield]
    rfl
  | @sysv field _ _ front back hfield hn =>
    obtain ⟨digits, blanks, rfl, hne, hdigits, -⟩ := hn
    cases digits with
    | nil => exact absurd rfl hne
    | cons c digits =>
      have hc := hdigits c List.mem_cons_self
      have hslash : c ≠ 47 := fun h => absurd (h ▸ hc.1) (by decide)
      have hblank : c ≠ 32 := fun h => absurd (h ▸ hc.1) (by decide)
      have hupper : c ≠ 83 := fun h => absurd (h ▸ hc.2) (by decide)
      have hno : ∀ {d : Byte} {rest : List Byte}, c ≠ d →
          hdr.startsWith (47 :: d :: rest) = false := by
        intro d rest hcd
        rw [Bool.eq_false_iff, Ne, startsWith_iff, hfield]
        intro hpre
        obtain ⟨-, hpre⟩ := List.cons_prefix_cons.mp hpre
        exact hcd (List.cons_prefix_cons.mp hpre).1.symm
      rw [Bool.or_eq_false_iff, Bool.or_eq_false_iff]
      exact ⟨hno hslash, hno hblank, hno hupper⟩
  | short hbsd hsysv =>
    have hno : ∀ {s : List Byte}, str "/" <+: s → hdr.startsWith s = false := by
      intro s hs
      rw [Bool.eq_false_iff, Ne, startsWith_iff]
      exact fun hpre => hsysv (hs.trans hpre)
    rw [Bool.or_eq_false_iff, Bool.or_eq_false_iff]
    exact ⟨hno ⟨_, rfl⟩, hno ⟨_, rfl⟩, hno ⟨_, rfl⟩⟩

end

/-! ## Symbol tables of Darwin -/

/-- The contents of a symbol table, for members with headers at the given offsets: for each
symbol a place in a string table and an offset, and then the string table. -/
def IsSymtab (offsets : List ℕ) (name data : List Byte) : Prop :=
  ∃ (entries : List (ℕ × ℕ)) (strtab rest : List Byte),
    data = le (wordSize name) (2 * wordSize name * entries.length) ++
      (entries.flatMap (fun e => le (wordSize name) e.1 ++ le (wordSize name) e.2) ++
        (le (wordSize name) strtab.length ++ (strtab ++ rest))) ∧
    2 * wordSize name * entries.length < 256 ^ wordSize name ∧
    strtab.length < 256 ^ wordSize name ∧
    ∀ e ∈ entries, e.1 < strtab.length ∧ 0 ∈ strtab.drop e.1 ∧ e.2 ∈ offsets ∧
      e.2 < 256 ^ wordSize name

section

variable {members : List ArchiveMemberInfo} {strtab : List Byte} {width : ℕ}

theorem exists_before {l : List Byte} (h : 0 ∈ l) : ∃ name, before [0] l = some name := by
  induction l with
  | nil => cases h
  | cons c l ih =>
    rw [before]
    split
    · exact ⟨[], rfl⟩
    case isFalse hc =>
      rcases List.mem_cons.mp h with rfl | h
      · exact absurd rfl hc
      · obtain ⟨name, hname⟩ := ih h
        exact ⟨c :: name, congrArg (Option.map (c :: ·)) hname⟩

theorem readWord_le {n : ℕ} (rest : List Byte) (hn : n < 256 ^ width) :
    readWord width (le width n ++ rest) = .ok n := by
  rw [readWord, if_neg, take_append_of_length rest (length_le width n), readLe_le_of_lt hn]
  rw [List.length_append, length_le]
  omega

theorem exists_readRanlibs {entries : List (ℕ × ℕ)} (rest : List Byte)
    (hentries : ∀ e ∈ entries, e.1 < strtab.length ∧ 0 ∈ strtab.drop e.1 ∧
      e.2 ∈ members.map (·.headerOffset) ∧ e.2 < 256 ^ width)
    (hstrtab : strtab.length < 256 ^ width) :
    ∃ symbols, readRanlibs members width strtab entries.length
      (entries.flatMap (fun e => le width e.1 ++ le width e.2) ++ rest) = .ok symbols := by
  induction entries with
  | nil => exact ⟨[], rfl⟩
  | cons e entries ih =>
    obtain ⟨symbols, hsymbols⟩ := ih fun e' he' => hentries e' (List.mem_cons_of_mem e he')
    obtain ⟨hstrx, hnul, hoff, hlt⟩ := hentries e List.mem_cons_self
    obtain ⟨name, hname⟩ := exists_before hnul
    obtain ⟨idx, hidx⟩ : ∃ idx, members.findIdx? (·.headerOffset = e.2) = some idx := by
      rw [← Option.isSome_iff_exists, List.findIdx?_isSome, List.any_eq_true]
      obtain ⟨m, hm, hme⟩ := List.mem_map.mp hoff
      exact ⟨m, hm, decide_eq_true hme⟩
    refine ⟨⟨name, idx⟩ :: symbols, ?_⟩
    rw [List.flatMap_cons, List.append_assoc, List.append_assoc, List.length_cons, readRanlibs,
      readWord_le _ (Nat.lt_trans hstrx hstrtab), drop_append_of_length _ (length_le width e.1),
      readWord_le _ hlt]
    simp only [Except.bind]
    rw [if_neg (Nat.not_le_of_lt hstrx), hname, hidx]
    dsimp only
    rw [Nat.two_mul, ← List.drop_drop, drop_append_of_length _ (length_le width e.1),
      drop_append_of_length _ (length_le width e.2), hsymbols]
    rfl

theorem exists_parseDarwinArchiveSymtab {name data : List Byte}
    (h : IsSymtab (members.map (·.headerOffset)) name data) :
    ∃ symbols, parseDarwinArchiveSymtab members name data = .ok symbols := by
  obtain ⟨entries, strtab, rest, rfl, hsize, hstrtab, hentries⟩ := h
  have hpos : 0 < 2 * wordSize name := by
    rw [wordSize]
    split
    · decide
    · decide
  have hlen : (entries.flatMap
      fun e => le (wordSize name) e.1 ++ le (wordSize name) e.2).length =
        2 * wordSize name * entries.length :=
    length_flatMap_const (fun e => by rw [List.length_append, length_le, length_le, Nat.two_mul])
      entries
  obtain ⟨symbols, hsymbols⟩ := exists_readRanlibs [] hentries hstrtab
  refine ⟨symbols, ?_⟩
  rw [parseDarwinArchiveSymtab, readWord_le _ hsize, drop_append_of_length _ (length_le _ _)]
  simp only [Except.bind]
  rw [if_neg, drop_append_of_length _ hlen, readWord_le _ hstrtab]
  · dsimp only
    rw [drop_append_of_length _ (length_le _ _), if_neg (by rw [List.length_append]; omega),
      List.take_left, take_append_of_length _ hlen, Nat.mul_div_cancel_left _ hpos]
    rw [List.append_nil] at hsymbols
    exact hsymbols
  · rw [List.length_append, hlen]
    simp [Nat.mul_mod_right]

end

/-- What an archive has that is not a string table or a symbol table of another kind. -/
inductive Item where
  | object (name : List Byte) (headerOffset dataOffset dataSize : ℕ)
  | symtab (name data : List Byte)

/-- What comes from an offset on in a well-formed archive. -/
inductive IsArchive (thin : Bool) : ℕ → List Byte → List Byte → List Item → Prop
  | nil {off : ℕ} {strtab : List Byte} : IsArchive thin off strtab [] []
  | pad {off : ℕ} {strtab rest : List Byte} {items : List Item} (c : Byte) (hoff : off % 2 = 1)
      (h : IsArchive thin (off + 1) strtab rest items) :
      IsArchive thin off strtab (c :: rest) items
  | strtab {off : ℕ} {strtab header arName body rest : List Byte} {items : List Item}
      (hoff : off % 2 = 0) (hheader : IsHeader header arName body.length)
      (hname : str "// " <+: arName)
      (h : IsArchive thin (off + 60 + body.length) body rest items) :
      IsArchive thin off strtab (header ++ (body ++ rest)) items
  | symtab {off : ℕ} {strtab header arName body rest : List Byte} {items : List Item}
      (hoff : off % 2 = 0) (hheader : IsHeader header arName body.length)
      (hname : str "/ " <+: arName ∨ str "/SYM64/ " <+: arName)
      (h : IsArchive thin (off + 60 + body.length) strtab rest items) :
      IsArchive thin off strtab (header ++ (body ++ rest)) items
  | darwin {off n : ℕ} {strtab header arName body rest name : List Byte} {items : List Item}
      (hoff : off % 2 = 0) (hheader : IsHeader header arName body.length)
      (hname : HasName arName strtab body name n) (hsymtab : isDarwinSymtabName name = true)
      (hlong : thin = true → str "#1/" <+: arName ∨ str "/" <+: arName)
      (h : IsArchive thin (off + 60 + body.length) strtab rest items) :
      IsArchive thin off strtab (header ++ (body ++ rest)) (.symtab name (body.drop n) :: items)
  | object {off n : ℕ} {strtab header arName body rest name : List Byte} {items : List Item}
      (hthin : thin = false) (hoff : off % 2 = 0) (hheader : IsHeader header arName body.length)
      (hname : HasName arName strtab body name n) (hobject : isDarwinSymtabName name = false)
      (h : IsArchive thin (off + 60 + body.length) strtab rest items) :
      IsArchive thin off strtab (header ++ (body ++ rest))
        (.object name off (off + 60 + n) (body.length - n) :: items)
  | thinObject {off size : ℕ} {strtab header arName rest name : List Byte} {items : List Item}
      (hthin : thin = true) (hoff : off % 2 = 0) (hheader : IsHeader header arName size)
      (hname : HasName arName strtab [] name 0) (hlong : str "/" <+: arName)
      (hobject : isDarwinSymtabName name = false)
      (h : IsArchive thin (off + 60) strtab rest items) :
      IsArchive thin off strtab (header ++ rest) (.object name off 0 0 :: items)

end Mold.ArchiveFile
