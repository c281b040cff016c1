import Mathlib.Algebra.Order.BigOperators.Group.List
import Mold.Common.ArchiveFormat

/-!
# Tar archives

`TarWriter` puts two headers in front of the contents of a file.  The name is in a record of the
first, a PAX header, as in `"16 path=foo/bar\n"`, which begins with its own length.  The length
counts its own digits.  It is computed in two steps: the number of digits of the rest is added,
and then the number of digits of that sum.  The second step ends at the right length, since a sum
that has got one digit more keeps it if it grows by one.

Two blocks of zeros end an archive.  They are written behind each file, and the next one is put
in their place.
-/

namespace Mold.Tar

open Mold.Lib
open Mold.ArchiveFile (digitsValue)

/-- The bytes of a text. -/
def str (s : String) : List Byte := s.toList.map fun c => Fin.ofNat 256 c.toNat

/-- `std::to_string` -/
def toString (n : ℕ) : List Byte := (Nat.toDigits 10 n).map fun c => Fin.ofNat 256 c.toNat

/-- The names that are left of a path, the last one first, and whether a separator is behind
the last one. -/
structure Names where
  names : List (List Byte)
  separator : Bool

/-- The next name of a path is taken up.  A name that is empty or a dot is only a separator,
and two dots remove the name before them. -/
def Names.push (abs : Bool) (p : Names) (name : List Byte) : Names :=
  if name = [] ∨ name = str "." then
    ⟨p.names, true⟩
  else if name = str ".." then
    match p.names with
    | [] => if abs then ⟨[], true⟩ else ⟨[name], false⟩
    | last :: names =>
      if last = str ".." then ⟨name :: last :: names, false⟩ else ⟨names, true⟩
  else
    ⟨name :: p.names, false⟩

/-- `path_clean`, which is `std::filesystem::path::lexically_normal`. -/
def pathClean (path : List Byte) : List Byte :=
  if path = [] then []
  else
    let abs := path.head? = some 47
    let p := (path.splitOn 47).foldl (Names.push abs) ⟨[], false⟩
    let separator := p.separator ∧ p.names ≠ [] ∧ p.names.head? ≠ some (str "..")
    let normal := (if abs then [47] else []) ++ List.intercalate [47] p.names.reverse ++
      (if separator then [47] else [])
    if normal = [] then str "." else normal

example : pathClean (str "/a//./b/../c/") = str "/a/c/" := by decide

/-! ## `encode_path` -/

/-- The length of a record with `len` bytes behind its number. -/
def totalSize (len : ℕ) : ℕ :=
  let total := (toString len).length + len
  (toString total).length + len

/-- `encode_path` -/
def encodePath (basedir path : List Byte) : List Byte :=
  let path := pathClean (basedir ++ str "/" ++ path)
  let len := (str " path=\n").length + path.length
  toString (totalSize len) ++ str " path=" ++ path ++ str "\n"

section Digits

variable {m n k : ℕ}

theorem length_toString_le_iff (h : 0 < k) : (toString n).length ≤ k ↔ n < 10 ^ k := by
  rw [toString, List.length_map]
  exact Nat.length_toDigits_le_iff (by decide) h

theorem length_toString_pos (n : ℕ) : 0 < (toString n).length := by
  rw [toString, List.length_map]
  exact Nat.length_toDigits_pos

theorem length_toString_mono (h : m ≤ n) : (toString m).length ≤ (toString n).length :=
  (length_toString_le_iff (length_toString_pos n)).mpr
    (h.trans_lt ((length_toString_le_iff (length_toString_pos n)).mp (Nat.le_refl _)))

theorem lt_pow_length_toString (n : ℕ) : n < 10 ^ (toString n).length :=
  (length_toString_le_iff (length_toString_pos n)).mp (Nat.le_refl _)

/-- The number of digits of a length that has them counted in is the one that was counted. -/
theorem length_toString_totalSize (len : ℕ) :
    (toString (totalSize len)).length + len = totalSize len := by
  have hk := length_toString_pos len
  have hlt := lt_pow_length_toString len
  rw [totalSize]
  generalize hdigits : (toString len).length = k at hk hlt
  have hpow : k < 10 ^ k := Nat.lt_pow_self (by decide)
  have hsucc : 10 ^ (k + 1) = 10 * 10 ^ k := pow_succ' 10 k
  have hlow : k ≤ (toString (k + len)).length := by
    rw [← hdigits]
    exact length_toString_mono (Nat.le_add_left _ _)
  have hhigh : (toString (k + len)).length ≤ k + 1 :=
    (length_toString_le_iff k.succ_pos).mpr (by omega)
  rcases Nat.lt_or_ge k (toString (k + len)).length with hmore | hsame
  · -- the sum has a digit more, and so has the number after it
    have hdigits' : (toString (k + len)).length = k + 1 := by omega
    have hlow' : k + 1 ≤ (toString (k + 1 + len)).length := by
      rw [← hdigits']
      exact length_toString_mono (by omega)
    have hhigh' : (toString (k + 1 + len)).length ≤ k + 1 :=
      (length_toString_le_iff k.succ_pos).mpr (by omega)
    simp only [hdigits', Nat.le_antisymm hhigh' hlow']
  · have hdigits' : (toString (k + len)).length = k := by omega
    simp only [hdigits']

end Digits

/-! ## Reading a record -/

def IsDigit (c : Byte) : Prop := 48 ≤ c.val ∧ c.val ≤ 57

instance instDecidableIsDigit (c : Byte) : Decidable (IsDigit c) :=
  inferInstanceAs (Decidable (_ ∧ _))

def leadingDigits (s : List Byte) : List Byte := s.takeWhile fun c => IsDigit c

/-- The number at the start of a text. -/
def leadingNumber (s : List Byte) : ℕ := digitsValue (leadingDigits s)

section Numbers

variable {b n : ℕ} {c : Char}

theorem toNat_of_mem_toDigits (hb : 1 < b) (hten : b ≤ 10) (h : c ∈ Nat.toDigits b n) :
    48 ≤ c.toNat ∧ c.toNat < 48 + b := by
  induction n using Nat.strongRecOn with
  | ind n ih =>
    have hdigit {d : ℕ} (hd : d < b) (hc : c = d.digitChar) : 48 ≤ c.toNat ∧ c.toNat < 48 + b := by
      rw [hc, Nat.toNat_digitChar_of_lt_ten (Nat.lt_of_lt_of_le hd hten)]
      omega
    rw [Nat.toDigits_eq_if hb] at h
    split_ifs at h with hn
    · exact hdigit hn (List.mem_singleton.mp h)
    · rcases List.mem_append.mp h with h | h
      · exact ih (n / b) (Nat.div_lt_self (by omega) hb) h
      · exact hdigit (Nat.mod_lt n (by omega)) (List.mem_singleton.mp h)

/-- The number of some digits, which have become bytes. -/
theorem foldl_digits {cs : List Char} (hcs : ∀ c ∈ cs, c.toNat < 256) (init : ℕ) :
    (cs.map fun c => (Fin.ofNat 256 c.toNat : Byte)).foldl
      (fun val c => val * b + (c.val - 48)) init = Nat.ofDigitChars b cs init := by
  induction cs generalizing init with
  | nil => rfl
  | cons c cs ih =>
    have hval : (Fin.ofNat 256 c.toNat : Byte).val = c.toNat := by
      rw [Fin.val_ofNat, Nat.mod_eq_of_lt (hcs c List.mem_cons_self)]
    rw [List.map_cons, List.foldl_cons, ih fun d hd => hcs d (List.mem_cons_of_mem c hd),
      Nat.ofDigitChars_cons, hval, Nat.mul_comm init]
    rfl

end Numbers

theorem isDigit_of_mem_toString {n : ℕ} {c : Byte} (h : c ∈ toString n) : IsDigit c := by
  obtain ⟨d, hd, rfl⟩ := List.mem_map.mp h
  have hdigit := toNat_of_mem_toDigits (by decide) (by decide) hd
  rw [IsDigit, Fin.val_ofNat]
  omega

theorem digitsValue_toString (n : ℕ) : digitsValue (toString n) = n := by
  rw [digitsValue, toString, foldl_digits fun c hc => ?_, Nat.ofDigitChars_ten_toDigits]
  have hdigit := toNat_of_mem_toDigits (by decide) (by decide) hc
  omega

theorem leadingDigits_toString_append {n : ℕ} {c : Byte} (hc : ¬IsDigit c) (rest : List Byte) :
    leadingDigits (toString n ++ c :: rest) = toString n := by
  rw [leadingDigits, List.takeWhile_append_of_pos fun d hd =>
    decide_eq_true (isDigit_of_mem_toString hd), List.takeWhile_cons_of_neg, List.append_nil]
  exact fun h => hc (of_decide_eq_true h)

/-- A record of a PAX header: its length, a blank, a keyword, an equals sign, a value and the
end of the line.  The result is the keyword, the value and what is behind the record. -/
def readRecord (s : List Byte) : Option ((List Byte × List Byte) × List Byte) :=
  let line := (s.take (leadingNumber s)).drop (leadingDigits s).length
  match line with
  | [] => none
  | c :: entry =>
    if c = 32 ∧ entry.getLast? = some 10 then
      let keyword := entry.takeWhile (· ≠ 61)
      some ((keyword, (entry.drop (keyword.length + 1)).dropLast), s.drop (leadingNumber s))
    else
      none

section Encode

variable (basedir path : List Byte)

theorem encodePath_eq : encodePath basedir path =
    toString (encodePath basedir path).length ++
      32 :: (str "path=" ++ pathClean (basedir ++ str "/" ++ path) ++ str "\n") := by
  have hlen : (encodePath basedir path).length =
      totalSize ((str " path=\n").length +
        (pathClean (basedir ++ str "/" ++ path)).length) := by
    have hrest : (str " path=\n").length = (str " path=").length + (str "\n").length := rfl
    have htotal := length_toString_totalSize ((str " path=\n").length +
      (pathClean (basedir ++ str "/" ++ path)).length)
    simp only [encodePath, List.length_append]
    omega
  rw [hlen, encodePath, List.append_assoc, List.append_assoc]
  rfl

/-- A record begins with its length. -/
theorem leadingNumber_encodePath :
    leadingNumber (encodePath basedir path) = (encodePath basedir path).length := by
  rw [leadingNumber, encodePath_eq, leadingDigits_toString_append (by decide),
    digitsValue_toString, ← encodePath_eq]

/-- A reader of PAX headers gets the cleaned path and is then behind the record. -/
theorem readRecord_encodePath (rest : List Byte) :
    readRecord (encodePath basedir path ++ rest) =
      some ((str "path", pathClean (basedir ++ str "/" ++ path)), rest) := by
  have hdigits : leadingDigits (encodePath basedir path ++ rest) =
      toString (encodePath basedir path).length := by
    rw [encodePath_eq, List.append_assoc, List.cons_append,
      leadingDigits_toString_append (by decide), ← encodePath_eq]
  have hnumber : leadingNumber (encodePath basedir path ++ rest) =
      (encodePath basedir path).length := by
    rw [leadingNumber, hdigits, digitsValue_toString]
  have hline : (encodePath basedir path).drop
      (toString (encodePath basedir path).length).length =
        32 :: (str "path=" ++ pathClean (basedir ++ str "/" ++ path) ++ str "\n") :=
    (congrArg (List.drop _) (encodePath_eq basedir path)).trans List.drop_left
  have hlast : (str "path=" ++ pathClean (basedir ++ str "/" ++ path) ++ str "\n").getLast? =
      some 10 := List.getLast?_concat
  have hkeyword : (str "path=" ++ pathClean (basedir ++ str "/" ++ path) ++ str "\n").takeWhile
      (· ≠ 61) = str "path" := rfl
  have hvalue : (str "path=" ++ pathClean (basedir ++ str "/" ++ path) ++ str "\n").drop
      ((str "path").length + 1) = pathClean (basedir ++ str "/" ++ path) ++ str "\n" := by
    rw [List.append_assoc]
    rfl
  have hend : (pathClean (basedir ++ str "/" ++ path) ++ str "\n").dropLast =
      pathClean (basedir ++ str "/" ++ path) := List.dropLast_concat
  rw [readRecord, hdigits, hnumber, List.take_left, List.drop_left, hline]
  simp only [hlast, and_self, if_true, hkeyword, hvalue, hend]

end Encode

/-! ## `UstarHeader` -/

def zeros (n : ℕ) : List Byte := List.replicate n 0

/-- The text of `%0*o`. -/
def octal (width n : ℕ) : List Byte :=
  let digits := (Nat.toDigits 8 n).map fun c => Fin.ofNat 256 c.toNat
  List.replicate (width - digits.length) 48 ++ digits

/-- A text is written to a field.  It is cut to leave room for the zero behind it, and what is
behind that zero stays as it is. -/
def snprintf (field text : List Byte) : List Byte :=
  text.take (field.length - 1) ++ 0 :: field.drop ((text.take (field.length - 1)).length + 1)

/-- The fields that are written.  All others stay zero. -/
structure UstarHeader where
  mode : List Byte
  size : List Byte
  checksum : List Byte
  typeflag : Byte
  magic : List Byte
  version : List Byte

namespace UstarHeader

/-- `memset` -/
def new : UstarHeader := ⟨zeros 8, zeros 12, zeros 8, 0, zeros 6, zeros 2⟩

/-- The header in memory, with the fields `name`, `uid`, `gid`, `mtime`, `linkname`, and those
from `uname` on. -/
def bytes (hdr : UstarHeader) : List Byte :=
  zeros 100 ++ hdr.mode ++ zeros 8 ++ zeros 8 ++ hdr.size ++ zeros 12 ++ hdr.checksum ++
    [hdr.typeflag] ++ zeros 100 ++ hdr.magic ++ hdr.version ++
    (zeros 32 ++ zeros 32 ++ zeros 8 ++ zeros 8 ++ zeros 155 ++ zeros 12)

def finalize (hdr : UstarHeader) : UstarHeader :=
  let hdr := { hdr with
    checksum := List.replicate 8 32
    magic := str "ustar" ++ hdr.magic.drop 5
    version := str "00" }
  let sum := (hdr.bytes.map Fin.val).sum
  { hdr with checksum := snprintf hdr.checksum (octal 6 sum) }

end UstarHeader

/-! ## `TarWriter` -/

/-- A file that is written, and the position in it. -/
structure Out where
  bytes : List Byte
  pos : ℕ

/-- A write behind the end fills the space in front of it with zeros. -/
def Out.fwrite (out : Out) (data : List Byte) : Out :=
  if data = [] then out
  else
    ⟨(out.bytes ++ zeros (out.pos - out.bytes.length)).take out.pos ++ data ++
      out.bytes.drop (out.pos + data.length), out.pos + data.length⟩

def Out.fseek (out : Out) (pos : ℕ) : Out := { out with pos }

/-- `align_to` of a power of two. -/
def alignTo (val align : ℕ) : ℕ := (val + align - 1) / align * align

structure TarWriter where
  out : Out
  basedir : List Byte

/-- `fopen` empties the file. -/
def TarWriter.openTar (basedir : List Byte) : TarWriter := ⟨⟨[], 0⟩, basedir⟩

def TarWriter.append (tar : TarWriter) (path data : List Byte) : TarWriter :=
  let pax := UstarHeader.new
  let attr := encodePath tar.basedir path
  let pax := { pax with size := snprintf pax.size (octal 11 attr.length), typeflag := 120 }
  let out := tar.out.fwrite pax.finalize.bytes
  let out := out.fwrite attr
  let out := out.fseek (alignTo out.pos 512)
  let ustar := { UstarHeader.new with mode := str "0000664" ++ [0] }
  let ustar := { ustar with size := snprintf ustar.size (octal 11 data.length) }
  let out := out.fwrite ustar.finalize.bytes
  let out := out.fwrite data
  let out := out.fseek (alignTo out.pos 512)
  let out := out.fwrite (zeros 1024)
  { tar with out := out.fseek (out.bytes.length - 1024) }

/-! ## Reading an archive -/

def IsOctal (c : Byte) : Prop := 48 ≤ c.val ∧ c.val ≤ 55

instance instDecidableIsOctal (c : Byte) : Decidable (IsOctal c) :=
  inferInstanceAs (Decidable (_ ∧ _))

def octalValue (field : List Byte) : ℕ :=
  (field.takeWhile fun c => IsOctal c).foldl (fun val c => val * 8 + (c.val - 48)) 0

/-- The type and the size of a header.  Its checksum is the sum of its bytes, with blanks in
place of the checksum. -/
def readHeader (block : List Byte) : Option (Byte × ℕ) :=
  let blanked := block.take 148 ++ List.replicate 8 32 ++ block.drop 156
  if (block.drop 257).take 8 = str "ustar" ++ [0] ++ str "00" ∧
      octalValue ((block.drop 148).take 8) = (blanked.map Fin.val).sum then
    some (block.getD 156 0, octalValue ((block.drop 124).take 12))
  else
    none

/-- All records of a PAX header. -/
def readRecords : ℕ → List Byte → Option (List (List Byte × List Byte))
  | _, [] => some []
  | 0, _ :: _ => none
  | fuel + 1, s => do
      let (record, rest) ← readRecord s
      return record :: (← readRecords fuel rest)

/-- The name of a file that the records in front of its header give, of which the last one
counts. -/
def pathRecord (records : List (List Byte × List Byte)) : Option (List Byte) :=
  records.reverse.lookup (str "path")

/-- The files of an archive.  `path` is the name for the next file if there is one.  An archive
ends with its file or with two blocks of zeros. -/
def readFiles : ℕ → Option (List Byte) → List Byte → Option (List (List Byte × List Byte))
  | 0, _, _ => none
  | fuel + 1, path, s =>
    if s = [] ∨ s.take 1024 = zeros 1024 then
      some []
    else do
      let block := s.take 512
      let (typeflag, size) ← readHeader block
      let data := (s.drop 512).take size
      guard (data.length = size)
      let rest := s.drop (512 + alignTo size 512)
      if typeflag = 120 then
        readFiles fuel (pathRecord (← readRecords data.length data)) rest
      else if typeflag = 0 ∨ typeflag = 48 then
        let name := path.getD ((block.take 100).takeWhile (· ≠ 0))
        return (name, data) :: (← readFiles fuel none rest)
      else
        none

def readArchive (s : List Byte) : Option (List (List Byte × List Byte)) :=
  readFiles (s.length + 1) none s

/-! ## What a run writes -/

/-- `s` has been written.  It is followed by `k` zeros, and the position is `p` bytes behind it. -/
def Out.written (s : List Byte) (k p : ℕ) : Out := ⟨s ++ zeros k, s.length + p⟩

def padded (s : List Byte) : List Byte := s ++ zeros (alignTo s.length 512 - s.length)

def header (mode : List Byte) (typeflag : Byte) (size : ℕ) : List Byte :=
  (UstarHeader.finalize { UstarHeader.new with
    mode, size := snprintf (zeros 12) (octal 11 size), typeflag }).bytes

def fileMode : List Byte := str "0000664" ++ [0]

/-- The blocks of a file. -/
def member (basedir : List Byte) (file : List Byte × List Byte) : List Byte :=
  let attr := encodePath basedir file.1
  header (zeros 8) 120 attr.length ++ (padded attr ++
    (header fileMode 0 file.2.length ++ padded file.2))

/-- A run of `append`. -/
def appendFiles (basedir : List Byte) (files : List (List Byte × List Byte)) : TarWriter :=
  files.foldl (fun tar file => tar.append file.1 file.2) (TarWriter.openTar basedir)

section Write

variable {s field text mode data path basedir : List Byte} {k p n : ℕ} {typeflag : Byte}

theorem length_zeros (n : ℕ) : (zeros n).length = n := List.length_replicate

theorem length_fileMode : fileMode.length = 8 := rfl

theorem length_snprintf (h : 0 < field.length) : (snprintf field text).length = field.length := by
  rw [snprintf, List.length_append, List.length_cons, List.length_drop, List.length_take]
  omega

theorem length_header (hmode : mode.length = 8) : (header mode typeflag n).length = 512 := by
  have hsize : (snprintf (zeros 12) (octal 11 n)).length = 12 :=
    length_snprintf (by decide)
  have hchecksum (sum : ℕ) :
      (snprintf (List.replicate 8 32) (octal 6 sum)).length = 8 := length_snprintf (by decide)
  have hmagic : (str "ustar" ++ (zeros 6).drop 5).length = 6 := rfl
  have hversion : (str "00").length = 2 := rfl
  simp only [header, UstarHeader.finalize, UstarHeader.new, UstarHeader.bytes,
    List.length_append, List.length_singleton, length_zeros, hmode, hsize, hchecksum, hmagic,
    hversion]

theorem length_padded (s : List Byte) : (padded s).length = alignTo s.length 512 := by
  rw [padded, List.length_append, length_zeros, alignTo]
  omega

/-- A write takes the place of zeros, or the space in front of it becomes zeros. -/
theorem fwrite_written (h : data ≠ [] ∨ p = 0) :
    (Out.written s k p).fwrite data =
      Out.written (s ++ zeros p ++ data) (k - (p + data.length)) 0 := by
  have hzeros (m n : ℕ) : zeros m ++ zeros n = zeros (m + n) := List.replicate_append_replicate
  rw [Out.fwrite]
  split_ifs with hdata
  · obtain rfl := h.resolve_left (not_not_intro hdata)
    rw [hdata, List.append_nil, show zeros 0 = [] from rfl, List.append_nil]
    rfl
  · have hlen : (s ++ zeros k).length = s.length + k := by
      rw [List.length_append, length_zeros]
    have hfront : (s ++ zeros k ++ zeros (s.length + p - (s.length + k))).take (s.length + p) =
        s ++ zeros p := by
      rw [List.append_assoc, hzeros, List.take_length_add_append, zeros, List.take_replicate,
        Nat.min_eq_left (by omega)]
      rfl
    have hback : (s ++ zeros k).drop (s.length + p + data.length) =
        zeros (k - (p + data.length)) := by
      rw [Nat.add_assoc, List.drop_length_add_append, zeros, List.drop_replicate]
      rfl
    rw [Out.written, hlen, hfront, hback, Out.written, List.length_append, List.length_append,
      length_zeros]
    rfl

/-- The position is set to the next block behind what has been written. -/
theorem fseek_written (hs : s.length % 512 = 0) :
    (Out.written (s ++ data) k 0).fseek (alignTo (Out.written (s ++ data) k 0).pos 512) =
      Out.written (s ++ data) k (alignTo data.length 512 - data.length) := by
  have hpos : alignTo (s ++ data).length 512 =
      (s ++ data).length + (alignTo data.length 512 - data.length) := by
    rw [List.length_append, alignTo, alignTo]
    omega
  exact congrArg (Out.mk (s ++ data ++ zeros k)) hpos

theorem fwrite_front (data : List Byte) :
    (Out.written s k 0).fwrite data = Out.written (s ++ data) (k - data.length) 0 := by
  have h := @fwrite_written s data k 0 (.inr rfl)
  rwa [Nat.zero_add, show zeros 0 = [] from rfl, List.append_nil] at h

/-- A body is put in place of zeros, with zeros up to the next block. -/
theorem fwrite_body (hs : s.length % 512 = 0) (hdata : data ≠ []) (body : List Byte) :
    (((Out.written s k 0).fwrite body).fseek
      (alignTo ((Out.written s k 0).fwrite body).pos 512)).fwrite data =
        Out.written (s ++ padded body ++ data)
          (k - body.length - (alignTo body.length 512 - body.length + data.length)) 0 := by
  rw [fwrite_front, fseek_written hs, fwrite_written (.inl hdata), padded, ← List.append_assoc s]

theorem fseek_end (s : List Byte) :
    (Out.written (s ++ zeros 1024) 0 0).fseek
      ((Out.written (s ++ zeros 1024) 0 0).bytes.length - 1024) = Out.written s 1024 0 := by
  have hbytes : s ++ zeros 1024 ++ zeros 0 = s ++ zeros 1024 := List.append_nil _
  have hpos : (s ++ zeros 1024).length - 1024 = s.length := by
    rw [List.length_append, length_zeros, Nat.add_sub_cancel]
  rw [Out.written, Out.fseek, hbytes, hpos]
  rfl

theorem append_eq (out : Out) : TarWriter.append ⟨out, basedir⟩ path data =
    let attr := encodePath basedir path
    let out := (out.fwrite (header (zeros 8) 120 attr.length)).fwrite attr
    let out := (out.fseek (alignTo out.pos 512)).fwrite (header fileMode 0 data.length)
    let out := out.fwrite data
    let out := (out.fseek (alignTo out.pos 512)).fwrite (zeros 1024)
    ⟨out.fseek (out.bytes.length - 1024), basedir⟩ := rfl

/-- A file is put behind the others, in place of the two blocks of zeros. -/
theorem append_written (hk : k ≤ 1024) (hs : s.length % 512 = 0) :
    TarWriter.append ⟨Out.written s k 0, basedir⟩ path data =
      ⟨Out.written (s ++ member basedir (path, data)) 1024 0, basedir⟩ := by
  have hattr : 0 < (encodePath basedir path).length := by
    rw [encodePath_eq, List.length_append]
    exact Nat.lt_add_right _ (length_toString_pos _)
  rw [append_eq, member]
  dsimp only
  generalize encodePath basedir path = attr at hattr
  have hpax : (header (zeros 8) 120 attr.length).length = 512 := length_header (length_zeros 8)
  have hustar : (header fileMode 0 data.length).length = 512 := length_header length_fileMode
  generalize header (zeros 8) 120 attr.length = pax at hpax
  generalize header fileMode 0 data.length = ustar at hustar
  have hfirst : (Out.written s k 0).fwrite pax = Out.written (s ++ pax) (k - 512) 0 :=
    hpax ▸ fwrite_front pax
  have hsecond := @fwrite_body (s ++ pax) ustar (k - 512)
    (by rw [List.length_append]; omega) (List.ne_nil_of_length_pos (by omega)) attr
  -- the zeros that were behind the files before are overwritten
  have hzeros : k - 512 - attr.length - (alignTo attr.length 512 - attr.length + ustar.length) =
      0 := by
    rw [alignTo]
    omega
  rw [hzeros] at hsecond
  have hthird := @fwrite_body (s ++ pax ++ padded attr ++ ustar) (zeros 1024) 0
    (by simp only [List.length_append, length_padded, alignTo]; omega) (by decide) data
  simp only [hfirst, hsecond, hthird, Nat.zero_sub, ← List.append_assoc]
  exact congrArg (TarWriter.mk · basedir) (fseek_end _)

theorem length_member (basedir : List Byte) (file : List Byte × List Byte) :
    (member basedir file).length % 512 = 0 ∧ 1024 ≤ (member basedir file).length := by
  simp only [member, List.length_append, length_header length_fileMode,
    length_header (length_zeros 8), length_padded, alignTo]
  omega

/-- Files are put behind the ones before them, in the same way for each of them. -/
theorem foldl_append_written (files : List (List Byte × List Byte)) (hk : k ≤ 1024)
    (hs : s.length % 512 = 0) :
    files.foldl (fun (tar : TarWriter) file => tar.append file.1 file.2)
        ⟨Out.written s k 0, basedir⟩ =
      ⟨Out.written (s ++ files.flatMap (member basedir)) (if files = [] then k else 1024) 0,
        basedir⟩ := by
  induction files generalizing s k with
  | nil =>
    rw [List.flatMap_nil, List.append_nil, if_pos rfl]
    rfl
  | cons file files ih =>
    have hlen : (s ++ member basedir file).length % 512 = 0 := by
      have h := (length_member basedir file).1
      rw [List.length_append]
      omega
    rw [List.foldl_cons, append_written hk hs, ih (Nat.le_refl _) hlen, List.flatMap_cons,
      List.append_assoc, if_neg (List.cons_ne_nil _ _), ite_self]

/-- What is in the file after any files have been appended. -/
theorem appendFiles_eq (basedir : List Byte) (files : List (List Byte × List Byte)) :
    appendFiles basedir files =
      ⟨Out.written (files.flatMap (member basedir)) (if files = [] then 0 else 1024) 0, basedir⟩ :=
  @foldl_append_written [] basedir 0 files (Nat.zero_le _) rfl

/-- The assertion at the end of `append`. -/
theorem appendFiles_pos_mod (basedir : List Byte) (files : List (List Byte × List Byte)) :
    (appendFiles basedir files).out.pos % 512 = 0 := by
  rw [appendFiles_eq]
  induction files with
  | nil => rfl
  | cons file files ih =>
    have h := (length_member basedir file).1
    simp only [Out.written, List.flatMap_cons, List.length_append] at ih ⊢
    omega

end Write

/-! ## What a reader gets -/

section Octal

variable {n width : ℕ} {field : List Byte}

theorem isOctal_of_mem_octal {c : Byte} (h : c ∈ octal width n) : IsOctal c := by
  rw [octal, List.mem_append] at h
  rcases h with h | h
  · rw [List.eq_of_mem_replicate h]
    decide
  · obtain ⟨d, hd, rfl⟩ := List.mem_map.mp h
    have h := toNat_of_mem_toDigits (by decide) (by decide) hd
    rw [IsOctal, Fin.val_ofNat]
    omega

theorem length_octal (hwidth : 0 < width) (h : n < 8 ^ width) : (octal width n).length = width := by
  have hlen := (Nat.length_toDigits_le_iff (by decide) hwidth).mpr h
  rw [octal, List.length_append, List.length_replicate, List.length_map]
  omega

theorem octalValue_append {text rest : List Byte} (h : ∀ c ∈ text, IsOctal c) :
    octalValue (text ++ 0 :: rest) = text.foldl (fun val c => val * 8 + (c.val - 48)) 0 := by
  rw [octalValue, List.takeWhile_append_of_pos fun c hc => decide_eq_true (h c hc),
    List.takeWhile_cons_of_neg (by decide), List.append_nil]

theorem foldl_octal (width n : ℕ) :
    (octal width n).foldl (fun val c => val * 8 + (c.val - 48)) 0 = n := by
  have hblank (k : ℕ) : (List.replicate k (48 : Byte)).foldl
      (fun val c => val * 8 + (c.val - 48)) 0 = 0 := by
    induction k with
    | zero => rfl
    | succ k ih => exact ih
  have hcs : ∀ c ∈ Nat.toDigits 8 n, c.toNat < 256 := by
    intro c hc
    have h := toNat_of_mem_toDigits (by decide) (by decide) hc
    omega
  rw [octal, List.foldl_append, hblank, foldl_digits hcs,
    Nat.ofDigitChars_toDigits (by decide) (by decide)]

/-- A number that fits into a field is read back. -/
theorem octalValue_snprintf (hwidth : 0 < width) (h : n < 8 ^ width)
    (hfield : width < field.length) : octalValue (snprintf field (octal width n)) = n := by
  have htake : (octal width n).take (field.length - 1) = octal width n :=
    List.take_of_length_le (by rw [length_octal hwidth h]; omega)
  rw [snprintf, htake, octalValue_append fun c hc => isOctal_of_mem_octal hc, foldl_octal]

/-- A number is less than the next power for its digits. -/
theorem foldl_octal_lt {text : List Byte} (h : ∀ c ∈ text, IsOctal c) (val : ℕ) :
    text.foldl (fun val c => val * 8 + (c.val - 48)) val < (val + 1) * 8 ^ text.length := by
  induction text generalizing val with
  | nil => simp
  | cons c text ih =>
    have hc : c.val - 48 ≤ 7 := by
      have := h c List.mem_cons_self
      rw [IsOctal] at this
      omega
    rw [List.foldl_cons, List.length_cons, pow_succ']
    refine (ih (fun d hd => h d (List.mem_cons_of_mem c hd)) _).trans_le ?_
    rw [← Nat.mul_assoc]
    exact Nat.mul_le_mul_right _ (by omega)

/-- The number that is read from a field of a header, which has room for eleven digits. -/
def fieldSize (n : ℕ) : ℕ := octalValue (snprintf (zeros 12) (octal 11 n))

theorem fieldSize_eq (h : n < 8 ^ 11) : fieldSize n = n :=
  octalValue_snprintf (by decide) h (by decide)

theorem fieldSize_lt (n : ℕ) : fieldSize n < 8 ^ 11 := by
  have hoctal : ∀ c ∈ (octal 11 n).take 11, IsOctal c :=
    fun c hc => isOctal_of_mem_octal (List.mem_of_mem_take hc)
  have hlen : ((octal 11 n).take 11).length ≤ 11 := List.length_take_le _ _
  have hval : fieldSize n = ((octal 11 n).take 11).foldl (fun val c => val * 8 + (c.val - 48)) 0 :=
    octalValue_append hoctal
  rw [hval]
  refine (foldl_octal_lt hoctal 0).trans_le ?_
  rw [Nat.zero_add, Nat.one_mul]
  exact Nat.pow_le_pow_right (by decide) hlen

theorem fieldSize_le (n : ℕ) : fieldSize n ≤ n := by
  rcases Nat.lt_or_ge n (8 ^ 11) with h | h
  · exact (fieldSize_eq h).le
  · exact (fieldSize_lt n).le.trans h

end Octal

section Header

variable {front size mtime checksum linkname back mode : List Byte} {typeflag : Byte} {n : ℕ}

/-- The fields of a header are where a reader expects them. -/
theorem readHeader_eq (hfront : front.length = 124) (hsize : size.length = 12)
    (hmtime : mtime.length = 12) (hchecksum : checksum.length = 8)
    (hlinkname : linkname.length = 100) :
    readHeader (front ++ (size ++ (mtime ++ (checksum ++ (typeflag :: (linkname ++
        (str "ustar" ++ [0] ++ str "00" ++ back))))))) =
      if octalValue checksum =
          ((front ++ (size ++ (mtime ++ (List.replicate 8 32 ++ (typeflag :: (linkname ++
            (str "ustar" ++ [0] ++ str "00" ++ back))))))).map Fin.val).sum then
        some (typeflag, octalValue size)
      else
        none := by
  generalize hback : str "ustar" ++ [0] ++ str "00" ++ back = magic
  have hmagic : magic.take 8 = str "ustar" ++ [0] ++ str "00" := hback ▸ List.take_left' rfl
  generalize hblock :
    front ++ (size ++ (mtime ++ (checksum ++ (typeflag :: (linkname ++ magic))))) = block
  have h124 : block.drop 124 = size ++ (mtime ++ (checksum ++ (typeflag :: (linkname ++ magic)))) :=
    hblock ▸ List.drop_left' hfront
  have hdrop {front back : List Byte} {i j : ℕ} (h : block.drop i = front ++ back)
      (hlen : front.length = j) : block.drop (i + j) = back := by
    rw [← List.drop_drop, h, List.drop_left' hlen]
  have h136 := hdrop h124 hsize
  have h148 := hdrop h136 hmtime
  have h156 := hdrop h148 hchecksum
  have h257 := @hdrop (typeflag :: linkname) _ _ 101 h156 (congrArg Nat.succ hlinkname)
  have htypeflag : block.getD 156 0 = typeflag := by
    rw [List.getD_eq_getElem?_getD, ← Nat.add_zero 156, ← List.getElem?_drop, h156]
    rfl
  have hbefore : block.take 148 = front ++ (size ++ mtime) := by
    rw [← hblock, ← List.append_assoc size, ← List.append_assoc front]
    exact List.take_left' (by simp only [List.length_append]; omega)
  rw [readHeader, h257, h148, h124, h156, hmagic, htypeflag, hbefore, List.take_left' hchecksum,
    List.take_left' hsize]
  simp only [true_and, List.append_assoc]

theorem readHeader_header (hmode : mode.length = 8) :
    readHeader (header mode typeflag n) = some (typeflag, fieldSize n) := by
  have hsize : (snprintf (zeros 12) (octal 11 n)).length = 12 := length_snprintf (by decide)
  let hdr (checksum : List Byte) : UstarHeader :=
    ⟨mode, snprintf (zeros 12) (octal 11 n), checksum, typeflag, str "ustar" ++ [0], str "00"⟩
  have hbytes (checksum : List Byte) : (hdr checksum).bytes =
      (zeros 100 ++ mode ++ zeros 8 ++ zeros 8) ++ (snprintf (zeros 12) (octal 11 n) ++
        (zeros 12 ++ (checksum ++ (typeflag :: (zeros 100 ++ (str "ustar" ++ [0] ++ str "00" ++
          (zeros 32 ++ zeros 32 ++ zeros 8 ++ zeros 8 ++ zeros 155 ++ zeros 12))))))) := by
    simp only [hdr, UstarHeader.bytes, List.append_assoc, List.cons_append, List.nil_append]
  generalize hsum : ((hdr (List.replicate 8 32)).bytes.map Fin.val).sum = sum
  have hheader : header mode typeflag n =
      (hdr (snprintf (List.replicate 8 32) (octal 6 sum))).bytes := hsum ▸ rfl
  have hlt : sum < 8 ^ 6 := by
    have hlen : (hdr (List.replicate 8 32)).bytes.length = 512 := by
      rw [hbytes]
      simp only [List.length_append, List.length_cons, length_zeros, hmode, hsize,
        List.length_replicate]
      rfl
    have hle := List.sum_le_card_nsmul ((hdr (List.replicate 8 32)).bytes.map Fin.val) 255
      fun x hx => by
        obtain ⟨c, -, rfl⟩ := List.mem_map.mp hx
        omega
    rw [hsum, List.length_map, hlen] at hle
    exact hle.trans_lt (by decide)
  have hfront : (zeros 100 ++ mode ++ zeros 8 ++ zeros 8).length = 124 := by
    simp only [List.length_append, length_zeros, hmode]
  rw [hheader, hbytes, readHeader_eq hfront hsize (length_zeros 12) (length_snprintf (by decide))
    (length_zeros 100), ← hbytes, hsum, octalValue_snprintf (by decide) hlt (by decide), if_pos rfl]
  rfl

end Header

section Read

variable {mode body data rest name basedir path : List Byte} {typeflag : Byte} {fuel n : ℕ}

theorem readRecords_nil (fuel : ℕ) : readRecords fuel [] = some [] := by
  cases fuel <;> rfl

theorem readRecords_encodePath (basedir path : List Byte) :
    readRecords (encodePath basedir path).length (encodePath basedir path) =
      some [(str "path", pathClean (basedir ++ str "/" ++ path))] := by
  have hrecord := readRecord_encodePath basedir path []
  rw [List.append_nil] at hrecord
  cases h : encodePath basedir path with
  | nil =>
    rw [h] at hrecord
    cases hrecord
  | cons c attr =>
    rw [h] at hrecord
    rw [List.length_cons, readRecords, hrecord]
    · simp only [Option.bind_eq_bind, Option.bind_some, readRecords_nil]
      rfl
    · exact List.cons_ne_nil c attr

/-- A header is not the end of an archive. -/
theorem take_ne_zeros (hmode : mode.length = 8) :
    (header mode typeflag n ++ body).take 1024 ≠ zeros 1024 := by
  intro h
  have hheader : header mode typeflag n = zeros 512 := by
    have htake := congrArg (List.take 512) h
    rw [List.take_take, Nat.min_eq_left (by omega), List.take_left' (length_header hmode), zeros,
      List.take_replicate, Nat.min_eq_left (by omega)] at htake
    exact htake
  have hnone : readHeader (zeros 512) = none := by
    rw [readHeader, zeros, List.drop_replicate, List.take_replicate, if_neg]
    exact fun h => absurd h.1 (by decide)
  have hread : readHeader (header mode typeflag n) = _ := readHeader_header hmode
  rw [hheader, hnone] at hread
  cases hread

/-- One block is read, and what its size says is behind it. -/
theorem readFiles_header (hmode : mode.length = 8) (hbody : fieldSize n ≤ body.length)
    (path : Option (List Byte)) :
    readFiles (fuel + 1) path (header mode typeflag n ++ body) =
      if typeflag = 120 then
        (readRecords (fieldSize n) (body.take (fieldSize n))).bind fun records =>
          readFiles fuel (pathRecord records) (body.drop (alignTo (fieldSize n) 512))
      else if typeflag = 0 ∨ typeflag = 48 then
        (readFiles fuel none (body.drop (alignTo (fieldSize n) 512))).map
          ((path.getD (((header mode typeflag n).take 100).takeWhile (· ≠ 0)),
            body.take (fieldSize n)) :: ·)
      else
        none := by
  have hlen : (header mode typeflag n).length = 512 := length_header hmode
  have hne : ¬(header mode typeflag n ++ body = [] ∨
      (header mode typeflag n ++ body).take 1024 = zeros 1024) := by
    rintro (h | h)
    · have := congrArg List.length h
      rw [List.length_append, hlen, List.length_nil] at this
      omega
    · exact take_ne_zeros hmode h
  have htake : (body.take (fieldSize n)).length = fieldSize n :=
    List.length_take_of_le hbody
  have hdrop (k : ℕ) : (header mode typeflag n ++ body).drop (512 + k) = body.drop k := by
    rw [← List.drop_drop, List.drop_left' hlen]
  rw [readFiles, if_neg hne]
  simp only [List.take_left' hlen, readHeader_header hmode, List.drop_left' hlen, hdrop]
  simp only [Option.bind_eq_bind, Option.bind_some, htake, guard, if_true, Option.pure_def]
  split_ifs with hpax hfile
  · rfl
  · rw [Option.map_eq_bind]
    rfl
  · rfl

/-- The header in front of the header of a file gives its name. -/
theorem readFiles_encodePath (hlen : (encodePath basedir path).length < 8 ^ 11) :
    readFiles (fuel + 1) none (header (zeros 8) 120 (encodePath basedir path).length ++
      (padded (encodePath basedir path) ++ rest)) =
        readFiles fuel (some (pathClean (basedir ++ str "/" ++ path))) rest := by
  have hbody : fieldSize (encodePath basedir path).length ≤
      (padded (encodePath basedir path) ++ rest).length := by
    rw [fieldSize_eq hlen, padded, List.length_append, List.length_append]
    omega
  have htake : (padded (encodePath basedir path) ++ rest).take (encodePath basedir path).length =
      encodePath basedir path := by
    rw [padded, List.append_assoc, List.take_left]
  rw [readFiles_header (length_zeros 8) hbody, if_pos rfl, fieldSize_eq hlen, htake,
    readRecords_encodePath, List.drop_left' (length_padded _)]
  rfl

/-- A file is read with the size that its header says. -/
theorem readFiles_data (data : List Byte) :
    readFiles (fuel + 1) (some name)
      (header fileMode 0 data.length ++ (padded data ++ rest)) =
        (readFiles fuel none
          ((padded data ++ rest).drop (alignTo (fieldSize data.length) 512))).map
            ((name, data.take (fieldSize data.length)) :: ·) := by
  have hle := fieldSize_le data.length
  have hbody : fieldSize data.length ≤ (padded data ++ rest).length := by
    rw [padded, List.length_append, List.length_append]
    omega
  have htake : (padded data ++ rest).take (fieldSize data.length) =
      data.take (fieldSize data.length) := by
    rw [padded, List.append_assoc, List.take_append_of_le_length hle]
  rw [readFiles_header length_fileMode hbody, if_neg (by decide), if_pos (.inl rfl), htake]
  rfl

variable {files : List (List Byte × List Byte)}

/-- The files are read back as long as their sizes fit, and the first one that does not fit is
cut. -/
theorem readFiles_members (hpaths : ∀ file ∈ files, (encodePath basedir file.1).length < 8 ^ 11)
    (hfuel : 2 * files.length < fuel) :
    readFiles fuel none (files.flatMap (member basedir) ++ zeros 1024) =
        some (files.map fun file => (pathClean (basedir ++ str "/" ++ file.1), file.2)) ↔
      ∀ file ∈ files, file.2.length < 8 ^ 11 := by
  induction files generalizing fuel with
  | nil =>
    obtain ⟨fuel, rfl⟩ := Nat.exists_eq_add_of_lt hfuel
    have hend : readFiles (0 + fuel + 1) none (zeros 1024) = some [] := by
      rw [readFiles, if_pos (.inr (List.take_of_length_le (length_zeros _).le))]
    exact iff_of_true hend fun file hfile => absurd hfile List.not_mem_nil
  | cons file files ih =>
    rw [List.length_cons] at hfuel
    obtain ⟨fuel, rfl⟩ : ∃ k, fuel = k + 1 + 1 := ⟨fuel - 2, by omega⟩
    have hpath := hpaths file List.mem_cons_self
    have hassoc : (file :: files).flatMap (member basedir) ++ zeros 1024 =
        header (zeros 8) 120 (encodePath basedir file.1).length ++
          (padded (encodePath basedir file.1) ++
            (header fileMode 0 file.2.length ++
              (padded file.2 ++ (files.flatMap (member basedir) ++ zeros 1024)))) := by
      simp only [List.flatMap_cons, member, List.append_assoc]
    rw [hassoc, readFiles_encodePath hpath, readFiles_data, List.map_cons]
    rcases Nat.lt_or_ge file.2.length (8 ^ 11) with hfit | hlarge
    · have hcons {x : List Byte × List Byte} (o : Option (List (List Byte × List Byte))) (l) :
          o.map (x :: ·) = some (x :: l) ↔ o = some l :=
        (Option.map_injective List.cons_injective).eq_iff (b := some l)
      rw [fieldSize_eq hfit, List.take_length, List.drop_left' (length_padded _), hcons,
        ih (fun f hf => hpaths f (List.mem_cons_of_mem file hf)) (by omega),
        List.forall_mem_cons, and_iff_right hfit]
    · refine iff_of_false ?_ fun h => absurd (h file List.mem_cons_self) hlarge.not_gt
      intro h
      obtain ⟨l, -, hl⟩ := Option.map_eq_some_iff.mp h
      have htake := congrArg (fun files => files.head?.map (·.2.length)) hl
      have hlen : min (fieldSize file.2.length) file.2.length = file.2.length := by
        simpa only [List.head?_cons, Option.map_some, List.length_take, Option.some.injEq]
          using htake
      have hlt := fieldSize_lt file.2.length
      omega

/-- The archive that is written by any run is read back, with the cleaned paths, exactly when
every size has at most eleven octal digits. -/
theorem readArchive_appendFiles_iff
    (hpaths : ∀ file ∈ files, (encodePath basedir file.1).length < 8 ^ 11) :
    readArchive (appendFiles basedir files).out.bytes =
        some (files.map fun file => (pathClean (basedir ++ str "/" ++ file.1), file.2)) ↔
      ∀ file ∈ files, file.2.length < 8 ^ 11 := by
  rw [appendFiles_eq, readArchive]
  by_cases hfiles : files = []
  · subst hfiles
    exact iff_of_true rfl fun file hfile => absurd hfile List.not_mem_nil
  · rw [if_neg hfiles]
    refine readFiles_members hpaths ?_
    -- every file takes at least two blocks
    have hlen : 1024 * files.length ≤ (files.flatMap (member basedir)).length := by
      have hsum := List.card_nsmul_le_sum (files.map fun file => (member basedir file).length) 1024
        fun n hn => by
          obtain ⟨file, -, rfl⟩ := List.mem_map.mp hn
          exact (length_member basedir file).2
      have hmul : (files.map fun file => (member basedir file).length).length • 1024 =
          files.length * 1024 := congrArg (· * 1024) (List.length_map _)
      rw [List.length_flatMap]
      omega
    rw [Out.written, List.length_append]
    omega

theorem readArchive_appendFiles_iff_foo :
    readArchive (appendFiles (str "out.repro") [(str "/foo/../a.o", str "foo")]).out.bytes =
        some [(str "out.repro/a.o", str "foo")] ↔
      ∀ file ∈ [(str "/foo/../a.o", str "foo")], file.2.length < 8 ^ 11 :=
  readArchive_appendFiles_iff (by decide)

end Read

end Mold.Tar
