import Mold.Elf.ProgramHeaders
import Mold.Lib.Layout

/-!
# Layout of an output

The chunks get addresses and then offsets in the file.  As the size of the program
header depends on both, this is repeated until the size does not change.

Addresses and offsets are counted in 64 bits and cut to the words of the section headers.
-/

namespace Mold.Elf.Layout

open Lib

/-! ## Words -/

def u64 (n : ℕ) : ℕ := n % 2 ^ 64

/-- A `u64` as an `i64`. -/
def toI64 (n : ℕ) : ℤ := if u64 n < 2 ^ 63 then u64 n else (u64 n : ℤ) - 2 ^ 64

def alignTo (val align : ℕ) : ℕ :=
  if align = 0 then val
  else u64 (val + (align - 1)) - (u64 (val + (align - 1)) &&& (align - 1))

/-- A value in a field of the type `Word<E>`. -/
def Args.word (args : Args) (n : ℕ) : ℕ := n % 2 ^ args.wordBits

/-! ## Addresses -/

/-- The state of the loop of `set_virtual_addresses_regular`. -/
structure Cursor where
  addr : ℕ
  /-- The chunk before. -/
  prev : Option Chunk := none
  /-- There was a TLS chunk. -/
  seenTls : Bool := false
  /-- The next address in a loop over TLS bss chunks. -/
  tbss : Option ℕ := none

section Regular

variable (args : Args)

def tlsP2align (chunks : List Chunk) : ℕ :=
  ((chunks.filter Chunk.isTls).map Chunk.p2align).foldl max 0

namespace Cursor

/-- The lambda `alignment`.  The first TLS chunk has the largest alignment of all. -/
def alignment (tlsP2 : ℕ) (st : Cursor) (c : Chunk) : ℕ :=
  if c.isTls && !st.seenTls then 2 ^ tlsP2 else c.align

/-- The address behind the padding between chunks of different protection. -/
def separate (st : Cursor) (c : Chunk) : ℕ :=
  match st.prev with
  | none => st.addr
  | some prev =>
    if prev.kind = .relroPadding || prev.getFlags args = c.getFlags args then st.addr
    else
      match args.separateCode with
      | .loadableSegments => alignTo st.addr args.page
      | .code =>
        if (prev.toPhdrFlags args).exec ≠ (c.toPhdrFlags args).exec then
          alignTo st.addr args.page
        else if st.addr % args.page ≠ 0 then u64 (st.addr + args.page)
        else st.addr
      | .noSeparate =>
        if st.addr % args.page ≠ 0 then u64 (st.addr + args.page) else st.addr

/-- The chunk is done and the next address is `addr`. -/
def next (st : Cursor) (c : Chunk) (addr : ℕ) : Cursor where
  addr := addr
  prev := some c
  seenTls := st.seenTls || c.isTls

/-- The loop over TLS bss chunks, where `l` are the chunks behind.  The loop looks at the
next chunk unless it is the last one, so behind the last chunk it looks too far. -/
def placeTbss (tlsP2 : ℕ) (st : Cursor) (addr addr2 : ℕ) (c : Chunk) (l : List Chunk) :
    Option (Chunk × Cursor) :=
  let addr2 := alignTo addr2 (st.alignment tlsP2 c)
  let c' := { c with addr := args.word addr2 }
  match l with
  | [] => none
  | [_] => some (c', st.next c addr)
  | d :: _ =>
    some (c',
      { st.next c addr with tbss := if d.isTbss then some (u64 (addr2 + c.size)) else none })

/-- The body of the loop of `set_virtual_addresses_regular`. -/
def place (tlsP2 : ℕ) (st : Cursor) (c : Chunk) (l : List Chunk) : Option (Chunk × Cursor) :=
  match st.tbss with
  | some addr2 => st.placeTbss args tlsP2 st.addr addr2 c l
  | none =>
    if !c.isAlloc then some (c, st.next c st.addr)
    else if c.kind = .relroPadding then
      let size := u64 (alignTo st.addr args.page + 2 ^ 64 - st.addr)
      some ({ c with addr := args.word st.addr, size := args.word size },
        st.next c (u64 (st.addr + args.page)))
    else
      match args.sectionStart c.name with
      | some addr => some ({ c with addr := args.word addr }, st.next c (u64 (addr + c.size)))
      | none =>
        let addr := st.separate args c
        if c.isTbss then st.placeTbss args tlsP2 addr addr c l
        else
          let addr := alignTo addr (st.alignment tlsP2 c)
          some ({ c with addr := args.word addr }, st.next c (u64 (addr + c.size)))

end Cursor

/-- The loop of `set_virtual_addresses_regular`. -/
def placeRegular (tlsP2 : ℕ) : Cursor → List Chunk → Option (List Chunk)
  | _, [] => some []
  | st, c :: l =>
    match st.place args tlsP2 c l with
    | none => none
    | some (c, st) => (placeRegular tlsP2 st l).map (c :: ·)

def setVirtualAddressesRegular (chunks : List Chunk) : Option (List Chunk) :=
  placeRegular args (tlsP2align chunks) { addr := u64 args.imageBase } chunks

/-- The address of the lambda `assign_addr` of `set_virtual_addresses_by_order`. -/
def assignAddr (addr : ℕ) (prev : Option Chunk) (c : Chunk) : ℕ :=
  let addr :=
    match prev with
    | none => addr
    | some prev =>
      if prev.toPhdrFlags args = c.toPhdrFlags args then addr
      else
        match args.separateCode with
        | .loadableSegments => alignTo addr args.page
        | .code =>
          if (prev.toPhdrFlags args).exec ≠ (c.toPhdrFlags args).exec then
            alignTo addr args.page
          else addr
        | .noSeparate => addr
  alignTo addr c.align

/-- The loop of `set_virtual_addresses_by_order` from the argument `j` on. -/
def placeByOrder (j : ℕ) (ords : List SectionOrder) (addr : ℕ) (prev : Option Chunk)
    (chunks : List Chunk) : List Chunk :=
  match chunks with
  | [] => []
  | c :: l =>
    if !c.isAlloc then c :: placeByOrder j ords addr (some c) l
    else
      match ords with
      | [] => c :: l
      | .section :: rest =>
        if c.sectOrder = j then
          { c with addr := args.word (assignAddr args addr prev c) } ::
            placeByOrder (j + 1) rest (u64 (assignAddr args addr prev c + c.size)) (some c) l
        else placeByOrder (j + 1) rest addr prev (c :: l)
      | .group :: rest =>
        if c.sectOrder = j then
          { c with addr := args.word (assignAddr args addr prev c) } ::
            placeByOrder j (.group :: rest) (u64 (assignAddr args addr prev c + c.size)) (some c) l
        else placeByOrder (j + 1) rest addr prev (c :: l)
      | .addr value :: rest => placeByOrder (j + 1) rest (u64 value) prev (c :: l)
      | .align value :: rest =>
        placeByOrder (j + 1) rest (alignTo addr (u64 value)) prev (c :: l)
      | .symbol :: rest => placeByOrder (j + 1) rest addr prev (c :: l)
termination_by ords.length + chunks.length

def setVirtualAddresses (chunks : List Chunk) : Option (List Chunk) :=
  if args.sectionOrder = [] then setVirtualAddressesRegular args chunks
  else some (placeByOrder args 0 args.sectionOrder (u64 args.imageBase) none chunks)

/-- The padding of the lambda `assign_addr`, where addresses are not cut to 64 bits. -/
def separateByOrder (addr : ℕ) (prev : Option Chunk) (c : Chunk) : ℕ :=
  match prev with
  | none => addr
  | some prev =>
    if prev.toPhdrFlags args = c.toPhdrFlags args then addr
    else
      match args.separateCode with
      | .loadableSegments => alignUp args.page addr
      | .code =>
        if (prev.toPhdrFlags args).exec ≠ (c.toPhdrFlags args).exec then
          alignUp args.page addr
        else addr
      | .noSeparate => addr

/-- The address of `assign_addr` that is not cut to 64 bits. -/
def addrByOrder (addr : ℕ) (prev : Option Chunk) (c : Chunk) : ℕ :=
  alignUp c.align (separateByOrder args addr prev c)

/-! ## Offsets -/

def alignWithSkew (val align skew : ℕ) : ℕ :=
  let x := u64 (val / align * align + skew % align)
  if val ≤ x then x else u64 (x + align)

/-- The `gap_size` in front of a chunk: a difference of words as an `i64`. -/
def gapSize (prev c : Chunk) : ℤ :=
  toI64 (args.wordOf (c.addr - prev.addr - prev.size))

/-- The chunk goes on with the run of chunks in the file from `first` to `prev`. -/
def continuesRun (first prev c : Chunk) : Bool :=
  c.isLoaded && first.addr ≤ c.addr && gapSize args prev c < args.page

/-- The state of the loops of `set_file_offsets`: the next offset, and the first and the
last chunk of a run that is open. -/
structure FileCursor where
  fileoff : ℕ := 0
  run : Option (Chunk × Chunk) := none

namespace FileCursor

def close (st : FileCursor) : ℕ :=
  match st.run with
  | none => st.fileoff
  | some (_, prev) => args.word (prev.offset + prev.size)

def start (fileoff : ℕ) (c : Chunk) : Chunk × FileCursor :=
  if !c.isAlloc then
    let fileoff := alignTo fileoff c.align
    ({ c with offset := args.word fileoff }, { fileoff := u64 (fileoff + c.size) })
  else if c.isNobits then (c, { fileoff := fileoff })
  else
    let fileoff :=
      if args.page < c.align then alignTo fileoff c.align
      else alignWithSkew fileoff args.page c.addr
    let c := { c with offset := args.word fileoff }
    (c, { fileoff := fileoff, run := some (c, c) })

def place (st : FileCursor) (c : Chunk) : Chunk × FileCursor :=
  match st.run with
  | some (first, prev) =>
    if continuesRun args first prev c then
      let offset := u64 (st.fileoff + c.addr + 2 ^ 64 - first.addr)
      let c := { c with offset := args.word offset }
      (c, { st with run := some (first, c) })
    else start args (st.close args) c
  | none => start args (st.close args) c

end FileCursor

/-- The loop of `set_file_offsets`. -/
def placeInFile : FileCursor → List Chunk → List Chunk × ℕ
  | st, [] => ([], st.close args)
  | st, c :: l =>
    let p := st.place args c
    let rest := placeInFile p.2 l
    (p.1 :: rest.1, rest.2)

def setFileOffsets (chunks : List Chunk) : List Chunk × ℤ :=
  ((placeInFile args {} chunks).1, toI64 (placeInFile args {} chunks).2)

/-- One iteration of `set_osec_offsets`: the chunks with their places and the size of the
file.  There is no result if the loop over TLS bss chunks looks too far. -/
def setOffsets (chunks : List Chunk) : Option (List Chunk × ℤ) :=
  (setVirtualAddresses args chunks).map (setFileOffsets args)

/-- The size of the program header, which `update_shdr` computes. -/
def phdrBytes (chunks : List Chunk) : ℕ :=
  args.word ((createPhdr args chunks).length * args.phdrSize)

def resizePhdr (size : ℕ) (chunks : List Chunk) : List Chunk :=
  chunks.map fun c => if c.kind = .phdr then { c with size := size } else c

/-- How far `set_osec_offsets` has come. -/
inductive Progress where
  | running (chunks : List Chunk)
  | undefined
  | done (chunks : List Chunk) (filesize : ℤ)

/-- The body of the loop of `set_osec_offsets`. -/
def iterate (chunks : List Chunk) : Progress :=
  match setOffsets args chunks with
  | none => .undefined
  | some (chunks, fileoff) =>
    match ofKind chunks .phdr with
    | none => .done chunks fileoff
    | some phdr =>
      if phdr.size = phdrBytes args chunks then .done chunks fileoff
      else .running (resizePhdr (phdrBytes args chunks) chunks)

/-- `set_osec_offsets` after some iterations. -/
def setOsecOffsets (chunks : List Chunk) : ℕ → Progress
  | 0 => .running chunks
  | n + 1 =>
    match setOsecOffsets chunks n with
    | .running chunks => iterate args chunks
    | result => result

end Regular

end Mold.Elf.Layout
