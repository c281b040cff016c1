import Mold.Lib.Tiling

/-!
# The symbol table of an output

Two passes go over the symbols.  The first one counts the symbols and the bytes of
their names for each file, so that every file has its part of `.symtab` and
`.strtab`.  The second one writes the symbols.  The indices of output sections
that do not fit into a symbol are written to a table at the side.
-/

namespace Mold.Elf.Symtab

open Lib

abbrev Name := List UInt8

/-! ## Input -/

inductive FileRef where
  | obj (k : ℕ)
  | dso (k : ℕ)
deriving DecidableEq, Repr

inductive Origin where
  | absolute
  | osec (chunk : ℕ)
  | frag (isAlive : Bool) (chunk : ℕ)
  /-- An input section, with the chunk of the section that it was folded into. -/
  | isec (isAlive isMerge : Bool) (chunk : ℕ) (leader : Option ℕ)
  /-- A common symbol with `-r`, which gets no section. -/
  | common
deriving DecidableEq, Repr

structure Sym where
  name : Name
  file : Option FileRef
  symIdx : ℕ
  isSection : Bool := false
  isUndef : Bool := false
  /-- The symbol is local in its file. -/
  isBindLocal : Bool := false
  origin : Origin := .absolute
  /-- The chunk of `.eh_frame`, if the symbol is in an `.eh_frame` section of its file. -/
  ehFrame : Option ℕ := none
  /-- The chunk with the copy of an imported symbol. -/
  copyrel : Option ℕ := none
  isImported : Bool := false
  isExported : Bool := false
deriving DecidableEq, Repr

structure Args where
  relocatable : Bool := false
  discardAll : Bool := false
  discardLocals : Bool := false
  retainSymbolsFile : Bool := false
  gcSections : Bool := false
deriving DecidableEq, Repr

structure InputFile (ι : Type*) where
  symbols : List ι
  firstGlobal : ℕ
deriving DecidableEq, Repr

namespace InputFile

variable {ι : Type*}

def locals (file : InputFile ι) : List (ι × ℕ) :=
  (file.symbols.zipIdx.take file.firstGlobal).drop 1

def globals (file : InputFile ι) : List (ι × ℕ) := file.symbols.zipIdx.drop file.firstGlobal

end InputFile

inductive ChunkSymbols where
  | none
  /-- An output section with the symbols of its thunks. -/
  | thunks (isArm32 : Bool) (thunks : List (List Name))
  | got (got gottp tlsgd tlsdesc : List Name) (hasTlsld : Bool)
  | plt (symbols : List Name)
  | pltgot (symbols : List Name)
deriving DecidableEq, Repr

structure Chunk where
  /-- Headers have no section index. -/
  isHeader : Bool := false
  symbols : ChunkSymbols := .none
deriving DecidableEq, Repr

structure Context (ι : Type*) where
  args : Args
  sym : ι → Sym
  chunks : List Chunk
  objs : List (InputFile ι)
  dsos : List (InputFile ι)
  /-- The symbols that are named by the file of `--retain-symbols-file`. -/
  retained : ι → Bool
  retained_args : args.retainSymbolsFile = false → ∀ s, retained s = false
  objs_ne_nil : objs ≠ []
  local_sym : ∀ k file, objs[k]? = some file → ∀ p ∈ file.locals,
    (sym p.1).file = some (.obj k) ∧ (sym p.1).symIdx = p.2 ∧ retained p.1 = false ∧
      (sym p.1).isBindLocal = true ∧ (sym p.1).isImported = false ∧
      (sym p.1).isExported = false
  local_ne_global : ∀ file ∈ objs, ∀ p ∈ file.locals, ∀ q ∈ file.globals, p.1 ≠ q.1
  dso_sym : ∀ k file, dsos[k]? = some file → file.firstGlobal = 0 ∧
    ∀ p ∈ file.globals, (sym p.1).file = some (.dso k) → (sym p.1).isBindLocal = false

/-! ## Section indices -/

def SHN_LORESERVE : ℕ := 0xff00
def SHN_ABS : ℕ := 0xfff1
def SHN_COMMON : ℕ := 0xfff2
def SHN_XINDEX : ℕ := 0xffff

/-- The loop of `compute_section_headers` that sets section indices. -/
def assignShndx : ℕ → List Chunk → List ℕ
  | _, [] => []
  | shndx, chunk :: l =>
    if chunk.isHeader then 0 :: assignShndx shndx l
    else shndx :: assignShndx (shndx + 1) l

def symtabShndx : Chunk where
  isHeader := false

/-- The number of indices that are set, with the one of the null section. -/
def nextShndx (chunks : List Chunk) : ℕ := 1 + chunks.countP fun chunk => !chunk.isHeader

namespace Context

variable {ι : Type*} (ctx : Context ι)

def hasSymtabShndx : Bool := SHN_LORESERVE ≤ nextShndx ctx.chunks

def allChunks : List Chunk :=
  ctx.chunks ++ if ctx.hasSymtabShndx then [symtabShndx] else []

def shndx (chunk : ℕ) : ℕ := (assignShndx 1 ctx.allChunks).getD chunk 0

def isLocal (s : ι) : Bool :=
  if ctx.args.relocatable then (ctx.sym s).isBindLocal
  else !(ctx.sym s).isImported && !(ctx.sym s).isExported

def isDso (s : ι) : Bool :=
  match (ctx.sym s).file with
  | some (.dso _) => true
  | _ => false

/-- The lambda `is_alive` of `ObjectFile::compute_symtab_size`. -/
def isAlive (s : ι) : Bool :=
  !ctx.args.gcSections ||
    match (ctx.sym s).origin with
    | .frag isAlive _ => isAlive
    | .isec isAlive _ _ _ => isAlive
    | _ => true

def shouldWriteToLocalSymtab (s : ι) : Bool :=
  !(ctx.sym s).isSection &&
    !([46, 76].isPrefixOf (ctx.sym s).name &&
      (ctx.args.discardLocals ||
        match (ctx.sym s).origin with
        | .isec _ isMerge _ _ => isMerge
        | _ => false))

/-! ## Counting -/

end Context

/-- What a file has counted, and the flags `write_to_symtab`. -/
structure Counting (ι : Type*) where
  strtabSize : ℕ := 0
  numLocalSymtab : ℕ := 0
  numGlobalSymtab : ℕ := 0
  outputSymIndices : List (Option ℕ)
  writeToSymtab : ι → Bool

structure Sizes (ι : Type*) where
  obj : ℕ → Counting ι
  dso : ℕ → Counting ι
  writeToSymtab : ι → Bool

namespace Counting

variable {ι : Type*} [DecidableEq ι]

def count (ctx : Context ι) (st : Counting ι) (isLocal : Bool) (p : ι × ℕ) : Counting ι where
  strtabSize := st.strtabSize + ((ctx.sym p.1).name.length + 1)
  numLocalSymtab := if isLocal then st.numLocalSymtab + 1 else st.numLocalSymtab
  numGlobalSymtab := if isLocal then st.numGlobalSymtab else st.numGlobalSymtab + 1
  outputSymIndices := st.outputSymIndices.set p.2
    (some (if isLocal then st.numLocalSymtab else st.numGlobalSymtab))
  writeToSymtab := Function.update st.writeToSymtab p.1 true

end Counting

namespace Context

variable {ι : Type*} [DecidableEq ι] (ctx : Context ι)

def countLocal (st : Counting ι) (p : ι × ℕ) : Counting ι :=
  if ctx.isAlive p.1 && ctx.shouldWriteToLocalSymtab p.1 then st.count ctx true p else st

def countGlobal (k : ℕ) (st : Counting ι) (p : ι × ℕ) : Counting ι :=
  if (ctx.sym p.1).file = some (.obj k) && ctx.isAlive p.1 &&
      (!ctx.args.retainSymbolsFile || st.writeToSymtab p.1) then
    st.count ctx (ctx.isLocal p.1) p
  else st

def computeObjectSize (k : ℕ) (file : InputFile ι) (flags : ι → Bool) : Counting ι :=
  let st : Counting ι :=
    { outputSymIndices := List.replicate file.symbols.length none, writeToSymtab := flags }
  let st :=
    if !ctx.args.discardAll && !ctx.args.retainSymbolsFile then
      file.locals.foldl ctx.countLocal st
    else st
  file.globals.foldl (ctx.countGlobal k) st

def countShared (k : ℕ) (st : Counting ι) (p : ι × ℕ) : Counting ι :=
  if (ctx.sym p.1).file = some (.dso k) &&
      ((ctx.sym p.1).isImported || (ctx.sym p.1).isExported) &&
      (!ctx.args.retainSymbolsFile || st.writeToSymtab p.1) then
    st.count ctx false p
  else st

def computeSharedSize (k : ℕ) (file : InputFile ι) (flags : ι → Bool) : Counting ι :=
  file.globals.foldl (ctx.countShared k)
    { outputSymIndices := List.replicate file.symbols.length none, writeToSymtab := flags }

def sizeObject (st : Sizes ι) (k : ℕ) : Sizes ι :=
  match ctx.objs[k]? with
  | none => st
  | some file =>
    let counting := ctx.computeObjectSize k file st.writeToSymtab
    { st with
      obj := Function.update st.obj k counting
      writeToSymtab := counting.writeToSymtab }

def sizeShared (st : Sizes ι) (k : ℕ) : Sizes ι :=
  match ctx.dsos[k]? with
  | none => st
  | some file =>
    let counting := ctx.computeSharedSize k file st.writeToSymtab
    { st with
      dso := Function.update st.dso k counting
      writeToSymtab := counting.writeToSymtab }

/-- `create_output_symtab`, where the files are taken in the given orders. -/
def createOutputSymtab (objOrder dsoOrder : List ℕ) : Sizes ι :=
  let none : Counting ι := { outputSymIndices := [], writeToSymtab := ctx.retained }
  dsoOrder.foldl ctx.sizeShared
    (objOrder.foldl ctx.sizeObject
      { obj := fun _ => none, dso := fun _ => none, writeToSymtab := ctx.retained })

end Context

namespace ChunkSymbols

def labels : ChunkSymbols → List Name
  | none => []
  | thunks _ l => l.flatten.map (· ++ [36, 116, 104, 117, 110, 107])
  | got gotSyms gottpSyms tlsgdSyms tlsdescSyms hasTlsld =>
    gotSyms.map (· ++ [36, 103, 111, 116]) ++ gottpSyms.map (· ++ [36, 103, 111, 116, 116, 112]) ++
      tlsgdSyms.map (· ++ [36, 116, 108, 115, 103, 100]) ++
      tlsdescSyms.map (· ++ [36, 116, 108, 115, 100, 101, 115, 99]) ++
      if hasTlsld then [[36, 116, 108, 115, 108, 100]] else []
  | plt symbols => symbols.map (· ++ [36, 112, 108, 116])
  | pltgot symbols => symbols.map (· ++ [36, 112, 108, 116, 103, 111, 116])

/-- The names that mark Thumb code, ARM code and data. -/
def markers : ChunkSymbols → List Name
  | thunks true _ => [[36, 116], [36, 97], [36, 100]]
  | _ => []

def isOmitted (args : Args) : ChunkSymbols → Bool
  | none => true
  | thunks _ _ => args.retainSymbolsFile || args.relocatable
  | _ => args.retainSymbolsFile

def namesSize (names : List Name) : ℕ := (names.map fun name => name.length + 1).sum

/-- `compute_symtab_size` of chunks: the bytes of the names. -/
def strtabSize (args : Args) (symbols : ChunkSymbols) : ℕ :=
  if symbols.isOmitted args then 0
  else namesSize symbols.markers + namesSize symbols.labels

/-- `compute_symtab_size` of chunks: the number of symbols.  Each marker makes one more
symbol for every label. -/
def numLocalSymtab (args : Args) (symbols : ChunkSymbols) : ℕ :=
  if symbols.isOmitted args then 0
  else symbols.labels.length * (1 + symbols.markers.length)

end ChunkSymbols

/-! ## Layout -/

namespace Context

variable {ι : Type*} (ctx : Context ι) (sizes : Sizes ι)

/-- The first slot behind the null symbol and the section symbols. -/
def chunkStart : ℕ := 1 + ctx.allChunks.countP fun chunk => !chunk.isHeader

/-- The chunks with `local_symtab_idx`. -/
def chunkSlots : List (Chunk × ℕ) :=
  tile (fun chunk => chunk.symbols.numLocalSymtab ctx.args) ctx.chunkStart ctx.allChunks

def objIndices : List ℕ := List.range ctx.objs.length

def dsoIndices : List ℕ := List.range ctx.dsos.length

def localStart : ℕ :=
  tileEnd (fun chunk => chunk.symbols.numLocalSymtab ctx.args) ctx.chunkStart ctx.allChunks

/-- The object files with `local_symtab_idx`. -/
def localSlots : List (ℕ × ℕ) :=
  tile (fun k => (sizes.obj k).numLocalSymtab) ctx.localStart ctx.objIndices

def globalStart : ℕ :=
  tileEnd (fun k => (sizes.obj k).numLocalSymtab) ctx.localStart ctx.objIndices

/-- The object files with `global_symtab_idx`. -/
def globalSlots : List (ℕ × ℕ) :=
  tile (fun k => (sizes.obj k).numGlobalSymtab) (ctx.globalStart sizes) ctx.objIndices

def sharedStart : ℕ :=
  tileEnd (fun k => (sizes.obj k).numGlobalSymtab) (ctx.globalStart sizes) ctx.objIndices

/-- The shared files with `global_symtab_idx`. -/
def sharedSlots : List (ℕ × ℕ) :=
  tile (fun k => (sizes.dso k).numGlobalSymtab) (ctx.sharedStart sizes) ctx.dsoIndices

/-- The number of slots that `SymtabSection::update_shdr` reserves. -/
def nsyms : ℕ :=
  tileEnd (fun k => (sizes.dso k).numGlobalSymtab) (ctx.sharedStart sizes) ctx.dsoIndices

def valueOf (l : List (ℕ × ℕ)) (k : ℕ) : ℕ := ((l.find? fun p => p.1 = k).map Prod.snd).getD 0

def shInfo : ℕ := valueOf (ctx.globalSlots sizes) 0

/-- The chunks with `strtab_offset`. -/
def chunkStrings : List (Chunk × ℕ) :=
  tile (fun chunk => chunk.symbols.strtabSize ctx.args) 1 ctx.allChunks

def objStringStart : ℕ :=
  tileEnd (fun chunk => chunk.symbols.strtabSize ctx.args) 1 ctx.allChunks

/-- The object files with `strtab_offset`. -/
def objStrings : List (ℕ × ℕ) :=
  tile (fun k => (sizes.obj k).strtabSize) ctx.objStringStart ctx.objIndices

def dsoStringStart : ℕ :=
  tileEnd (fun k => (sizes.obj k).strtabSize) ctx.objStringStart ctx.objIndices

/-- The shared files with `strtab_offset`. -/
def dsoStrings : List (ℕ × ℕ) :=
  tile (fun k => (sizes.dso k).strtabSize) (ctx.dsoStringStart sizes) ctx.dsoIndices

/-- The number of bytes that `StrtabSection::update_shdr` reserves. -/
def strtabEnd : ℕ :=
  tileEnd (fun k => (sizes.dso k).strtabSize) (ctx.dsoStringStart sizes) ctx.dsoIndices

end Context

/-! ## Writing -/

inductive Content (ι : Type*) where
  | null
  | section (chunk : ℕ)
  | label (chunk : ℕ)
  | symbol (s : ι) (idx : ℕ)
deriving DecidableEq, Repr

structure SymWrite (ι : Type*) where
  content : Content ι
  slot : ℕ
  stName : ℕ := 0
  isLocal : Bool := true
  /-- The index in the symbol, if it is one that can be there. -/
  stShndx : Option ℕ
  /-- The slot of the table for large section indices that is written, and its value. -/
  xindex : Option (ℕ × ℕ) := none
deriving DecidableEq, Repr

structure Writes (ι : Type*) where
  syms : List (SymWrite ι) := []
  /-- The strings with their places. -/
  strings : List (ℕ × Name) := []

namespace Context

variable {ι : Type*} (ctx : Context ι)

def toU16 (n : ℕ) : ℕ := n % 2 ^ 16

def nullWrite : SymWrite ι where
  content := .null
  slot := 0
  stShndx := some 0

def sectionWrite (chunk : ℕ) : SymWrite ι where
  content := .section chunk
  slot := ctx.shndx chunk
  stShndx := some (toU16 (ctx.shndx chunk))

def sectionWrites : List (SymWrite ι) :=
  ((List.range ctx.allChunks.length).filter fun c => ctx.shndx c ≠ 0).map ctx.sectionWrite

def labelWrite (chunk slot stName : ℕ) : SymWrite ι where
  content := .label chunk
  slot := slot
  stName := stName
  stShndx := some (toU16 (ctx.shndx chunk))

def writeLabels (chunk strOff : ℕ) (markers : List Name) : ℕ → ℕ → List Name → Writes ι
  | _, _, [] => {}
  | slot, off, label :: l =>
    let rest := writeLabels chunk strOff markers (slot + (1 + markers.length))
      (off + (label.length + 1)) l
    { syms :=
        ctx.labelWrite chunk slot off ::
          ((tile (fun name : Name => name.length + 1) strOff markers).zipIdx (slot + 1)).map
            (fun p => ctx.labelWrite chunk p.2 p.1.2) ++ rest.syms
      strings := (off, label) :: rest.strings }

def populateChunk (chunk : ℕ) (symbols : ChunkSymbols) (slot strOff : ℕ) : Writes ι :=
  if symbols.strtabSize ctx.args = 0 then {}
  else
    let markers := tile (fun name : Name => name.length + 1) strOff symbols.markers
    let body := ctx.writeLabels chunk strOff symbols.markers slot
      (tileEnd (fun name : Name => name.length + 1) strOff symbols.markers) symbols.labels
    { syms := body.syms, strings := markers.map (fun p => (p.2, p.1)) ++ body.strings }

/-- The section index that `to_output_esym` computes. -/
def outputShndx (s : ι) : ℕ :=
  match (ctx.sym s).copyrel with
  | some chunk => ctx.shndx chunk
  | none =>
    if ctx.isDso s || (ctx.sym s).isUndef then 0
    else
      match (ctx.sym s).origin with
      | .osec chunk => ctx.shndx chunk
      | .frag _ chunk => ctx.shndx chunk
      | .absolute | .common => SHN_ABS
      | .isec isAlive _ chunk leader =>
        if isAlive then ctx.shndx chunk
        else
          match leader with
          | some leader => ctx.shndx leader
          | none => 0

/-- `st_shndx` in `to_output_esym`, with an entry in the table for large indices or
without. -/
def stShndx (shndx : ℕ) (xindex : Option ℕ) : Option ℕ :=
  match xindex with
  | some _ => some SHN_XINDEX
  | none =>
    if SHN_LORESERVE ≤ shndx && shndx ≠ SHN_ABS && shndx ≠ SHN_COMMON then none
    else some shndx

/-- `to_output_esym` for a symbol of a file. -/
def symbolWrite (p : ι × ℕ) (slot stName : ℕ) (xindex : ℕ) : SymWrite ι :=
  let xindex := if ctx.hasSymtabShndx then some xindex else none
  { content := .symbol p.1 p.2
    slot := slot
    stName := stName
    isLocal := ctx.isLocal p.1
    stShndx := stShndx (ctx.outputShndx p.1) xindex
    xindex := xindex.map fun slot => (slot, ctx.outputShndx p.1) }

end Context

structure Populating (ι : Type*) where
  localIdx : ℕ
  globalIdx : ℕ
  strtabOff : ℕ
  writes : Writes ι := {}

namespace Context

variable {ι : Type*} (ctx : Context ι)

/-- The lambda `write_sym` of `ObjectFile::populate_symtab`. -/
def writeSym (isLocal : Bool) (st : Populating ι) (p : ι × ℕ) : Populating ι :=
  let slot := if isLocal then st.localIdx else st.globalIdx
  { localIdx := if isLocal then st.localIdx + 1 else st.localIdx
    globalIdx := if isLocal then st.globalIdx else st.globalIdx + 1
    strtabOff := st.strtabOff + ((ctx.sym p.1).name.length + 1)
    writes :=
      { syms := st.writes.syms ++ [ctx.symbolWrite p slot st.strtabOff slot]
        strings := st.writes.strings ++ [(st.strtabOff, (ctx.sym p.1).name)] } }

def writeLocal (flags : ι → Bool) (st : Populating ι) (p : ι × ℕ) : Populating ι :=
  if flags p.1 then ctx.writeSym true st p else st

def writeGlobal (flags : ι → Bool) (k : ℕ) (st : Populating ι) (p : ι × ℕ) : Populating ι :=
  if (ctx.sym p.1).file = some (.obj k) && flags p.1 then
    ctx.writeSym (ctx.isLocal p.1) st p
  else st

def populateObject (flags : ι → Bool) (k : ℕ) (file : InputFile ι)
    (localIdx globalIdx strtabOff : ℕ) : Writes ι :=
  (file.globals.foldl (ctx.writeGlobal flags k)
    (file.locals.foldl (ctx.writeLocal flags)
      { localIdx := localIdx, globalIdx := globalIdx, strtabOff := strtabOff })).writes

/-- A symbol of a shared file.  The slot is counted up for each symbol that is written,
the slot of the table for large indices for each symbol. -/
def writeShared (flags : ι → Bool) (k globalIdx : ℕ) (st : Populating ι)
    (p : (ι × ℕ) × ℕ) : Populating ι :=
  if (ctx.sym p.1.1).file = some (.dso k) && flags p.1.1 then
    { localIdx := st.localIdx
      globalIdx := st.globalIdx + 1
      strtabOff := st.strtabOff + ((ctx.sym p.1.1).name.length + 1)
      writes :=
        { syms := st.writes.syms ++
            [ctx.symbolWrite p.1 st.globalIdx st.strtabOff (globalIdx + p.2)]
          strings := st.writes.strings ++ [(st.strtabOff, (ctx.sym p.1.1).name)] } }
  else st

def populateShared (flags : ι → Bool) (k : ℕ) (file : InputFile ι)
    (globalIdx strtabOff : ℕ) : Writes ι :=
  (file.globals.zipIdx.foldl (ctx.writeShared flags k globalIdx)
    { localIdx := 0, globalIdx := globalIdx, strtabOff := strtabOff }).writes

variable (sizes : Sizes ι)

def parts : List (Writes ι) :=
  { syms := nullWrite :: ctx.sectionWrites } ::
    ((ctx.chunkSlots.zip ctx.chunkStrings).zipIdx.map fun p =>
      ctx.populateChunk p.2 p.1.1.1.symbols p.1.1.2 p.1.2.2) ++
    (ctx.objs.zipIdx.map fun p =>
      ctx.populateObject sizes.writeToSymtab p.2 p.1 (valueOf (ctx.localSlots sizes) p.2)
        (valueOf (ctx.globalSlots sizes) p.2) (valueOf (ctx.objStrings sizes) p.2)) ++
    (ctx.dsos.zipIdx.map fun p =>
      ctx.populateShared sizes.writeToSymtab p.2 p.1 (valueOf (ctx.sharedSlots sizes) p.2)
        (valueOf (ctx.dsoStrings sizes) p.2))

def symWrites : List (SymWrite ι) := (ctx.parts sizes).flatMap Writes.syms

def stringWrites : List (ℕ × Name) := (ctx.parts sizes).flatMap Writes.strings

/-- `Symbol::get_output_sym_idx` -/
def getOutputSymIdx (s : ι) : Option ℕ :=
  match (ctx.sym s).file with
  | none => none
  | some (.obj k) =>
    ((sizes.obj k).outputSymIndices.getD (ctx.sym s).symIdx none).map fun i =>
      (if ctx.isLocal s then valueOf (ctx.localSlots sizes) k
        else valueOf (ctx.globalSlots sizes) k) + i
  | some (.dso k) =>
    ((sizes.dso k).outputSymIndices.getD (ctx.sym s).symIdx none).map fun i =>
      (if ctx.isLocal s then 0 else valueOf (ctx.sharedSlots sizes) k) + i

end Context

end Mold.Elf.Symtab
