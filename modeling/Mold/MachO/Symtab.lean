import Mold.Lib.Memory
import Mold.Lib.Tiling
import Mold.Lib.Uleb128
import Mold.MachO.Symbol

/-!
# The symbol table

`SymtabSection::compute_size` counts what every file adds to the symbol table,
turns the counts into offsets, and numbers the kept symbols.  The files then
write their entries and names on their own, in `populate_symtab`.

The table consists of the stabs, the locals, the globals and the undefined
symbols, in that order; the entries of `-add_ast_path` are the first stabs.
The counters are natural numbers here.  An index is `-1` for a symbol that is
not kept, and `-2` between counting and numbering.
-/

namespace Mold.MachO.Symtab

open Mold.Lib

variable {τ : Type*}

/-! ## The input -/

/-- What the symbol table needs to know of a subsection. -/
structure Subsec where
  isAlive : Bool := true
  isText : Bool := true
  sectIdx : ℕ
  inputSize : ℕ

/-- What the symbol table needs to know of a symbol; `addr` is the value of
`get_addr`, and `hasStub` and `hasGot` say that the indices are not `-1`. -/
structure TableSymbol where
  name : List Byte
  file : Option FileRef
  subsec : Option Subsec := none
  visibility : Scope := .scopeGlobal
  isImported : Bool := false
  isAbs : Bool := false
  hasStub : Bool := false
  hasGot : Bool := false
  addr : ℕ := 0

/-- An object file or a dylib.  Stripped symbols are null; `osoPath` is the
result of `get_oso_name`. -/
structure InputFile (τ : Type*) where
  ref : FileRef
  syms : List (Option τ)
  hasDebugInfo : Bool := false
  osoPath : List Byte := []
  dylibIdx : ℤ := 0

/-- A link before the symbol table is laid out.  `files` are the object files
and the dylibs, each of them once. -/
structure Context (τ : Type*) where
  sym : τ → TableSymbol
  files : List (InputFile τ)
  x : Bool := false
  S : Bool := false
  osoPrefix : List Byte := []
  addAstPath : List (List Byte) := []
  dyldPrivate : τ
  mhDylibHeader : τ
  mhBundleHeader : τ
  dsoHandle : τ
  mhExecuteHeader : τ
  dataSectIdx : ℕ := 0
  textSectIdx : ℕ := 0
  cpusubtype : ℕ := 3
  files_nodup : (files.map InputFile.ref).Nodup

def strtabInitImage : List Byte := [32, 0, 45, 0]

structure Nlist where
  stroff : ℕ := 0
  nType : ℕ := 0
  sect : ℕ := 0
  desc : ℕ := 0
  value : ℕ := 0
  deriving DecidableEq

inductive SymClass where
  | locals
  | globals
  | undefs
  deriving DecidableEq

/-- The counters `num_*` of a file. -/
structure Counts where
  stabs : ℕ := 0
  locals : ℕ := 0
  globals : ℕ := 0
  undefs : ℕ := 0
  strtab : ℕ := 0

namespace Counts

def get (c : Counts) : SymClass → ℕ
  | .locals => c.locals
  | .globals => c.globals
  | .undefs => c.undefs

def incr (c : Counts) : SymClass → Counts
  | .locals => { c with locals := c.locals + 1 }
  | .globals => { c with globals := c.globals + 1 }
  | .undefs => { c with undefs := c.undefs + 1 }

def add (c d : Counts) : Counts where
  stabs := c.stabs + d.stabs
  locals := c.locals + d.locals
  globals := c.globals + d.globals
  undefs := c.undefs + d.undefs
  strtab := c.strtab + d.strtab

end Counts

namespace Context

variable (ctx : Context τ)

/-! ## Counting -/

/-- `has_debug_info && !ctx.arg.S`. -/
def emitDebugSyms (file : InputFile τ) : Bool :=
  file.hasDebugInfo && !ctx.S

/-- `oso_name`: the path of the object file behind `-oso_prefix`. -/
def osoName (file : InputFile τ) : List Byte :=
  if ctx.osoPrefix.isPrefixOf file.osoPath then
    file.osoPath.drop ctx.osoPrefix.length
  else
    file.osoPath

def flagClass (s : τ) : SymClass :=
  if (ctx.sym s).isImported then .undefs
  else if (ctx.sym s).visibility = .scopeGlobal then .globals
  else .locals

/-- Is it a private label, whose name starts with `l` or `L`? -/
def isPrivateLabel (s : τ) : Bool :=
  (ctx.sym s).name.head? == some 108 || (ctx.sym s).name.head? == some 76

def objectKeeps (file : InputFile τ) (s : τ) : Bool :=
  (ctx.sym s).file == some file.ref && ((ctx.sym s).subsec.all Subsec.isAlive) &&
    !ctx.isPrivateLabel s &&
    !(ctx.x && (ctx.sym s).visibility == .scopeLocal)

def dylibKeeps (file : InputFile τ) (s : τ) : Bool :=
  (ctx.sym s).file == some file.ref && ((ctx.sym s).hasStub || (ctx.sym s).hasGot)

def keeps (file : InputFile τ) (s : τ) : Bool :=
  if file.ref.isDylib then ctx.dylibKeeps file s else ctx.objectKeeps file s

/-- The number of stabs for a symbol: two for a function, one for a variable,
none for a symbol without a subsection. -/
def numSymbolStabs (s : τ) : ℕ :=
  match (ctx.sym s).subsec with
  | none => 0
  | some subsec => if subsec.isText then 2 else 1

/-- The class that a file counts a symbol in.  A dylib counts all its symbols
as undefined. -/
def countedClass (file : InputFile τ) (s : τ) : SymClass :=
  if file.ref.isDylib then .undefs else ctx.flagClass s

def initCounts (file : InputFile τ) : Counts :=
  if !file.ref.isDylib && ctx.emitDebugSyms file then
    { stabs := 3, strtab := (ctx.osoName file).length + 1 }
  else
    {}

def countSymbol (file : InputFile τ) (c : Counts) (s : τ) : Counts :=
  let c := c.incr (ctx.countedClass file s)
  { c with
    stabs := c.stabs +
      if !file.ref.isDylib && ctx.emitDebugSyms file then ctx.numSymbolStabs s
      else 0
    strtab := c.strtab + (ctx.sym s).name.length + 1 }

section Numbering

variable [DecidableEq τ]

/-- The loop body of `compute_symtab_size`. -/
def visitSymbol (file : InputFile τ) (st : Counts × (τ → ℤ)) (s : Option τ) : Counts × (τ → ℤ) :=
  match s with
  | none => st
  | some s =>
    if ctx.keeps file s then
      (ctx.countSymbol file st.1 s, Function.update st.2 s (-2))
    else
      st

/-- `compute_symtab_size`: the counters of a file, and `output_symtab_idx`. -/
def computeSymtabSize (file : InputFile τ) (idx : τ → ℤ) : Counts × (τ → ℤ) :=
  file.syms.foldl (ctx.visitSymbol file) (ctx.initCounts file, idx)

def counts (file : InputFile τ) : Counts :=
  (ctx.computeSymtabSize file fun _ => -1).1

/-- `output_symtab_idx` after all files have counted. -/
def markedIdx : τ → ℤ :=
  ctx.files.foldl (fun idx file => (ctx.computeSymtabSize file idx).2)
    fun _ => -1

/-! ## Offsets -/

def total (files : List (InputFile τ)) : Counts :=
  (files.map ctx.counts).foldl Counts.add {}

/-- The offsets of the first file.  The ranges of a class follow one another,
and the first range of a class follows the last one of the class before. -/
def firstOffsets : Counts :=
  let sum := ctx.total ctx.files
  { stabs := ctx.addAstPath.length
    locals := ctx.addAstPath.length + sum.stabs
    globals := ctx.addAstPath.length + sum.stabs + sum.locals
    undefs := ctx.addAstPath.length + sum.stabs + sum.locals + sum.globals
    strtab := strtabInitImage.length + (ctx.addAstPath.map fun path => path.length + 1).sum }

def place (o : Counts) : List (InputFile τ) → List (InputFile τ × Counts)
  | [] => []
  | file :: files => (file, o) :: place (o.add (ctx.counts file)) files

def placed : List (InputFile τ × Counts) :=
  ctx.place ctx.firstOffsets ctx.files

/-- `SymtabSection::globals_offset`. -/
def globalsOffset : ℕ := ctx.firstOffsets.globals

/-- `SymtabSection::undefs_offset`. -/
def undefsOffset : ℕ := ctx.firstOffsets.undefs

def numSymbols : ℕ := ctx.undefsOffset + (ctx.total ctx.files).undefs

def strtabSize : ℕ := ctx.firstOffsets.strtab + (ctx.total ctx.files).strtab

/-- The symbol ranges of `LC_DYSYMTAB`. -/
structure DysymtabCommand where
  ilocalsym : ℕ
  nlocalsym : ℕ
  iextdefsym : ℕ
  nextdefsym : ℕ
  iundefsym : ℕ
  nundefsym : ℕ

def createDysymtabCmd : DysymtabCommand where
  ilocalsym := 0
  nlocalsym := ctx.globalsOffset
  iextdefsym := ctx.globalsOffset
  nextdefsym := ctx.undefsOffset - ctx.globalsOffset
  iundefsym := ctx.undefsOffset
  nundefsym := ctx.numSymbols - ctx.undefsOffset

def assignSymbol (file : InputFile τ) (st : Counts × (τ → ℤ)) (s : Option τ) : Counts × (τ → ℤ) :=
  match s with
  | none => st
  | some s =>
    if (ctx.sym s).file = some file.ref ∧ st.2 s = -2 then
      (st.1.incr (ctx.flagClass s), Function.update st.2 s (st.1.get (ctx.flagClass s)))
    else
      st

def assignFile (idx : τ → ℤ) (file : InputFile τ × Counts) : τ → ℤ :=
  (file.1.syms.foldl (ctx.assignSymbol file.1) (file.2, idx)).2

/-- `output_symtab_idx` after `compute_size`. -/
def outputSymtabIdx : τ → ℤ :=
  ctx.placed.foldl ctx.assignFile ctx.markedIdx

/-! ## Writing the tables -/

/-- Is the symbol one of those that `populate_symtab` writes for the file? -/
def emits (idx : τ → ℤ) (file : InputFile τ) (s : τ) : Bool :=
  (ctx.sym s).file == some file.ref && idx s != -1

def named (idx : τ → ℤ) (file : InputFile τ) : ℕ → List (Option τ) → List (τ × ℕ)
  | _, [] => []
  | stroff, none :: syms => named idx file stroff syms
  | stroff, some s :: syms =>
    if ctx.emits idx file s then
      (s, stroff) :: named idx file (stroff + ((ctx.sym s).name.length + 1)) syms
    else
      named idx file stroff syms

/-- The end of the names that `named` gives positions to. -/
def namesEnd (idx : τ → ℤ) (file : InputFile τ) : ℕ → List (Option τ) → ℕ
  | stroff, [] => stroff
  | stroff, none :: syms => namesEnd idx file stroff syms
  | stroff, some s :: syms =>
    if ctx.emits idx file s then
      namesEnd idx file (stroff + ((ctx.sym s).name.length + 1)) syms
    else
      namesEnd idx file stroff syms

/-- The stabs of a symbol whose name is at `pos`: `N_FUN` twice for a function,
`N_STSYM` or `N_GSYM` for a variable. -/
def symbolStabs (x : τ × ℕ) : List Nlist :=
  match (ctx.sym x.1).subsec with
  | none => []
  | some subsec =>
    if subsec.isText then
      [{ stroff := x.2, nType := 0x24, sect := subsec.sectIdx,
         value := (ctx.sym x.1).addr },
       { stroff := 1, nType := 0x24, value := subsec.inputSize }]
    else
      [{ stroff := x.2
         nType :=
           if (ctx.sym x.1).visibility = .scopeLocal then 0x26 else 0x20
         sect := subsec.sectIdx
         value := (ctx.sym x.1).addr }]

/-- The stabs of a file: `N_SO` with the name "-", `N_OSO`, the stabs of the
symbols, and `N_SO` without a name. -/
def fileStabs (syms : List (τ × ℕ)) (stroff : ℕ) : List Nlist :=
  [{ stroff := 2, nType := 0x64 },
   { stroff := stroff, nType := 0x66, sect := ctx.cpusubtype, desc := 1 }] ++
  syms.flatMap ctx.symbolStabs ++
  [{ stroff := 1, nType := 0x64, sect := 1 }]

def objectEntry (x : τ × ℕ) : Nlist :=
  let sym := ctx.sym x.1
  let isExtern := if sym.visibility = .scopeGlobal then 1 else 0
  match sym.subsec with
  | some { isAlive := true, sectIdx, .. } =>
    { stroff := x.2, nType := isExtern + 14, sect := sectIdx, value := sym.addr }
  | _ =>
    if x.1 = ctx.dyldPrivate ∨ x.1 = ctx.mhDylibHeader ∨
        x.1 = ctx.mhBundleHeader ∨ x.1 = ctx.dsoHandle then
      { stroff := x.2, nType := isExtern + 14, sect := ctx.dataSectIdx }
    else if x.1 = ctx.mhExecuteHeader then
      { stroff := x.2, nType := isExtern + 14, sect := ctx.textSectIdx }
    else if sym.isImported then
      { stroff := x.2, nType := isExtern }
    else
      { stroff := x.2, nType := isExtern + 2, sect := 1 }

def dylibEntry (file : InputFile τ) (x : τ × ℕ) : Nlist :=
  { stroff := x.2, nType := 1, desc := (file.dylibIdx * 256 % 65536).toNat }

def symbolEntry (file : InputFile τ) (x : τ × ℕ) : Nlist :=
  if file.ref.isDylib then dylibEntry file x else ctx.objectEntry x

def consecutive (first : ℕ) (entries : List Nlist) : List (ℤ × Nlist) :=
  (entries.zipIdx first).map fun x => (x.2, x.1)

def stabWrites (idx : τ → ℤ) (file : InputFile τ × Counts) : List (ℤ × Nlist) :=
  let syms := ctx.named idx file.1 file.2.strtab file.1.syms
  let stroff := ctx.namesEnd idx file.1 file.2.strtab file.1.syms
  if !file.1.ref.isDylib && ctx.emitDebugSyms file.1 then
    consecutive file.2.stabs (ctx.fileStabs syms stroff)
  else
    []

def symbolWrites (idx : τ → ℤ) (file : InputFile τ × Counts) : List (ℤ × Nlist) :=
  (ctx.named idx file.1 file.2.strtab file.1.syms).map fun x =>
    (idx x.1, ctx.symbolEntry file.1 x)

/-- What `populate_symtab` of a file writes to the symbol table. -/
def fileWrites (idx : τ → ℤ) (file : InputFile τ × Counts) : List (ℤ × Nlist) :=
  ctx.stabWrites idx file ++ ctx.symbolWrites idx file

/-- What `populate_symtab` of a file writes to the string table. -/
def fileStrings (idx : τ → ℤ) (file : InputFile τ × Counts) : List (Segment Byte) :=
  let syms := ctx.named idx file.1 file.2.strtab file.1.syms
  let stroff := ctx.namesEnd idx file.1 file.2.strtab file.1.syms
  syms.map (fun x => ⟨x.2, (ctx.sym x.1).name ++ [0]⟩) ++
  (if !file.1.ref.isDylib && ctx.emitDebugSyms file.1 then
    [⟨stroff, ctx.osoName file.1 ++ [0]⟩]
  else
    [])

end Numbering

/-- The paths of `-add_ast_path` in the string table. -/
def astStrings : ℕ → List (List Byte) → List (Segment Byte)
  | _, [] => []
  | stroff, path :: paths =>
    ⟨stroff, path ++ [0]⟩ :: astStrings (stroff + (path.length + 1)) paths

/-- The `N_AST` entries. -/
def astWrites : List (ℤ × Nlist) :=
  consecutive 0 ((astStrings strtabInitImage.length ctx.addAstPath).map
    fun seg => { stroff := seg.start, nType := 0x32 })

variable [DecidableEq τ]

/-- All writes of `copy_buf` to the symbol table. -/
def writes : List (ℤ × Nlist) :=
  ctx.astWrites ++ ctx.placed.flatMap (ctx.fileWrites ctx.outputSymtabIdx)

/-- All strings that `copy_buf` writes behind the initial image. -/
def strings : List (Segment Byte) :=
  astStrings strtabInitImage.length ctx.addAstPath ++
    ctx.placed.flatMap (ctx.fileStrings ctx.outputSymtabIdx)

def symtab : List Nlist :=
  (ctx.writes.map fun w => ⟨w.1.toNat, [w.2]⟩).foldl Segment.write
    (List.replicate ctx.numSymbols {})

def strtab : List Byte :=
  (⟨0, strtabInitImage⟩ :: ctx.strings).foldl Segment.write (List.replicate ctx.strtabSize 0)

end Context

end Mold.MachO.Symtab
