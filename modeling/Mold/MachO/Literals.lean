import Mold.Lib.Representatives
import Mold.MachO.Symbol

/-!
# Merging of literals

`merge_mergeable_sections` merges C strings and fixed-size literals by their
contents, and then literal pointers by the subsections that they point to.  A
merged subsection is replaced by the owner of its contents; its `isec` pointer
is overwritten, so nobody may follow a pointer to it any more.

The members of a section are inserted into a hash table in parallel.  A
`Schedule` gives the order in which the insertions take effect.
-/

namespace Mold.MachO.Literals

open Mold.Lib

variable {τ σ ι κ : Type*}

structure Relocation (τ σ : Type*) where
  target : RelocTarget τ σ
  addend : ℤ := 0
  offset : ℕ := 0
  type : ℕ := 0
  size : ℕ := 8

/-- What merging reads of a subsection; `isec` is its input section. -/
structure Subsection (ι κ : Type*) where
  contents : κ
  filePriority : ℕ
  isec : ι
  relOffset : ℕ := 0
  nrels : ℕ := 0

structure OutputSection (σ : Type*) where
  type : ℕ
  members : List σ

/-- `S_CSTRING_LITERALS`, `S_4BYTE_LITERALS`, `S_8BYTE_LITERALS` or
`S_16BYTE_LITERALS`. -/
def OutputSection.isLiterals (osec : OutputSection σ) : Bool :=
  osec.type == 0x2 || osec.type == 0x3 || osec.type == 0x4 || osec.type == 0xe

def OutputSection.isLiteralPointers (osec : OutputSection σ) : Bool :=
  osec.type == 0x5

structure Object (τ σ ι : Type*) where
  file : FileRef
  sections : List ι
  syms : List τ
  subsections : List σ

structure Dylib (τ : Type*) where
  file : FileRef
  syms : List τ

/-- The state that merging reads and writes.  `rels` are the relocations of the
input sections; `methnames` and `selrefs` belong to `__objc_stubs`. -/
structure State (τ σ ι κ : Type*) where
  subsec : σ → Subsection ι κ
  sym : τ → Symbol σ
  rels : ι → List (Relocation τ σ)
  chunks : List (OutputSection σ)
  objs : List (Object τ σ ι)
  dylibs : List (Dylib τ) := []
  methnames : List σ := []
  selrefs : List σ := []

namespace State

variable (st : State τ σ ι κ)

/-- `Subsection::get_rels`. -/
def getRels (s : σ) : List (Relocation τ σ) :=
  ((st.rels (st.subsec s).isec).drop (st.subsec s).relOffset).take (st.subsec s).nrels

def relTarget (rel : Relocation τ σ) : Option σ :=
  rel.target.subsec? fun s => (st.sym s).subsec

def relOffset (rel : Relocation τ σ) : ℤ :=
  match rel.target with
  | .sym s => (st.sym s).value.toNat + rel.addend
  | .subsec _ => rel.addend

def files : List (FileRef × List τ) :=
  st.objs.map (fun obj => (obj.file, obj.syms)) ++
    st.dylibs.map fun dylib => (dylib.file, dylib.syms)

end State

/-- A state before merging.  A subsection is a member of one output section and
belongs to a file of the link, and so does a symbol that points into one. -/
structure Context (τ σ ι κ : Type*) extends State τ σ ι κ where
  disjoint : (chunks.flatMap OutputSection.members).Nodup
  parsed : ∀ osec ∈ chunks, ∀ s ∈ osec.members, ∃ obj ∈ objs, (subsec s).isec ∈ obj.sections
  owned : ∀ s, (sym s).subsec.isSome = true →
    ∃ file ∈ toState.files, s ∈ file.2 ∧ (sym s).file = some file.1

structure Schedule (st : State τ σ ι κ) where
  order : OutputSection σ → List σ
  order_perm : ∀ osec ∈ st.chunks, (order osec).Perm osec.members

/-! ## The two passes -/

namespace State

variable (st : State τ σ ι κ)

section Literals

variable [DecidableEq κ]

/-- The insertion of a member: it becomes the owner of its contents if there is
none or if its file has a higher priority. -/
def insertLiteral (owner : κ → Option σ) (s : σ) : κ → Option σ :=
  let contents := (st.subsec s).contents
  match owner contents with
  | none => Function.update owner contents (some s)
  | some existing =>
    if (st.subsec existing).filePriority < (st.subsec s).filePriority then
      Function.update owner contents (some s)
    else owner

def literalOwner (order : List σ) : κ → Option σ :=
  order.foldl st.insertLiteral fun _ => none

def uniquifyLiterals [DecidableEq σ] (order : List σ) (osec : OutputSection σ)
    (replacer : σ → Option σ) : σ → Option σ :=
  mergeBy osec.members (fun s => some (st.subsec s).contents) (st.literalOwner order) replacer

end Literals

/-- `get_target` for the only relocation of a literal pointer. -/
def pointerTarget (replacer : σ → Option σ) (s : σ) : Option σ :=
  match st.getRels s with
  | [rel] => (st.relTarget rel).map (rep replacer)
  | _ => none

section Pointers

variable [DecidableEq σ]

/-- The owner of a target is the first member that points to it, whatever the
order of the insertions is. -/
def pointerOwner (members : List σ) (replacer : σ → Option σ) (target : σ) : Option σ :=
  members.find? fun s => decide (st.pointerTarget replacer s = some target)

def uniquifyLiteralPointers (osec : OutputSection σ) (replacer : σ → Option σ) : σ → Option σ :=
  mergeBy osec.members (st.pointerTarget replacer) (st.pointerOwner osec.members replacer) replacer

variable [DecidableEq κ] {st}

/-- The loop over the chunks that merges literals, and the one that merges
literal pointers behind it. -/
def replacer (sched : Schedule st) : σ → Option σ :=
  let merged := st.chunks.foldl
    (fun R osec =>
      if osec.isLiterals then st.uniquifyLiterals (sched.order osec) osec R else R)
    fun _ => none
  st.chunks.foldl
    (fun R osec =>
      if osec.isLiteralPointers then st.uniquifyLiteralPointers osec R else R)
    merged

end Pointers

def rewriteRel (R : σ → Option σ) (rel : Relocation τ σ) : Relocation τ σ :=
  match rel.target with
  | .sym _ => rel
  | .subsec s => { rel with target := .subsec (rep R s) }

variable [DecidableEq τ] [DecidableEq ι]

/-- The end of `merge_mergeable_sections`: relocations and symbols are
rewritten, and replaced subsections leave the lists of the output sections and
of the files. -/
def rewrite (R : σ → Option σ) : State τ σ ι κ :=
  { st with
    rels := fun i =>
      if ∃ obj ∈ st.objs, i ∈ obj.sections then (st.rels i).map (rewriteRel R)
      else st.rels i
    sym := fun s =>
      if ∃ file ∈ st.files, s ∈ file.2 ∧ (st.sym s).file = some file.1 then
        { st.sym s with subsec := (st.sym s).subsec.map (rep R) }
      else st.sym s
    chunks := st.chunks.map fun osec =>
      { osec with members :=
          if osec.isLiterals || osec.isLiteralPointers then
            osec.members.filter fun s => (R s).isNone
          else osec.members }
    objs := st.objs.map fun obj =>
      { obj with subsections := obj.subsections.filter fun s => (R s).isNone } }

def mergeMergeableSections [DecidableEq σ] [DecidableEq κ] {st : State τ σ ι κ}
    (sched : Schedule st) : State τ σ ι κ :=
  st.rewrite (replacer sched)

end State

inductive State.Follows (st : State τ σ ι κ) : σ → Prop
  | rel {obj : Object τ σ ι} {i : ι} {rel : Relocation τ σ} {t : σ}
      (hobj : obj ∈ st.objs) (hi : i ∈ obj.sections) (hrel : rel ∈ st.rels i)
      (ht : st.relTarget rel = some t) : State.Follows st t
  | sym {s : τ} {t : σ} (ht : (st.sym s).subsec = some t) : State.Follows st t
  | methname {t : σ} (ht : t ∈ st.methnames) : State.Follows st t
  | selref {t : σ} (ht : t ∈ st.selrefs) : State.Follows st t
  | member {osec : OutputSection σ} {t : σ} (hosec : osec ∈ st.chunks)
      (ht : t ∈ osec.members) : State.Follows st t
  | subsection {obj : Object τ σ ι} {t : σ} (hobj : obj ∈ st.objs)
      (ht : t ∈ obj.subsections) : State.Follows st t

/-- Two relocations agree in all but the subsections that they refer to. -/
structure State.SamePointer (st : State τ σ ι κ) (rel rel' : Relocation τ σ) : Prop where
  relOffset : st.relOffset rel = st.relOffset rel'
  offset : rel.offset = rel'.offset
  type : rel.type = rel'.type
  size : rel.size = rel'.size

/-- `t` can stand for `s`: they have the same contents as literals, or each has
one relocation and the two relocations are the same pointer. -/
inductive State.Interchangeable (before after : State τ σ ι κ) (s t : σ) : Prop
  | same (h : s = t)
  | literal {osec : OutputSection σ} (hosec : osec ∈ before.chunks)
      (htype : osec.isLiterals = true) (hs : s ∈ osec.members)
      (ht : t ∈ osec.members)
      (hcontents : (before.subsec s).contents = (before.subsec t).contents)
  | pointer {osec : OutputSection σ} (hosec : osec ∈ before.chunks)
      (htype : osec.isLiteralPointers = true) (hs : s ∈ osec.members)
      (ht : t ∈ osec.members) {rs rt : Relocation τ σ}
      (hrs : after.getRels s = [rs]) (hrt : after.getRels t = [rt])
      (htarget : after.relTarget rs = after.relTarget rt)
      (hsame : after.SamePointer rs rt)

/-- No pointer that is followed later leads to a replaced subsection, and every
reference keeps its offset into a subsection that can stand for the one it
referred to. -/
structure MergeSound (before after : State τ σ ι κ) (R : σ → Option σ) : Prop where
  inPlace : ∀ t, after.Follows t → R t = none
  rels : ∀ obj ∈ before.objs, ∀ i ∈ obj.sections,
    List.Forall₂
      (fun rel rel' => rel'.offset = rel.offset ∧ rel'.addend = rel.addend ∧
        after.relOffset rel' = before.relOffset rel ∧
        Option.Rel (State.Interchangeable before after)
          (before.relTarget rel) (after.relTarget rel'))
      (before.rels i) (after.rels i)
  syms : ∀ s, (after.sym s).value = (before.sym s).value ∧
    Option.Rel (State.Interchangeable before after) (before.sym s).subsec (after.sym s).subsec

/-! ## When merging is sound -/

namespace State

variable (st : State τ σ ι κ)

def passes : List (OutputSection σ) :=
  st.chunks.filter OutputSection.isLiterals ++ st.chunks.filter OutputSection.isLiteralPointers

def pointee (s : σ) : Option σ :=
  match st.getRels s with
  | [rel] => st.relTarget rel
  | _ => none

/-- Two subsections are one behind the merges of a list of sections, the last
one first. -/
def Merged : List (OutputSection σ) → σ → σ → Prop
  | [], s, t => s = t
  | osec :: done, s, t => Merged done s t ∨ s ∈ osec.members ∧ t ∈ osec.members ∧
      if osec.isLiterals then (st.subsec s).contents = (st.subsec t).contents
      else ∃ u v, st.pointee s = some u ∧ st.pointee t = some v ∧ Merged done u v

/-- Two literal pointers point to one subsection behind the merges `done`. -/
def SamePointee (done : List (OutputSection σ)) (s t : σ) : Prop :=
  ∃ u v, st.pointee s = some u ∧ st.pointee t = some v ∧ st.Merged done u v

/-- `q` is the first literal pointer of a section with the pointee of `p`. -/
structure Owns [DecidableEq σ] (done : List (OutputSection σ))
    (osec : OutputSection σ) (q p : σ) : Prop where
  mem : q ∈ osec.members
  same : st.SamePointee done q p
  first : ∀ r ∈ osec.members, st.SamePointee done r p → osec.members.idxOf q ≤ osec.members.idxOf r

/-- Does a relocation or a symbol refer to a subsection? -/
def Referenced (s : σ) : Prop :=
  (∃ obj ∈ st.objs, ∃ i ∈ obj.sections, ∃ rel ∈ st.rels i, st.relTarget rel = some s) ∨
    ∃ t, (st.sym t).subsec = some s

/-- The subsections of `__objc_stubs` own their contents or their pointees, and
a literal pointer that something refers to is the same pointer as its owner. -/
structure MergeSafe [DecidableEq σ] : Prop where
  contents : ∀ x ∈ st.methnames ++ st.selrefs, ∀ osec ∈ st.chunks,
    osec.isLiterals = true → x ∈ osec.members → ∀ s ∈ osec.members, s ≠ x →
      (st.subsec s).contents = (st.subsec x).contents →
        (st.subsec s).filePriority < (st.subsec x).filePriority
  pointees : ∀ x ∈ st.methnames ++ st.selrefs, ∀ done osec rest,
    st.passes = done ++ osec :: rest → osec.isLiteralPointers = true →
      x ∈ osec.members → (st.pointee x).isSome → st.Owns done.reverse osec x x
  offsets : ∀ p, st.Referenced p → ∀ done osec rest,
    st.passes = done ++ osec :: rest → osec.isLiteralPointers = true →
      p ∈ osec.members → ∀ q, st.Owns done.reverse osec q p →
        ∀ rp rq, st.getRels p = [rp] → st.getRels q = [rq] → st.SamePointer rp rq

end State

end Mold.MachO.Literals
