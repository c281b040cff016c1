import Mold.Common.Glob
import Mold.Lib.BreadthFirst

/-!
# Matching many glob patterns at once

`MultiGlob` of `multi-glob.cc` has a value for each of its patterns, and finds the least value
of a pattern that matches a string.  Simple patterns, in which stars are only at the ends, are
words in the trie of an Aho-Corasick automaton.  Zero bytes mark the ends of the string, and
those ends of a pattern at which it has no star.  Other patterns are matched one by one.

A node of the trie is named by the bytes that lead to it.  A suffix link goes to a node that
is nearer to the root.
-/

namespace Mold.MultiGlob

open Glob Lib.BreadthFirst

/-! ## The trie -/

/-- A `TrieNode`, by the bytes on the way to it. -/
abbrev Node := List UInt8

abbrev Nearer (node : Node) := {suffix : Node // suffix.length < node.length}

/-- `UINT32_MAX`, which stands for no value. -/
def noValue : ℕ := 0xffffffff

/-- The nodes that there are, with `value` and `suffix_link`. -/
structure Trie where
  nodes : List Node
  value : Node → ℕ
  suffixLink : (node : Node) → Option (Nearer node)

def Trie.new : Trie where
  nodes := [[]]
  value _ := noValue
  suffixLink _ := none

/-- One byte in the loop of `MultiGlob::add`. -/
def addByte (s : List Node × Node) (c : UInt8) : List Node × Node :=
  (if s.2 ++ [c] ∈ s.1 then s.1 else s.1 ++ [s.2 ++ [c]], s.2 ++ [c])

def Trie.add (t : Trie) (word : List UInt8) (val : ℕ) : Trie :=
  let s := word.foldl addByte (t.nodes, [])
  { t with
    nodes := s.1
    value := Function.update t.value s.2 (min (t.value s.2) val) }

/-- The indices of `children`. -/
def allBytes : List UInt8 :=
  (List.range 256).map UInt8.ofNat

def children (nodes : List Node) (node : Node) : List Node :=
  (allBytes.filter fun c => node ++ [c] ∈ nodes).map fun c => node ++ [c]

/-! ## Patterns -/

/-- The bytes of `[^*[?]`. -/
def isPlain (c : UInt8) : Bool :=
  c ≠ ch '*' && c ≠ ch '[' && c ≠ ch '?'

def stripStars (pat : List UInt8) : List UInt8 :=
  let rest := if pat.head? = some (ch '*') then pat.tail else pat
  if rest.getLast? = some (ch '*') then rest.dropLast else rest

def isSimplePattern (pat : List UInt8) : Bool :=
  stripStars pat ≠ [] && (stripStars pat).all isPlain

def handleStars (pat : List UInt8) : List UInt8 :=
  if pat.head? = some (ch '*') && pat.getLast? = some (ch '*') then
    pat.tail.dropLast
  else if pat.head? = some (ch '*') then
    pat.tail ++ [0]
  else if pat.getLast? = some (ch '*') then
    0 :: pat.dropLast
  else
    0 :: (pat ++ [0])

end MultiGlob

structure MultiGlob where
  root : Option MultiGlob.Trie
  globs : List (List Glob.Element × ℕ)

namespace MultiGlob

open Glob Lib.BreadthFirst

def empty : MultiGlob :=
  ⟨none, []⟩

/-- `MultiGlob::add`, with whether the pattern is valid.  The assertion that it is not empty
is left out. -/
def add (m : MultiGlob) (pat : List UInt8) (val : ℕ) : MultiGlob × Bool :=
  if !isSimplePattern pat then
    match compile pat with
    | some glob => ({ m with globs := m.globs ++ [(glob, val)] }, true)
    | none => (m, false)
  else
    ({ m with root := some ((m.root.getD .new).add (handleStars pat) val) }, true)

/-! ## Suffix links -/

def findChild (t : Trie) (c : UInt8) (node : Node) : Option {q : Node // q.length ≤ node.length} :=
  if node ++ [c] ∈ t.nodes then
    some ⟨node, Nat.le_refl _⟩
  else
    match t.suffixLink node with
    | none => none
    | some l => (findChild t c l.1).map fun q => ⟨q.1, Nat.le_trans q.2 (Nat.le_of_lt l.2)⟩
  termination_by node.length
  decreasing_by exact l.2

/-- Set `suffix_link`. -/
def Trie.setLink (t : Trie) (node : Node) (link : Nearer node) : Trie :=
  { t with suffixLink := Function.update t.suffixLink node (some link) }

def rootLink (node : Node) (c : UInt8) : Nearer (node ++ [c]) :=
  ⟨[], by rw [List.length_append]; exact Nat.succ_pos _⟩

def childLink (t : Trie) (cur : Node) (c : UInt8) : Nearer (cur ++ [c]) :=
  match t.suffixLink cur with
  | none => rootLink cur c
  | some l =>
    match findChild t c l.1 with
    | none => rootLink cur c
    | some q =>
      ⟨q.1 ++ [c], by
        rw [List.length_append, List.length_append]
        exact Nat.add_lt_add_right (Nat.lt_of_le_of_lt q.2 l.2) 1⟩

def linkChild (cur : Node) (t : Trie) (c : UInt8) : Trie :=
  if cur ++ [c] ∈ t.nodes then t.setLink (cur ++ [c]) (childLink t cur c) else t

def linkChildren (t : Trie) (cur : Node) : Trie :=
  allBytes.foldl (linkChild cur) t

def linkRoot (t : Trie) : Trie :=
  allBytes.foldl (fun t c => if [c] ∈ t.nodes then t.setLink [c] (rootLink [] c) else t) t

def fixSuffixLinks (t : Trie) : Option Trie :=
  runQueue (children t.nodes) linkChildren t.nodes.length (children t.nodes []) (linkRoot t)

def fixValue (t : Trie) (child : Node) : Trie :=
  match t.suffixLink child with
  | none => t
  | some l =>
    { t with value := Function.update t.value child (min (t.value child) (t.value l.1)) }

def fixChildren (t : Trie) (node : Node) : Trie :=
  (children t.nodes node).foldl fixValue t

def fixValues (t : Trie) : Option Trie :=
  runQueue (children t.nodes) fixChildren t.nodes.length [[]] t

def compileTrie (t : Trie) : Option Trie :=
  (fixSuffixLinks t).bind fixValues

/-- The loop of `walk`, from a node and a value. -/
def walk (t : Trie) (c : UInt8) (val : ℕ) (node : Node) : Node × ℕ :=
  if node ++ [c] ∈ t.nodes then
    (node ++ [c], min val (t.value (node ++ [c])))
  else
    match t.suffixLink node with
    | none => (node, val)
    | some l => walk t c val l.1
  termination_by node.length
  decreasing_by exact l.2

def walkString (t : Trie) (str : List UInt8) : Node × ℕ :=
  (0 :: (str ++ [0])).foldl (fun s c => walk t c s.2 s.1) ([], noValue)

def matchGlobs (str : List UInt8) : List (List Element × ℕ) → ℕ → Option ℕ
  | [], val => some val
  | (glob, v) :: globs, val =>
    (doMatch glob str).bind fun found =>
      matchGlobs str globs (if found then min val v else val)

def trieValue (m : MultiGlob) (str : List UInt8) : Option ℕ :=
  match m.root with
  | none => some noValue
  | some t => (compileTrie t).map fun t => (walkString t str).2

/-- `MultiGlob::find`.  There is no result if the match of a complex pattern has none. -/
def find (m : MultiGlob) (str : List UInt8) : Option (Option ℕ) :=
  ((trieValue m str).bind (matchGlobs str m.globs)).map fun val =>
    if val = noValue then none else some val

end Mold.MultiGlob
