import Mold.Lib.Loop
import Mold.Lib.KeyedList
import Mold.Lib.Uleb128

/-!
# The YAML parser

Text dylibs are YAML files.  `YamlParser` of `yaml.cc` first splits a text into tokens, where
the tokens `indent` and `dedent` stand around each indented block, and `endMarker` for the
lines `---` and `...`.  Then it reads the tokens by recursive descent.

The tokenizer consists of nested loops over the rest of the text.  They are one machine here,
whose turns are those of the loops.  The functions of the descent have fuel.  They read the
next token without a check that there is one, and come to `past` where there is none.
-/

namespace Mold.MachO.Yaml

open Mold.Lib

def ch (c : Char) : Byte := Fin.ofNat 256 c.toNat

def text (s : String) : List Byte := s.toList.map ch

inductive YamlNode where
  | scalar (str : List Byte)
  | list (vec : List YamlNode)
  | map (map : List (List Byte × YamlNode))

structure YamlError where
  msg : String
  pos : ℕ
  deriving DecidableEq

inductive Kind where
  | string (str : List Byte)
  | indent
  | dedent
  | endMarker
  | dash
  | colon
  | lbracket
  | rbracket
  | comma
  deriving DecidableEq

/-- `Token`, with the position of its text in the input. -/
structure Token where
  kind : Kind
  pos : ℕ
  deriving DecidableEq

/-! ## The tokenizer -/

/-- The loop that the tokenizer is in: the one over the lines, the one over what is in a line,
with the length of the text from the start of the line, or the one over a list in brackets,
with the position of the bracket. -/
inductive Mode where
  | line
  | inLine (start : ℕ)
  | list (start : ℕ)
  deriving DecidableEq

/-- The variables of `tokenize`, with the top of `indents` first. -/
structure Tokenizer where
  str : List Byte
  indents : List ℕ := [0]
  tokens : List Token := []
  mode : Mode := .line
  deriving DecidableEq

/-- How the tokenizer ends.  `substr` throws an exception where it is out of range. -/
inductive Outcome where
  | tokens (tokens : List Token)
  | error (err : YamlError)
  | outOfRange
  deriving DecidableEq

def isBlank (c : Byte) : Bool := c = ch ' ' || c = ch '\t'

def isListBlank (c : Byte) : Bool := isBlank c || c = ch '\n'

def isBare (c : Byte) : Bool :=
  (ch 'a' ≤ c && c ≤ ch 'z') || (ch 'A' ≤ c && c ≤ ch 'Z') || (ch '0' ≤ c && c ≤ ch '9') ||
    c = ch '_' || c = ch '-' || c = ch '/' || c = ch '.'

namespace Tokenizer

/-- Add a token whose text is at the rest of the input. -/
def push (n : ℕ) (kind : Kind) (s : Tokenizer) : Tokenizer :=
  { s with tokens := s.tokens ++ [⟨kind, n - s.str.length⟩] }

def indent (n depth : ℕ) (s : Tokenizer) : Tokenizer :=
  { s.push n .indent with indents := depth :: s.indents }

/-- `dedent`, several times. -/
def dedent (n count : ℕ) (s : Tokenizer) : Tokenizer :=
  { s with
    tokens := s.tokens ++ List.replicate count ⟨.dedent, n - s.str.length⟩
    indents := s.indents.drop count }

/-- Dedent down to the bottom of the stack, and add the token of a marker. -/
def mark (n : ℕ) (s : Tokenizer) : Tokenizer :=
  (s.dedent n (s.indents.length - 1)).push n .endMarker

/-- `skip_line`, and the return to the loop over the lines. -/
def skipLine (s : Tokenizer) : Tokenizer :=
  { s with str := (s.str.dropWhile (· ≠ ch '\n')).tail, mode := .line }

/-- The part of `tokenize_line` that compares the indentation of a line with the others. -/
def align (n pos : ℕ) (s : Tokenizer) : Turn Tokenizer Outcome :=
  let enter (s : Tokenizer) : Turn Tokenizer Outcome :=
    .next { s with str := s.str.drop pos, mode := .inLine s.str.length }
  if s.indents.headD 0 < pos then
    enter (s.indent n pos)
  else
    let count := (s.indents.takeWhile (pos < ·)).length
    if (s.indents.drop count).head? = some pos then
      enter (s.dedent n count)
    else
      .done (.error ⟨"bad indentation", n - s.str.length⟩)

/-- The start of `tokenize_line`. -/
def tokenizeLine (n : ℕ) (s : Tokenizer) : Turn Tokenizer Outcome :=
  if s.str = [] then
    .done (.tokens s.tokens)
  else if text "---" <+: s.str then
    .next (s.mark n).skipLine
  else if text "..." <+: s.str then
    .next { s.mark n with str := [] }
  else
    let pos := (s.str.takeWhile isBlank).length
    match s.str.drop pos with
    | [] => .next s.skipLine
    | c :: _ =>
      if c = ch '#' ∨ c = ch '\n' then
        .next s.skipLine
      else
        s.align n pos

def afterBlanks (s : Tokenizer) : List Byte :=
  s.str.tail.dropWhile isBlank

/-- The turns after `- ` and `:`, which skip a line without anything else. -/
def continueLine (s : Tokenizer) (next : Tokenizer → Tokenizer) : Turn Tokenizer Outcome :=
  match s.afterBlanks with
  | [] => .next s.skipLine
  | c :: rest => if c = ch '\n' then .next s.skipLine else .next (next { s with str := c :: rest })

def tokenizeString (n : ℕ) (quote : Byte) (s : Tokenizer) : Turn Tokenizer Outcome :=
  let rest := s.str.tail
  if quote ∈ rest then
    .next
      { { s with str := rest }.push n (.string (rest.takeWhile (· ≠ quote))) with
        str := (rest.dropWhile (· ≠ quote)).tail }
  else
    .done (.error ⟨"unterminated string literal", n - s.str.length⟩)

def tokenizeBareString (n : ℕ) (s : Tokenizer) : Turn Tokenizer Outcome :=
  .next
    { s.push n (.string (s.str.takeWhile isBare)) with str := s.str.dropWhile isBare }

/-- A turn of the loop over what is in a line.  At the end of the text both loops end. -/
def tokenizeInLine (n start : ℕ) (s : Tokenizer) : Turn Tokenizer Outcome :=
  match s.str with
  | [] => .done (.tokens s.tokens)
  | c :: rest =>
    if c = ch '\n' then
      .next { s with str := rest, mode := .line }
    else if text "- " <+: s.str then
      (s.push n .dash).continueLine fun s => s.indent n (start - s.str.length)
    else if c = ch '[' then
      .next { s.push n .lbracket with str := rest, mode := .list (n - s.str.length) }
    else if c = ch '\'' ∨ c = ch '"' then
      s.tokenizeString n c
    else if c = ch '#' then
      .next s.skipLine
    else if c = ch ':' then
      (s.push n .colon).continueLine id
    else
      s.tokenizeBareString n

/-- The part of `tokenize_list` behind its loop. -/
def endList (n : ℕ) (s : Tokenizer) : Turn Tokenizer Outcome :=
  match s.afterBlanks with
  | [] => .done (.error ⟨"no newline after ']'", n - s.str.length⟩)
  | c :: rest =>
    if c = ch '\n' then
      .next { s.push n .rbracket with str := rest, mode := .line }
    else
      .done (.error ⟨"no newline after ']'", n - s.str.length⟩)

/-- A turn of the loop of `tokenize_list`. -/
def tokenizeList (n start : ℕ) (s : Tokenizer) : Turn Tokenizer Outcome :=
  match s.str with
  | [] => .done (.error ⟨"unclosed list", start⟩)
  | c :: rest =>
    if c = ch ']' then
      s.endList n
    else if isListBlank c then
      if rest.dropWhile isListBlank = [] then
        .done .outOfRange
      else
        .next { s with str := rest.dropWhile isListBlank }
    else if c = ch '\'' ∨ c = ch '"' then
      s.tokenizeString n c
    else if c = ch ',' then
      .next { s.push n .comma with str := rest }
    else
      s.tokenizeBareString n

/-- A turn of the tokenizer on an input of `n` bytes. -/
def turn (n : ℕ) (s : Tokenizer) : Turn Tokenizer Outcome :=
  match s.mode with
  | .line => s.tokenizeLine n
  | .inLine start => s.tokenizeInLine n start
  | .list start => s.tokenizeList n start

end Tokenizer

/-- `tokenize` -/
def Tokenizes (input : List Byte) : Outcome → Prop :=
  Ends (Tokenizer.turn input.length) { str := input }

/-! ## The descent -/

inductive Parsed (α : Type*) where
  | outOfFuel
  | past
  | error (err : YamlError)
  | ok (a : α) (tok : List Token)

/-- Go on with what has been read, or return the error. -/
def Parsed.andThen {α β : Type*} (p : Parsed α) (f : α → List Token → Parsed β) : Parsed β :=
  match p with
  | .outOfFuel => .outOfFuel
  | .past => .past
  | .error err => .error err
  | .ok a tok => f a tok

mutual

def parseFlowElement : ℕ → List Token → Parsed YamlNode
  | 0, _ => .outOfFuel
  | _ + 1, [] => .past
  | fuel + 1, t :: tok =>
    match t.kind with
    | .lbracket => parseFlowList fuel tok
    | .string val => .ok (.scalar val) tok
    | _ => .error ⟨"scalar expected", t.pos⟩

def parseFlowList : ℕ → List Token → Parsed YamlNode
  | 0, _ => .outOfFuel
  | _ + 1, [] => .past
  | fuel + 1, t :: tok => parseFlowItems fuel t.pos [] (t :: tok)

/-- The loop of `parse_flow_list`. -/
def parseFlowItems : ℕ → ℕ → List YamlNode → List Token → Parsed YamlNode
  | 0, _, _, _ => .outOfFuel
  | _ + 1, _, _, [] => .past
  | fuel + 1, start, vec, t :: tok =>
    match t.kind with
    | .rbracket => .ok (.list vec) tok
    | .endMarker => .error ⟨"unterminated flow list", start⟩
    | _ =>
      (parseFlowElement fuel (t :: tok)).andThen fun elem tok =>
        match tok with
        | [] => .past
        | t :: tok =>
          match t.kind with
          | .rbracket => .ok (.list (vec ++ [elem])) tok
          | .comma => parseFlowItems fuel start (vec ++ [elem]) tok
          | _ => .error ⟨"comma expected", t.pos⟩

end

mutual

def parseElement : ℕ → List Token → Parsed YamlNode
  | 0, _ => .outOfFuel
  | _ + 1, [] => .past
  | fuel + 1, t :: tok =>
    match t.kind with
    | .indent =>
      -- The token that is dropped should be the `dedent` of the block.
      (parseElement fuel tok).andThen fun elem tok => .ok elem tok.tail
    | .dash => parseList fuel [] (t :: tok)
    | .string _ =>
      if 2 ≤ tok.length ∧ tok.head?.map Token.kind = some .colon then
        parseMap fuel [] (t :: tok)
      else
        parseFlowElement fuel (t :: tok)
    | _ => parseFlowElement fuel (t :: tok)

def parseList : ℕ → List YamlNode → List Token → Parsed YamlNode
  | 0, _, _ => .outOfFuel
  | _ + 1, _, [] => .past
  | fuel + 1, vec, t :: tok =>
    match t.kind with
    | .endMarker | .dedent => .ok (.list vec) (t :: tok)
    | .dash =>
      (parseElement fuel tok).andThen fun elem tok => parseList fuel (vec ++ [elem]) tok
    | _ => .error ⟨"list element expected", t.pos⟩

def parseMap : ℕ → List (List Byte × YamlNode) → List Token → Parsed YamlNode
  | 0, _, _ => .outOfFuel
  | _ + 1, _, [] => .past
  | fuel + 1, map, t :: tok =>
    match t.kind with
    | .endMarker | .dedent => .ok (.map map) (t :: tok)
    | .string key =>
      match tok with
      | ⟨.colon, _⟩ :: tok =>
        (parseElement fuel tok).andThen fun elem tok =>
          parseMap fuel (setEntry key elem map) tok
      | _ => .error ⟨"map key expected", t.pos⟩
    | _ => .error ⟨"map key expected", t.pos⟩

end

/-- The loop of `parse`. -/
def parseDocuments : ℕ → List YamlNode → List Token → Parsed (List YamlNode)
  | 0, _, _ => .outOfFuel
  | _ + 1, vec, [] => .ok vec []
  | fuel + 1, vec, t :: tok =>
    if t.kind = .endMarker then
      parseDocuments fuel vec tok
    else
      (parseElement fuel (t :: tok)).andThen fun elem tok =>
        match tok with
        | [] => .past
        | t :: tok =>
          if t.kind = .endMarker then
            parseDocuments fuel (vec ++ [elem]) (t :: tok)
          else
            .error ⟨"stray token", t.pos⟩

/-- What `parse_yaml` returns. -/
inductive Result where
  | nodes (vec : List YamlNode)
  | error (err : YamlError)

/-- `parse_yaml` ends with a result, without an exception and without reading tokens that
are not there. -/
inductive Returns (input : List Byte) : Result → Prop where
  | tokenize {err : YamlError} (h : Tokenizes input (.error err)) : Returns input (.error err)
  | error {tokens : List Token} {fuel : ℕ} {err : YamlError}
      (h : Tokenizes input (.tokens tokens)) (hparse : parseDocuments fuel [] tokens = .error err) :
      Returns input (.error err)
  | nodes {tokens rest : List Token} {fuel : ℕ} {vec : List YamlNode}
      (h : Tokenizes input (.tokens tokens)) (hparse : parseDocuments fuel [] tokens = .ok vec rest) :
      Returns input (.nodes vec)

end Mold.MachO.Yaml
