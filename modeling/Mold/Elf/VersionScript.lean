import Mold.Elf.ScriptTokens

/-!
# Version scripts

`parse_version_script` of `linker-script.cc` reads nodes such as

    VERS_1 { global: foo; extern "C++" { "bar()"; }; local: *; } VERS_0;

and adds an entry to `version_patterns` for each name.  `Commands` and `Node` are the scripts
that it accepts, and `Node.entries` says what their names mean.  Inside an `extern` block names
are global until there is another label, whatever part of the node the block is in.
-/

namespace Mold.Elf.Script

/-! ## The readers -/

structure VersionPattern where
  pattern : List UInt8
  source : String
  verStr : Token
  verIdx : UInt16
  isCpp : Bool
  deriving DecidableEq

structure Context where
  versionDefinitions : List Token
  versionPatterns : List VersionPattern
  defaultVersion : UInt16
  defaultVersionFromVersionScript : Bool
  deriving DecidableEq

def verNdxLocal : UInt16 := 0

def verNdxGlobal : UInt16 := 1

def verNdxLastReserved : ℕ := 1

def unquote (s : Token) : List UInt8 :=
  if s.head? = some (Glob.ch '"') then s.tail.dropLast else s

def skip (file : String) (tok : List Token) (s : String) : Except Failure (List Token) :=
  match tok with
  | [] => .error (.fatal (file ++ ": expected '" ++ s ++ "', but got EOF"))
  | t :: tok =>
    if t = str s then .ok tok else .error (.syntaxError t ("expected '" ++ s ++ "'"))

def readLabel (tok : List Token) (label : String) : Option (List Token) :=
  if tok.head? = some (str label ++ str ":") then some tok.tail
  else if tok.head? = some (str label) ∧ tok.tail.head? = some (str ":") then some tok.tail.tail
  else none

/-- The language of an `extern` block, which is C++ or not. -/
def readLanguage (file : String) (tok : List Token) : Except Failure (Bool × List Token) :=
  if tok.head? = some (str "\"C\"") then .ok (false, tok.tail)
  else (skip file tok "\"C++\"").map (true, ·)

/-- What `read_version_script_commands` is called with, and `current_file`. -/
structure Part where
  file : String
  verStr : Token
  verIdx : UInt16
  isCpp : Bool
  deriving DecidableEq

def Context.addName (ctx : Context) (p : Part) (isGlobal : Bool) (t : Token) : Context :=
  if t = str "*" then
    { ctx with
      defaultVersion := if isGlobal then p.verIdx else verNdxLocal
      defaultVersionFromVersionScript := true }
  else if isGlobal then
    { ctx with
      versionPatterns := ctx.versionPatterns ++ [⟨unquote t, p.file, p.verStr, p.verIdx, p.isCpp⟩] }
  else
    { ctx with
      versionPatterns :=
        ctx.versionPatterns ++ [⟨unquote t, p.file, p.verStr, verNdxLocal, p.isCpp⟩] }

/-- The loop of `read_version_script_commands`, which starts in a global part. -/
def readVersionScriptCommands (p : Part) :
    ℕ → Bool → List Token → Context → Except Failure (List Token × Context)
  | 0, _, _, _ => .error .outOfFuel
  | _ + 1, _, [], ctx => .ok ([], ctx)
  | fuel + 1, isGlobal, t :: tok, ctx =>
    if t = str "\x7d" then .ok (t :: tok, ctx)
    else
      match readLabel (t :: tok) "global" with
      | some tok => readVersionScriptCommands p fuel true tok ctx
      | none =>
        match readLabel (t :: tok) "local" with
        | some tok => readVersionScriptCommands p fuel false tok ctx
        | none =>
          if t = str "extern" then do
            let (isCpp, tok) ← readLanguage p.file tok
            let tok ← skip p.file tok "\x7b"
            let (tok, ctx) ← readVersionScriptCommands { p with isCpp } fuel true tok ctx
            let tok ← skip p.file tok "\x7d"
            let tok ← skip p.file tok ";"
            readVersionScriptCommands p fuel isGlobal tok ctx
          else if tok.head? = some (str "\x7d") then .ok (tok, ctx.addName p isGlobal t)
          else do
            let tok ← skip p.file tok ";"
            readVersionScriptCommands p fuel isGlobal tok (ctx.addName p isGlobal t)

/-- A token other than `;` behind a node is the version that it depends on. -/
def skipParent (tok : List Token) : List Token :=
  if tok ≠ [] ∧ tok.head? ≠ some (str ";") then tok.tail else tok

/-- A turn of `read_version_script` behind the name of the node. -/
def readNode (p : Part) (fuel : ℕ) (tok : List Token) (ctx : Context) :
    Except Failure (List Token × Context) := do
  let tok ← skip p.file tok "\x7b"
  let (tok, ctx) ← readVersionScriptCommands p fuel true tok ctx
  let tok ← skip p.file tok "\x7d"
  let tok ← skip p.file (skipParent tok) ";"
  .ok (tok, ctx)

def globalPart (file : String) : Part := ⟨file, str "global", verNdxGlobal, false⟩

/-- The loop of `read_version_script`. -/
def readNodes (file : String) :
    ℕ → UInt16 → List Token → Context → Except Failure (List Token × Context)
  | 0, _, _, _ => .error .outOfFuel
  | _ + 1, _, [], ctx => .ok ([], ctx)
  | fuel + 1, nextVer, t :: tok, ctx =>
    if t = str "\x7d" then .ok (t :: tok, ctx)
    else if t = str "\x7b" then do
      let (tok, ctx) ← readNode (globalPart file) fuel (t :: tok) ctx
      readNodes file fuel nextVer tok ctx
    else do
      let (tok, ctx) ← readNode ⟨file, t, nextVer, false⟩ fuel tok
        { ctx with versionDefinitions := ctx.versionDefinitions ++ [t] }
      readNodes file fuel (nextVer + 1) tok ctx

def nextVer (ctx : Context) : UInt16 :=
  UInt16.ofNat (verNdxLastReserved + ctx.versionDefinitions.length + 1)

def readVersionScript (file : String) (tok : List Token) (ctx : Context) :
    Except Failure (List Token × Context) :=
  readNodes file (tok.length + 1) (nextVer ctx) tok ctx

def parseVersionScript (file : String) (contents : List UInt8) (ctx : Context) :
    Except Failure Context := do
  let tok ← tokenize contents
  let (tok, ctx) ← readVersionScript file tok ctx
  match tok with
  | [] => .ok ctx
  | t :: _ => .error (.syntaxError t "trailing garbage token")

/-! ## Scripts -/

abbrev Name := {t : Token // t ≠ str "\x7d" ∧ t ≠ str "extern" ∧
  t ≠ str "global:" ∧ t ≠ str "local:"}

/-- The commands of a node or of an `extern` block.  The last name may stand without a
semicolon. -/
inductive Commands where
  | done
  | label (isGlobal joined : Bool) (rest : Commands)
  | block (isCpp : Bool) (inner rest : Commands)
  | name (t : Name) (rest : Commands)
  | last (t : Name)

def labelTokens (isGlobal joined : Bool) : List Token :=
  let label := str (if isGlobal then "global" else "local")
  if joined then [label ++ str ":"] else [label, str ":"]

def language (isCpp : Bool) : Token := str (if isCpp then "\"C++\"" else "\"C\"")

def Commands.tokens : Commands → List Token
  | done => []
  | label isGlobal joined rest => labelTokens isGlobal joined ++ rest.tokens
  | block isCpp inner rest =>
    str "extern" :: language isCpp :: str "\x7b" ::
      (inner.tokens ++ str "\x7d" :: str ";" :: rest.tokens)
  | name t rest => t :: str ";" :: rest.tokens
  | last t => [t.1]

structure Entry where
  token : Token
  part : Part
  isGlobal : Bool

def Entry.version (e : Entry) : UInt16 := if e.isGlobal then e.part.verIdx else verNdxLocal

def Entry.pattern (e : Entry) : VersionPattern :=
  ⟨unquote e.token, e.part.file, e.part.verStr, e.version, e.part.isCpp⟩

def Entry.isStar (e : Entry) : Bool := e.token = str "*"

def Commands.entries : Part → Bool → Commands → List Entry
  | _, _, done => []
  | p, _, label isGlobal _ rest => rest.entries p isGlobal
  | p, isGlobal, block isCpp inner rest =>
    inner.entries { p with isCpp } true ++ rest.entries p isGlobal
  | p, isGlobal, name t rest => ⟨t, p, isGlobal⟩ :: rest.entries p isGlobal
  | p, isGlobal, last t => [⟨t, p, isGlobal⟩]

/-- A node, with the name of its version unless it is anonymous, and the version that it
depends on. -/
structure Node where
  tag : Option {t : Token // t ≠ str "\x7b" ∧ t ≠ str "\x7d"}
  commands : Commands
  parent : Option {t : Token // t ≠ str ";"}

def Node.tokens (node : Node) : List Token :=
  (node.tag.map Subtype.val).toList ++ str "\x7b" :: (node.commands.tokens ++ str "\x7d" ::
    ((node.parent.map Subtype.val).toList ++ [str ";"]))

/-- The names of nodes in front of which `n` versions are defined.  The index of a version is
its position among them plus two, and wraps around at 16 bits. -/
def Node.entries (file : String) : ℕ → List Node → List Entry
  | _, [] => []
  | n, node :: nodes =>
    match node.tag with
    | none => node.commands.entries (globalPart file) true ++ entries file n nodes
    | some t =>
      node.commands.entries ⟨file, t, UInt16.ofNat (n + 2), false⟩ true ++
        entries file (n + 1) nodes

def Context.add (ctx : Context) (definitions : List Token) (entries : List Entry) : Context where
  versionDefinitions := ctx.versionDefinitions ++ definitions
  versionPatterns := ctx.versionPatterns ++ (entries.filter (!·.isStar)).map Entry.pattern
  defaultVersion :=
    ((entries.filter Entry.isStar).getLast?.map Entry.version).getD ctx.defaultVersion
  defaultVersionFromVersionScript :=
    ctx.defaultVersionFromVersionScript || entries.any Entry.isStar

def Context.addNodes (ctx : Context) (file : String) (nodes : List Node) : Context :=
  ctx.add (nodes.filterMap (·.tag.map Subtype.val))
    (Node.entries file ctx.versionDefinitions.length nodes)

variable {ctx : Context}

theorem Context.add_nil (ctx : Context) : ctx.add [] [] = ctx := by
  simp [Context.add]

theorem Context.add_add {definitions definitions' : List Token} {entries entries' : List Entry} :
    (ctx.add definitions entries).add definitions' entries' =
      ctx.add (definitions ++ definitions') (entries ++ entries') := by
  simp only [Context.add, List.filter_append, List.map_append, List.append_assoc,
    List.getLast?_append, List.any_append, Bool.or_assoc]
  cases (entries'.filter Entry.isStar).getLast? <;> rfl

theorem Context.addName_eq (p : Part) (isGlobal : Bool) (t : Token) :
    ctx.addName p isGlobal t = ctx.add [] [⟨t, p, isGlobal⟩] := by
  by_cases hstar : t = str "*"
  · simp [Context.addName, Context.add, Entry.isStar, Entry.version, hstar]
  · cases isGlobal <;>
      simp [Context.addName, Context.add, Entry.isStar, Entry.pattern, Entry.version, hstar]

theorem Context.add_definition (definition : Token) (entries : List Entry) :
    ({ ctx with versionDefinitions := ctx.versionDefinitions ++ [definition] } : Context).add
      [] entries = ctx.add [definition] entries := by
  simp [Context.add]

section Steps

variable {file label s : String} {tok rest : List Token} {isCpp : Bool}

theorem skip_cons : skip file (str s :: rest) s = .ok rest := if_pos rfl

theorem ensures_skip : Ensures (skip file tok s) fun rest => tok = str s :: rest := by
  cases tok with
  | nil => exact nofun
  | cons t tok =>
    by_cases h : t = str s
    · rw [h, skip_cons]
      rfl
    · rw [skip, if_neg h]
      exact nofun

theorem str_ne_append_colon (label : String) : str label ++ str ":" ≠ str label := by
  intro h
  exact List.cons_ne_nil _ _ (List.append_right_eq_self.mp h)

theorem readLabel_eq_some_iff : readLabel tok label = some rest ↔
    tok = (str label ++ str ":") :: rest ∨ tok = str label :: str ":" :: rest := by
  constructor
  · intro h
    rw [readLabel] at h
    split at h
    case isTrue hjoined =>
      obtain ⟨tok, rfl⟩ := List.head?_eq_some_iff.mp hjoined
      cases h
      exact .inl rfl
    case isFalse =>
      split at h
      case isTrue happart =>
        obtain ⟨tok, rfl⟩ := List.head?_eq_some_iff.mp happart.1
        obtain ⟨tok, rfl⟩ := List.head?_eq_some_iff.mp happart.2
        cases h
        exact .inr rfl
      case isFalse => cases h
  · rintro (rfl | rfl)
    · exact if_pos rfl
    · refine (if_neg ?_).trans (if_pos ⟨rfl, rfl⟩)
      exact fun h => str_ne_append_colon label (Option.some.inj h).symm

theorem readLabel_eq_none_iff : readLabel tok label = none ↔
    tok.head? ≠ some (str label ++ str ":") ∧
      (tok.head? = some (str label) → tok.tail.head? ≠ some (str ":")) := by
  rw [readLabel]
  split
  case isTrue hjoined => simp [hjoined]
  case isFalse hjoined =>
    rw [ite_eq_right_iff]
    simp [hjoined]

theorem readLanguage_cons : readLanguage file (language isCpp :: rest) = .ok (isCpp, rest) := by
  cases isCpp with
  | false => exact if_pos rfl
  | true =>
    have hne : str "\"C++\"" ≠ str "\"C\"" := by decide
    refine (if_neg fun h => hne (Option.some.inj h)).trans ?_
    exact congrArg (Except.map (true, ·)) skip_cons

theorem ensures_readLanguage :
    Ensures (readLanguage file tok) fun r => tok = language r.1 :: r.2 := by
  rw [readLanguage]
  split
  case isTrue hc =>
    obtain ⟨tok, rfl⟩ := List.head?_eq_some_iff.mp hc
    rfl
  case isFalse =>
    refine Ensures.bind (f := fun tok => .ok (true, tok)) ensures_skip ?_
    rintro rest rfl
    rfl

end Steps

section Commands

variable {p : Part} {isGlobal : Bool} {t : Token} {tok rest : List Token} {fuel : ℕ}

theorem readLabel_labelTokens (isGlobal joined : Bool) (tok : List Token) :
    readLabel (labelTokens isGlobal joined ++ tok) (if isGlobal then "global" else "local") =
      some tok := by
  refine readLabel_eq_some_iff.mpr ?_
  cases joined with
  | true => exact .inl rfl
  | false => exact .inr rfl

theorem exists_labelTokens (isGlobal : Bool)
    (h : readLabel tok (if isGlobal then "global" else "local") = some rest) :
    ∃ joined, tok = labelTokens isGlobal joined ++ rest := by
  rcases readLabel_eq_some_iff.mp h with htok | htok
  · exact ⟨true, htok⟩
  · exact ⟨false, htok⟩

theorem readLabel_eq_none_of_ne {label : String}
    (h : t ≠ str label ++ str ":" ∧ t ≠ str label) : readLabel (t :: tok) label = none :=
  readLabel_eq_none_iff.mpr
    ⟨fun ht => h.1 (Option.some.inj ht), fun ht => absurd (Option.some.inj ht) h.2⟩

theorem read_close (ctx : Context) : readVersionScriptCommands p (fuel + 1) isGlobal
    (str "\x7d" :: tok) ctx = .ok (str "\x7d" :: tok, ctx) :=
  if_pos rfl

theorem read_label (newGlobal joined : Bool) (ctx : Context) :
    readVersionScriptCommands p (fuel + 1) isGlobal (labelTokens newGlobal joined ++ tok) ctx =
      readVersionScriptCommands p fuel newGlobal tok ctx := by
  have hread := readLabel_labelTokens newGlobal joined tok
  obtain ⟨t, tok', htok, hne, hother⟩ : ∃ t tok', labelTokens newGlobal joined ++ tok = t :: tok' ∧
      t ≠ str "\x7d" ∧ (newGlobal = false → t ≠ str "global" ++ str ":" ∧ t ≠ str "global") := by
    cases newGlobal <;> cases joined <;> exact ⟨_, _, rfl, by decide, by decide⟩
  rw [htok] at hread ⊢
  rw [readVersionScriptCommands, if_neg hne]
  cases newGlobal with
  | true => rw [show readLabel (t :: tok') "global" = _ from hread]
  | false =>
    rw [readLabel_eq_none_of_ne (hother rfl), show readLabel (t :: tok') "local" = _ from hread]

theorem read_other (ctx : Context) (hclose : t ≠ str "\x7d")
    (hglobal : readLabel (t :: tok) "global" = none)
    (hlocal : readLabel (t :: tok) "local" = none) :
    readVersionScriptCommands p (fuel + 1) isGlobal (t :: tok) ctx =
      if t = str "extern" then (do
        let (isCpp, tok) ← readLanguage p.file tok
        let tok ← skip p.file tok "\x7b"
        let (tok, ctx) ← readVersionScriptCommands { p with isCpp } fuel true tok ctx
        let tok ← skip p.file tok "\x7d"
        let tok ← skip p.file tok ";"
        readVersionScriptCommands p fuel isGlobal tok ctx)
      else if tok.head? = some (str "\x7d") then .ok (tok, ctx.add [] [⟨t, p, isGlobal⟩])
      else (do
        let tok ← skip p.file tok ";"
        readVersionScriptCommands p fuel isGlobal tok (ctx.add [] [⟨t, p, isGlobal⟩])) := by
  rw [readVersionScriptCommands, if_neg hclose, hglobal, hlocal, Context.addName_eq]

theorem read_name (t : Name) (tok : List Token) (ctx : Context)
    (htok : tok.head? ≠ some (str ":")) :
    readVersionScriptCommands p (fuel + 1) isGlobal (t :: tok) ctx =
      if tok.head? = some (str "\x7d") then .ok (tok, ctx.add [] [⟨t, p, isGlobal⟩])
      else (do
        let tok ← skip p.file tok ";"
        readVersionScriptCommands p fuel isGlobal tok (ctx.add [] [⟨t, p, isGlobal⟩])) := by
  obtain ⟨t, hclose, hext, hglobal, hlocal⟩ := t
  rw [read_other ctx hclose, if_neg hext]
  · exact readLabel_eq_none_iff.mpr ⟨fun h => hglobal (Option.some.inj h), fun _ => htok⟩
  · exact readLabel_eq_none_iff.mpr ⟨fun h => hlocal (Option.some.inj h), fun _ => htok⟩

theorem reads_commands (commands : Commands) (p : Part) (fuel : ℕ) (isGlobal : Bool)
    (rest : List Token) (ctx : Context) :
    Reads (readVersionScriptCommands p fuel isGlobal (commands.tokens ++ str "\x7d" :: rest) ctx)
      (str "\x7d" :: rest, ctx.add [] (commands.entries p isGlobal)) := by
  induction commands generalizing p fuel isGlobal rest ctx with
  | done =>
    rw [Commands.entries, Context.add_nil]
    obtain _ | fuel := fuel
    · exact .inl rfl
    exact .inr (read_close ctx)
  | label newGlobal joined commands ih =>
    obtain _ | fuel := fuel
    · exact .inl rfl
    rw [Commands.tokens, List.append_assoc, read_label]
    exact ih p fuel newGlobal rest ctx
  | block isCpp inner commands ihInner ih =>
    obtain _ | fuel := fuel
    · exact .inl rfl
    have hext : ∀ label, label = "global" ∨ label = "local" →
        str "extern" ≠ str label ++ str ":" ∧ str "extern" ≠ str label := by
      rintro label (rfl | rfl) <;> decide
    have hrest := ih p fuel isGlobal rest (ctx.add [] (inner.entries { p with isCpp } true))
    rw [Context.add_add] at hrest
    rw [Commands.tokens, List.cons_append, List.cons_append, List.cons_append,
      List.append_assoc, read_other ctx (by decide) (readLabel_eq_none_of_ne (hext _ (.inl rfl)))
        (readLabel_eq_none_of_ne (hext _ (.inr rfl))), if_pos rfl]
    refine .ok_bind readLanguage_cons ?_
    refine .ok_bind skip_cons ?_
    refine (ihInner _ fuel true _ ctx).bind ?_
    refine .ok_bind skip_cons ?_
    exact .ok_bind skip_cons hrest
  | name t commands ih =>
    obtain _ | fuel := fuel
    · exact .inl rfl
    have hcolon : str ";" ≠ str ":" := by decide
    have hclose : str ";" ≠ str "\x7d" := by decide
    have hrest := ih p fuel isGlobal rest (ctx.add [] [⟨t, p, isGlobal⟩])
    rw [Context.add_add] at hrest
    rw [Commands.tokens, List.cons_append, List.cons_append,
      read_name t (str ";" :: _) ctx fun h => hcolon (Option.some.inj h)]
    refine (if_neg fun h => hclose (Option.some.inj h)) ▸ ?_
    exact .ok_bind skip_cons hrest
  | last t =>
    obtain _ | fuel := fuel
    · exact .inl rfl
    have hcolon : str "\x7d" ≠ str ":" := by decide
    rw [Commands.tokens, List.singleton_append,
      read_name t (str "\x7d" :: rest) ctx fun h => hcolon (Option.some.inj h)]
    exact .inr (if_pos rfl)

def AtEnd (tok : List Token) : Prop := ∀ t ∈ tok.head?, t = str "\x7d"

theorem ensures_commands (ctx : Context) (hfuel : tok.length < fuel) :
    Ensures (readVersionScriptCommands p fuel isGlobal tok ctx) fun r =>
      ∃ commands : Commands, tok = commands.tokens ++ r.1 ∧ AtEnd r.1 ∧
        r.2 = ctx.add [] (commands.entries p isGlobal) := by
  induction fuel generalizing p isGlobal tok ctx with
  | zero => exact absurd hfuel (Nat.not_lt_zero _)
  | succ fuel ih =>
    match tok with
    | [] => exact ⟨.done, rfl, nofun, ctx.add_nil.symm⟩
    | t :: tok =>
      by_cases hclose : t = str "\x7d"
      · rw [hclose, read_close]
        exact ⟨.done, rfl, fun t ht => (Option.some.inj ht).symm, ctx.add_nil.symm⟩
      have hlabel : ∀ (newGlobal : Bool) (tok' : List Token),
          readLabel (t :: tok) (if newGlobal then "global" else "local") = some tok' →
          Ensures (readVersionScriptCommands p (fuel + 1) isGlobal (t :: tok) ctx) fun r =>
            ∃ commands : Commands, t :: tok = commands.tokens ++ r.1 ∧ AtEnd r.1 ∧
              r.2 = ctx.add [] (commands.entries p isGlobal) := by
        intro newGlobal tok' hread
        obtain ⟨joined, htok⟩ := exists_labelTokens newGlobal hread
        have hpos : 0 < (labelTokens newGlobal joined).length := by
          cases joined <;> exact Nat.succ_pos _
        rw [htok, List.length_append] at hfuel
        rw [htok, read_label]
        refine (ih ctx (by omega)).mono ?_
        rintro ⟨rest, ctx'⟩ ⟨commands, rfl, hend, rfl⟩
        refine ⟨.label newGlobal joined commands, ?_, hend, rfl⟩
        rw [Commands.tokens, List.append_assoc]
      cases hglobal : readLabel (t :: tok) "global" with
      | some tok' => exact hlabel true tok' hglobal
      | none =>
      cases hlocal : readLabel (t :: tok) "local" with
      | some tok' => exact hlabel false tok' hlocal
      | none =>
      rw [read_other ctx hclose hglobal hlocal]
      rw [List.length_cons] at hfuel
      split
      case isTrue hext =>
        refine ensures_readLanguage.bind ?_
        rintro ⟨isCpp, tok₁⟩ rfl
        refine ensures_skip.bind ?_
        rintro tok₂ rfl
        simp only [List.length_cons] at hfuel
        refine (ih ctx (by omega)).bind ?_
        rintro ⟨tok₃, ctx₁⟩ ⟨inner, rfl, -, rfl⟩
        refine ensures_skip.bind ?_
        rintro tok₄ rfl
        refine ensures_skip.bind ?_
        rintro tok₅ rfl
        simp only [List.length_append, List.length_cons] at hfuel
        refine (ih _ (by omega)).mono ?_
        rintro ⟨rest, ctx'⟩ ⟨commands, rfl, hend, rfl⟩
        refine ⟨.block isCpp inner commands, ?_, hend, Context.add_add⟩
        simp [Commands.tokens, hext]
      case isFalse hext =>
        -- No label begins with a name.
        have hname : t ≠ str "\x7d" ∧ t ≠ str "extern" ∧ t ≠ str "global:" ∧ t ≠ str "local:" :=
          ⟨hclose, hext, fun h => (readLabel_eq_none_iff.mp hglobal).1 (congrArg some h),
            fun h => (readLabel_eq_none_iff.mp hlocal).1 (congrArg some h)⟩
        split
        case isTrue hbrace =>
          exact ⟨.last ⟨t, hname⟩, rfl, fun u hu => Option.some.inj (hu.symm.trans hbrace), rfl⟩
        case isFalse =>
          refine ensures_skip.bind ?_
          rintro tok₁ rfl
          rw [List.length_cons] at hfuel
          refine (ih _ (by omega)).mono ?_
          rintro ⟨rest, ctx'⟩ ⟨commands, rfl, hend, rfl⟩
          exact ⟨.name ⟨t, hname⟩ commands, rfl, hend, Context.add_add⟩

end Commands

section Nodes

variable {file : String} {p : Part} {tok rest : List Token} {fuel : ℕ}

theorem reads_node (p : Part) (fuel : ℕ) (ctx : Context) (rest : List Token) (commands : Commands)
    (parent : Option {t : Token // t ≠ str ";"}) :
    Reads (readNode p fuel (str "\x7b" :: (commands.tokens ++ str "\x7d" ::
        ((parent.map Subtype.val).toList ++ str ";" :: rest))) ctx)
      (rest, ctx.add [] (commands.entries p true)) := by
  have hparent : skipParent ((parent.map Subtype.val).toList ++ str ";" :: rest) =
      str ";" :: rest := by
    cases parent with
    | none => exact if_neg fun h => h.2 rfl
    | some t => exact if_pos ⟨List.cons_ne_nil _ _, fun h => t.2 (Option.some.inj h)⟩
  refine .ok_bind skip_cons ?_
  refine (reads_commands commands p fuel true _ ctx).bind ?_
  refine .ok_bind skip_cons ?_
  rw [hparent]
  exact .ok_bind skip_cons (.inr rfl)

theorem ensures_node (ctx : Context) (hfuel : tok.length ≤ fuel) :
    Ensures (readNode p fuel tok ctx) fun r =>
      ∃ (commands : Commands) (parent : Option {t : Token // t ≠ str ";"}),
        tok = str "\x7b" :: (commands.tokens ++ str "\x7d" ::
          ((parent.map Subtype.val).toList ++ str ";" :: r.1)) ∧
        r.2 = ctx.add [] (commands.entries p true) := by
  refine ensures_skip.bind ?_
  rintro tok₁ rfl
  refine (ensures_commands ctx hfuel).bind ?_
  rintro ⟨tok₂, ctx₁⟩ ⟨commands, rfl, -, rfl⟩
  refine ensures_skip.bind ?_
  rintro tok₃ rfl
  refine ensures_skip.bind ?_
  intro tok₄ hparent
  rw [skipParent] at hparent
  split at hparent
  case isTrue hother =>
    obtain ⟨t, tok₅, rfl⟩ := List.exists_cons_of_ne_nil hother.1
    have hne : t ≠ str ";" := fun h => hother.2 (congrArg some h)
    exact ⟨commands, some ⟨t, hne⟩, by rw [← hparent]; rfl, rfl⟩
  case isFalse => exact ⟨commands, none, by rw [hparent]; rfl, rfl⟩

theorem nextVer_eq (ctx : Context) :
    nextVer ctx = UInt16.ofNat (ctx.versionDefinitions.length + 2) := by
  rw [nextVer, verNdxLastReserved, Nat.add_comm 1, Nat.add_assoc]

theorem nextVer_anonymous (ctx : Context) (entries : List Entry) :
    nextVer (ctx.add [] entries) = nextVer ctx := by
  rw [nextVer, Context.add, List.append_nil]
  rfl

theorem nextVer_named (ctx : Context) (t : Token) (entries : List Entry) :
    nextVer (ctx.add [t] entries) = nextVer ctx + 1 := by
  rw [nextVer_eq, nextVer_eq, Context.add, List.length_append, List.length_singleton,
    Nat.add_right_comm, UInt16.ofNat_add _ 1]
  rfl

theorem Context.addNodes_anonymous {node : Node} (htag : node.tag = none) (ctx : Context)
    (nodes : List Node) : ctx.addNodes file (node :: nodes) =
      (ctx.add [] (node.commands.entries (globalPart file) true)).addNodes file nodes := by
  rw [addNodes, addNodes, Context.add_add, Node.entries, htag,
    List.filterMap_cons_none (by rw [htag]; rfl)]
  simp [Context.add]

theorem Context.addNodes_named {node : Node} {t : {t : Token // t ≠ str "\x7b" ∧ t ≠ str "\x7d"}}
    (htag : node.tag = some t) (ctx : Context) (nodes : List Node) :
    ctx.addNodes file (node :: nodes) =
      (ctx.add [t.1] (node.commands.entries ⟨file, t, nextVer ctx, false⟩ true)).addNodes
        file nodes := by
  rw [addNodes, addNodes, Context.add_add, Node.entries, htag,
    List.filterMap_cons_some (by rw [htag]; rfl), nextVer_eq]
  simp [Context.add]

theorem Node.tokens_append (node : Node) (rest : List Token) :
    node.tokens ++ rest = (node.tag.map Subtype.val).toList ++ str "\x7b" ::
      (node.commands.tokens ++ str "\x7d" ::
        ((node.parent.map Subtype.val).toList ++ str ";" :: rest)) := by
  simp [Node.tokens]

theorem readNodes_anonymous (nextVer : UInt16) (ctx : Context) :
    readNodes file (fuel + 1) nextVer (str "\x7b" :: tok) ctx = (do
      let (tok, ctx) ← readNode (globalPart file) fuel (str "\x7b" :: tok) ctx
      readNodes file fuel nextVer tok ctx) := by
  have hclose : str "\x7b" ≠ str "\x7d" := by decide
  rw [readNodes, if_neg hclose, if_pos rfl]

theorem readNodes_named (t : {t : Token // t ≠ str "\x7b" ∧ t ≠ str "\x7d"}) (nextVer : UInt16)
    (ctx : Context) :
    readNodes file (fuel + 1) nextVer (t.1 :: tok) ctx = (do
      let (tok, ctx) ← readNode ⟨file, t.1, nextVer, false⟩ fuel tok
        { ctx with versionDefinitions := ctx.versionDefinitions ++ [t.1] }
      readNodes file fuel (nextVer + 1) tok ctx) := by
  rw [readNodes, if_neg t.2.2, if_neg t.2.1]

theorem reads_nodes (file : String) (nodes : List Node) (fuel : ℕ) (ctx : Context)
    (hrest : AtEnd rest) :
    Reads (readNodes file fuel (nextVer ctx) (nodes.flatMap Node.tokens ++ rest) ctx)
      (rest, ctx.addNodes file nodes) := by
  induction nodes generalizing fuel ctx with
  | nil =>
    have hnil : ctx.addNodes file [] = ctx := Context.add_nil ctx
    rw [List.flatMap_nil, List.nil_append, hnil]
    match fuel, rest with
    | 0, _ => exact .inl rfl
    | _ + 1, [] => exact .inr rfl
    | _ + 1, t :: rest => exact .inr (if_pos (hrest t rfl))
  | cons node nodes ih =>
    obtain _ | fuel := fuel
    · exact .inl rfl
    rw [List.flatMap_cons, List.append_assoc, Node.tokens_append]
    cases htag : node.tag with
    | none =>
      have hnext := ih fuel (ctx.add [] (node.commands.entries (globalPart file) true))
      rw [nextVer_anonymous, ← Context.addNodes_anonymous htag] at hnext
      rw [Option.map_none, Option.toList_none, List.nil_append, readNodes_anonymous]
      exact (reads_node _ fuel ctx _ node.commands node.parent).bind hnext
    | some t =>
      have hnode := reads_node ⟨file, t.1, nextVer ctx, false⟩ fuel
        { ctx with versionDefinitions := ctx.versionDefinitions ++ [t.1] }
        (nodes.flatMap Node.tokens ++ rest) node.commands node.parent
      have hnext := ih fuel
        (ctx.add [t.1] (node.commands.entries ⟨file, t, nextVer ctx, false⟩ true))
      rw [nextVer_named, ← Context.addNodes_named htag] at hnext
      rw [Context.add_definition] at hnode
      rw [Option.map_some, Option.toList_some, List.singleton_append, readNodes_named]
      exact hnode.bind hnext

theorem ensures_nodes (ctx : Context) (hfuel : tok.length < fuel) :
    Ensures (readNodes file fuel (nextVer ctx) tok ctx) fun r =>
      ∃ nodes : List Node, tok = nodes.flatMap Node.tokens ++ r.1 ∧ AtEnd r.1 ∧
        r.2 = ctx.addNodes file nodes := by
  induction fuel generalizing tok ctx with
  | zero => exact absurd hfuel (Nat.not_lt_zero _)
  | succ fuel ih =>
    match tok with
    | [] => exact ⟨[], rfl, nofun, ctx.add_nil.symm⟩
    | t :: tok =>
      by_cases hclose : t = str "\x7d"
      · rw [readNodes, if_pos hclose]
        exact ⟨[], rfl, fun u hu => (Option.some.inj hu).symm.trans hclose, ctx.add_nil.symm⟩
      by_cases hopen : t = str "\x7b"
      · subst hopen
        rw [readNodes_anonymous]
        refine (ensures_node ctx (Nat.le_of_lt_succ hfuel)).bind ?_
        rintro ⟨tok₁, ctx₁⟩ ⟨commands, parent, htok, rfl⟩
        obtain rfl := (List.cons.inj htok).2
        simp only [List.length_append, List.length_cons] at hfuel
        rw [← nextVer_anonymous ctx (commands.entries (globalPart file) true)]
        refine (ih _ (by omega)).mono ?_
        rintro ⟨rest, ctx'⟩ ⟨nodes, rfl, hend, rfl⟩
        refine ⟨⟨none, commands, parent⟩ :: nodes, ?_, hend, ?_⟩
        · rw [List.flatMap_cons, List.append_assoc, Node.tokens_append]
          rfl
        · rw [Context.addNodes_anonymous rfl]
      · rw [readNodes_named ⟨t, hopen, hclose⟩]
        rw [List.length_cons] at hfuel
        refine (ensures_node _ (by omega)).bind ?_
        rintro ⟨tok₁, ctx₁⟩ ⟨commands, parent, rfl, rfl⟩
        simp only [List.length_append, List.length_cons] at hfuel
        dsimp only
        rw [Context.add_definition,
          ← nextVer_named ctx t (commands.entries ⟨file, t, nextVer ctx, false⟩ true)]
        refine (ih _ (by omega)).mono ?_
        rintro ⟨rest, ctx'⟩ ⟨nodes, rfl, hend, rfl⟩
        refine ⟨⟨some ⟨t, hopen, hclose⟩, commands, parent⟩ :: nodes, ?_, hend, ?_⟩
        · rw [List.flatMap_cons, List.append_assoc, Node.tokens_append]
          rfl
        · rw [Context.addNodes_named rfl]

/-- A version script is accepted just if its text is one of the tokens of some nodes, and then
it adds the names of the nodes.  Otherwise it is refused with an error. -/
theorem parseVersionScript_eq_ok_iff (file : String) (contents : List UInt8) (ctx : Context) :
    parseVersionScript file contents ctx ≠ .error .outOfFuel ∧
      ∀ ctx', parseVersionScript file contents ctx = .ok ctx' ↔
        ∃ nodes : List Node, Renders (nodes.flatMap Node.tokens) contents ∧
          ctx' = ctx.addNodes file nodes := by
  have hparse : Ensures (parseVersionScript file contents ctx) fun ctx' =>
      ∃ nodes : List Node, Renders (nodes.flatMap Node.tokens) contents ∧
        ctx' = ctx.addNodes file nodes := by
    refine ensures_tokenize.bind fun tok htok => ?_
    refine (ensures_nodes ctx (Nat.lt_succ_self tok.length)).bind ?_
    rintro ⟨rest, ctx'⟩ ⟨nodes, rfl, -, rfl⟩
    cases rest with
    | nil => exact ⟨nodes, by rwa [List.append_nil] at htok, rfl⟩
    | cons t rest => exact nofun
  constructor
  · intro h
    rw [h] at hparse
    exact hparse rfl
  intro ctx'
  constructor
  · intro h
    rwa [h] at hparse
  · rintro ⟨nodes, hcontents, rfl⟩
    have hatEnd : AtEnd [] := nofun
    have hreads := reads_nodes file nodes (nodes.flatMap Node.tokens ++ []).length.succ ctx hatEnd
    rw [List.append_nil] at hreads
    exact hparse.eq_ok (.ok_bind (tokenize_of_renders hcontents) (hreads.bind (.inr rfl)))

end Nodes

end Mold.Elf.Script
