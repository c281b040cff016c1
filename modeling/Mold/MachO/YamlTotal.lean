import Mold.MachO.YamlTokens

/-!
# Where the YAML parser returns

The functions of the descent read the next token without a check that there is one.  Where
the tokens stop in the middle of a document, what they read is not part of the list.  `Open`
says when that is so, by the places of the grammar that are yet to be filled.

The main theorem says for which inputs the parser returns: the tokenizer must end, and the
tokens must not stop in the middle of a document.
-/

namespace Mold.MachO.Yaml

open Mold.Lib

/-! ## Documents that are cut off -/

inductive Place where
  | element
  | blockEnd
  | items
  | pairs
  | flowElement
  | flowItems
  | flowRest
  | documentEnd
  | documents
  deriving DecidableEq

def StartsMap (t : Token) (tok : List Token) : Prop :=
  (∃ str, t.kind = .string str) ∧ 2 ≤ tok.length ∧ tok.head?.map Token.kind = some .colon

/-- The tokens fill the places in their order as far as they go, and there are none left
where one of the places needs another. -/
inductive CutOff : List Place → List Token → Prop where
  | cut {place : Place} {st : List Place} (h : place ≠ .documents ∧ place ≠ .blockEnd) :
      CutOff (place :: st) []
  | block {st : List Place} {t : Token} {tok : List Token} (ht : t.kind = .indent)
      (h : CutOff (.element :: .blockEnd :: st) tok) : CutOff (.element :: st) (t :: tok)
  | list {st : List Place} {t : Token} {tok : List Token} (ht : t.kind = .dash)
      (h : CutOff (.items :: st) (t :: tok)) : CutOff (.element :: st) (t :: tok)
  | map {st : List Place} {t : Token} {tok : List Token} (ht : StartsMap t tok)
      (h : CutOff (.pairs :: st) (t :: tok)) : CutOff (.element :: st) (t :: tok)
  | flow {st : List Place} {t : Token} {tok : List Token}
      (ht : t.kind ≠ .indent ∧ t.kind ≠ .dash ∧ ¬ StartsMap t tok)
      (h : CutOff (.flowElement :: st) (t :: tok)) : CutOff (.element :: st) (t :: tok)
  -- Any token ends a block.
  | blockEnd {st : List Place} {tok : List Token} (h : CutOff st tok.tail) :
      CutOff (.blockEnd :: st) tok
  | itemsEnd {st : List Place} {t : Token} {tok : List Token}
      (ht : t.kind = .endMarker ∨ t.kind = .dedent) (h : CutOff st (t :: tok)) :
      CutOff (.items :: st) (t :: tok)
  | item {st : List Place} {t : Token} {tok : List Token} (ht : t.kind = .dash)
      (h : CutOff (.element :: .items :: st) tok) : CutOff (.items :: st) (t :: tok)
  | pairsEnd {st : List Place} {t : Token} {tok : List Token}
      (ht : t.kind = .endMarker ∨ t.kind = .dedent) (h : CutOff st (t :: tok)) :
      CutOff (.pairs :: st) (t :: tok)
  | pair {st : List Place} {t c : Token} {tok : List Token} {key : List Byte}
      (ht : t.kind = .string key) (hc : c.kind = .colon)
      (h : CutOff (.element :: .pairs :: st) tok) : CutOff (.pairs :: st) (t :: c :: tok)
  | scalar {st : List Place} {t : Token} {tok : List Token} {val : List Byte}
      (ht : t.kind = .string val) (h : CutOff st tok) : CutOff (.flowElement :: st) (t :: tok)
  | flowList {st : List Place} {t : Token} {tok : List Token} (ht : t.kind = .lbracket)
      (h : CutOff (.flowItems :: st) tok) : CutOff (.flowElement :: st) (t :: tok)
  | flowItemsEnd {st : List Place} {t : Token} {tok : List Token} (ht : t.kind = .rbracket)
      (h : CutOff st tok) : CutOff (.flowItems :: st) (t :: tok)
  | flowItem {st : List Place} {t : Token} {tok : List Token}
      (ht : t.kind ≠ .rbracket ∧ t.kind ≠ .endMarker)
      (h : CutOff (.flowElement :: .flowRest :: st) (t :: tok)) :
      CutOff (.flowItems :: st) (t :: tok)
  | flowRestEnd {st : List Place} {t : Token} {tok : List Token} (ht : t.kind = .rbracket)
      (h : CutOff st tok) : CutOff (.flowRest :: st) (t :: tok)
  | comma {st : List Place} {t : Token} {tok : List Token} (ht : t.kind = .comma)
      (h : CutOff (.flowItems :: st) tok) : CutOff (.flowRest :: st) (t :: tok)
  | documentEnd {st : List Place} {t : Token} {tok : List Token} (ht : t.kind = .endMarker)
      (h : CutOff st (t :: tok)) : CutOff (.documentEnd :: st) (t :: tok)
  | marker {t : Token} {tok : List Token} (ht : t.kind = .endMarker)
      (h : CutOff [.documents] tok) : CutOff [.documents] (t :: tok)
  | document {t : Token} {tok : List Token} (ht : t.kind ≠ .endMarker)
      (h : CutOff [.element, .documentEnd, .documents] (t :: tok)) :
      CutOff [.documents] (t :: tok)

variable {α β : Type*} {P Q : Prop} {p : Parsed α} {t c : Token} {tok rest : List Token}
  {fuel : ℕ} {st : List Place} {input : List Byte} {r : Result}

theorem cutOff_element_cons :
    CutOff (.element :: st) (t :: tok) ↔
      (t.kind = .indent ∧ CutOff (.element :: .blockEnd :: st) tok) ∨
      (t.kind = .dash ∧ CutOff (.items :: st) (t :: tok)) ∨
      (StartsMap t tok ∧ CutOff (.pairs :: st) (t :: tok)) ∨
      ((t.kind ≠ .indent ∧ t.kind ≠ .dash ∧ ¬ StartsMap t tok) ∧
        CutOff (.flowElement :: st) (t :: tok)) := by
  constructor
  · intro h
    cases h with
    | block ht h => exact .inl ⟨ht, h⟩
    | list ht h => exact .inr (.inl ⟨ht, h⟩)
    | map ht h => exact .inr (.inr (.inl ⟨ht, h⟩))
    | flow ht h => exact .inr (.inr (.inr ⟨ht, h⟩))
  · rintro (⟨ht, h⟩ | ⟨ht, h⟩ | ⟨ht, h⟩ | ⟨ht, h⟩)
    exacts [.block ht h, .list ht h, .map ht h, .flow ht h]

theorem cutOff_blockEnd : CutOff (.blockEnd :: st) tok ↔ CutOff st tok.tail := by
  refine ⟨fun h => ?_, .blockEnd⟩
  cases h with
  | cut h => exact absurd rfl h.2
  | blockEnd h => exact h

theorem cutOff_items_cons :
    CutOff (.items :: st) (t :: tok) ↔
      ((t.kind = .endMarker ∨ t.kind = .dedent) ∧ CutOff st (t :: tok)) ∨
      (t.kind = .dash ∧ CutOff (.element :: .items :: st) tok) := by
  constructor
  · intro h
    cases h with
    | itemsEnd ht h => exact .inl ⟨ht, h⟩
    | item ht h => exact .inr ⟨ht, h⟩
  · rintro (⟨ht, h⟩ | ⟨ht, h⟩)
    exacts [.itemsEnd ht h, .item ht h]

theorem cutOff_pairs_cons :
    CutOff (.pairs :: st) (t :: tok) ↔
      ((t.kind = .endMarker ∨ t.kind = .dedent) ∧ CutOff st (t :: tok)) ∨
      ∃ key c rest, t.kind = .string key ∧ tok = c :: rest ∧ c.kind = .colon ∧
        CutOff (.element :: .pairs :: st) rest := by
  constructor
  · intro h
    cases h with
    | pairsEnd ht h => exact .inl ⟨ht, h⟩
    | pair ht hc h => exact .inr ⟨_, _, _, ht, rfl, hc, h⟩
  · rintro (⟨ht, h⟩ | ⟨key, c, rest, ht, rfl, hc, h⟩)
    exacts [.pairsEnd ht h, .pair ht hc h]

theorem cutOff_flowElement_cons :
    CutOff (.flowElement :: st) (t :: tok) ↔ (∃ val, t.kind = .string val ∧ CutOff st tok) ∨
      (t.kind = .lbracket ∧ CutOff (.flowItems :: st) tok) := by
  constructor
  · intro h
    cases h with
    | scalar ht h => exact .inl ⟨_, ht, h⟩
    | flowList ht h => exact .inr ⟨ht, h⟩
  · rintro (⟨val, ht, h⟩ | ⟨ht, h⟩)
    exacts [.scalar ht h, .flowList ht h]

theorem cutOff_flowItems_cons :
    CutOff (.flowItems :: st) (t :: tok) ↔ (t.kind = .rbracket ∧ CutOff st tok) ∨
      ((t.kind ≠ .rbracket ∧ t.kind ≠ .endMarker) ∧
        CutOff (.flowElement :: .flowRest :: st) (t :: tok)) := by
  constructor
  · intro h
    cases h with
    | flowItemsEnd ht h => exact .inl ⟨ht, h⟩
    | flowItem ht h => exact .inr ⟨ht, h⟩
  · rintro (⟨ht, h⟩ | ⟨ht, h⟩)
    exacts [.flowItemsEnd ht h, .flowItem ht h]

theorem cutOff_flowRest_cons :
    CutOff (.flowRest :: st) (t :: tok) ↔ (t.kind = .rbracket ∧ CutOff st tok) ∨
      (t.kind = .comma ∧ CutOff (.flowItems :: st) tok) := by
  constructor
  · intro h
    cases h with
    | flowRestEnd ht h => exact .inl ⟨ht, h⟩
    | comma ht h => exact .inr ⟨ht, h⟩
  · rintro (⟨ht, h⟩ | ⟨ht, h⟩)
    exacts [.flowRestEnd ht h, .comma ht h]

theorem cutOff_documentEnd_cons :
    CutOff (.documentEnd :: st) (t :: tok) ↔ t.kind = .endMarker ∧ CutOff st (t :: tok) := by
  refine ⟨fun h => ?_, fun h => .documentEnd h.1 h.2⟩
  cases h with
  | documentEnd ht h => exact ⟨ht, h⟩

theorem not_cutOff_of_no_place : ¬ CutOff [] tok := by
  intro h
  cases h

theorem not_cutOff_documents_nil : ¬ CutOff [.documents] [] := by
  intro h
  cases h with
  | cut h => exact h.1 rfl

theorem cutOff_documents_cons :
    CutOff [.documents] (t :: tok) ↔ (t.kind = .endMarker ∧ CutOff [.documents] tok) ∨
      (t.kind ≠ .endMarker ∧ CutOff [.element, .documentEnd, .documents] (t :: tok)) := by
  constructor
  · intro h
    cases h with
    | marker ht h => exact .inl ⟨ht, h⟩
    | document ht h => exact .inr ⟨ht, h⟩
  · rintro (⟨ht, h⟩ | ⟨ht, h⟩)
    exacts [.marker ht h, .document ht h]

/-! ## The descent and the grammar -/

/-- What the descent does with tokens that are cut off or not, as `P` says: it reads on where
there are none if and only if they are, and leaves the rest of the places to the rest of the
tokens. -/
def Follows (st : List Place) (P : Prop) : Parsed α → Prop
  | .outOfFuel => True
  | .past => P
  | .error _ => ¬ P
  | .ok _ tok => (P ↔ CutOff st tok)

theorem Follows.congr (h : P ↔ Q) (hp : Follows st Q p) : Follows st P p := by
  rwa [propext h]

theorem Follows.andThen {st' : List Place} {f : α → List Token → Parsed β}
    (hp : Follows st' P p) (hf : ∀ a tok, Follows st (CutOff st' tok) (f a tok)) :
    Follows st P (p.andThen f) := by
  cases p with
  | outOfFuel => exact trivial
  | past => exact hp
  | error err => exact hp
  | ok a tok => exact (hf a tok).congr hp

theorem follows_flowElement_succ
    (hlist : ∀ st tok, Follows st (CutOff (.flowItems :: st) tok) (parseFlowList fuel tok))
    (st : List Place) (tok : List Token) :
    Follows st (CutOff (.flowElement :: st) tok) (parseFlowElement (fuel + 1) tok) := by
  cases tok with
  | nil => exact CutOff.cut (by decide)
  | cons t tok =>
    rw [parseFlowElement]
    split
    case h_1 hk => exact (hlist st tok).congr (by simp [cutOff_flowElement_cons, hk])
    case h_2 val hk => simp [Follows, cutOff_flowElement_cons, hk]
    case h_3 hlbracket hstring =>
      rw [Follows, cutOff_flowElement_cons]
      rintro (⟨val, hk, -⟩ | ⟨hk, -⟩)
      exacts [hstring val hk, hlbracket hk]

theorem follows_flowItems_succ
    (helement : ∀ st tok, Follows st (CutOff (.flowElement :: st) tok) (parseFlowElement fuel tok))
    (hitems : ∀ st start vec tok,
      Follows st (CutOff (.flowItems :: st) tok) (parseFlowItems fuel start vec tok))
    (st : List Place) (start : ℕ) (vec : List YamlNode) (tok : List Token) :
    Follows st (CutOff (.flowItems :: st) tok) (parseFlowItems (fuel + 1) start vec tok) := by
  cases tok with
  | nil => exact CutOff.cut (by decide)
  | cons t tok =>
    rw [parseFlowItems]
    split
    case h_1 hk => simp [Follows, cutOff_flowItems_cons, hk]
    case h_2 hk => simp [Follows, cutOff_flowItems_cons, hk]
    case h_3 hrbracket hmarker =>
      refine Follows.congr (cutOff_flowItems_cons.trans ?_)
        ((helement (.flowRest :: st) (t :: tok)).andThen fun elem tok => ?_)
      · simp [show t.kind ≠ .rbracket from hrbracket, show t.kind ≠ .endMarker from hmarker]
      · cases tok with
        | nil => exact CutOff.cut (by decide)
        | cons t tok =>
          dsimp only
          split
          case h_1 hk => simp [Follows, cutOff_flowRest_cons, hk]
          case h_2 hk =>
            exact (hitems st start _ tok).congr (by simp [cutOff_flowRest_cons, hk])
          case h_3 hrbracket hcomma =>
            rw [Follows, cutOff_flowRest_cons]
            rintro (⟨hk, -⟩ | ⟨hk, -⟩)
            exacts [hrbracket hk, hcomma hk]

theorem follows_flow (fuel : ℕ) :
    (∀ st tok, Follows st (CutOff (.flowElement :: st) tok) (parseFlowElement fuel tok)) ∧
    (∀ st tok, Follows st (CutOff (.flowItems :: st) tok) (parseFlowList fuel tok)) ∧
    ∀ st start vec tok,
      Follows st (CutOff (.flowItems :: st) tok) (parseFlowItems fuel start vec tok) := by
  induction fuel with
  | zero => exact ⟨fun _ _ => trivial, fun _ _ => trivial, fun _ _ _ _ => trivial⟩
  | succ fuel ih =>
    obtain ⟨helement, hlist, hitems⟩ := ih
    refine ⟨follows_flowElement_succ hlist, fun st tok => ?_,
      follows_flowItems_succ helement hitems⟩
    cases tok with
    | nil => exact CutOff.cut (by decide)
    | cons t tok => exact hitems st t.pos [] (t :: tok)

theorem follows_element_succ
    (helement : ∀ st tok, Follows st (CutOff (.element :: st) tok) (parseElement fuel tok))
    (hlist : ∀ st vec tok, Follows st (CutOff (.items :: st) tok) (parseList fuel vec tok))
    (hmap : ∀ st map tok, Follows st (CutOff (.pairs :: st) tok) (parseMap fuel map tok))
    (st : List Place) (tok : List Token) :
    Follows st (CutOff (.element :: st) tok) (parseElement (fuel + 1) tok) := by
  cases tok with
  | nil => exact CutOff.cut (by decide)
  | cons t tok =>
    have hflow := (follows_flow fuel).1 st (t :: tok)
    rw [parseElement]
    split
    case h_1 hk =>
      refine Follows.congr (cutOff_element_cons.trans ?_)
        ((helement (.blockEnd :: st) tok).andThen fun elem tok => cutOff_blockEnd)
      simp [hk, StartsMap]
    case h_2 hk =>
      exact (hlist st [] (t :: tok)).congr (by simp [cutOff_element_cons, hk, StartsMap])
    case h_3 str hk =>
      split
      case isTrue hcolon =>
        have hstarts : StartsMap t tok := ⟨⟨str, hk⟩, hcolon⟩
        exact (hmap st [] (t :: tok)).congr (by simp [cutOff_element_cons, hk, hstarts])
      case isFalse hcolon =>
        have hstarts : ¬ StartsMap t tok := fun h => hcolon h.2
        exact hflow.congr (by simp [cutOff_element_cons, hk, hstarts])
    case h_4 hindent hdash hstring =>
      have hstarts : ¬ StartsMap t tok := fun h => hstring _ h.1.choose_spec
      exact hflow.congr (by
        simp [cutOff_element_cons, show t.kind ≠ .indent from hindent,
          show t.kind ≠ .dash from hdash, hstarts])

theorem follows_items_succ
    (helement : ∀ st tok, Follows st (CutOff (.element :: st) tok) (parseElement fuel tok))
    (hlist : ∀ st vec tok, Follows st (CutOff (.items :: st) tok) (parseList fuel vec tok))
    (st : List Place) (vec : List YamlNode) (tok : List Token) :
    Follows st (CutOff (.items :: st) tok) (parseList (fuel + 1) vec tok) := by
  cases tok with
  | nil => exact CutOff.cut (by decide)
  | cons t tok =>
    rw [parseList]
    split
    case h_1 hk => simp [Follows, cutOff_items_cons, hk]
    case h_2 hk => simp [Follows, cutOff_items_cons, hk]
    case h_3 hk =>
      refine Follows.congr (cutOff_items_cons.trans ?_)
        ((helement (.items :: st) tok).andThen fun elem tok => hlist st _ tok)
      simp [hk]
    case h_4 hmarker hdedent hdash =>
      rw [Follows, cutOff_items_cons]
      rintro (⟨hk | hk, -⟩ | ⟨hk, -⟩)
      exacts [hmarker hk, hdedent hk, hdash hk]

theorem follows_pairs_succ
    (helement : ∀ st tok, Follows st (CutOff (.element :: st) tok) (parseElement fuel tok))
    (hmap : ∀ st map tok, Follows st (CutOff (.pairs :: st) tok) (parseMap fuel map tok))
    (st : List Place) (map : List (List Byte × YamlNode)) (tok : List Token) :
    Follows st (CutOff (.pairs :: st) tok) (parseMap (fuel + 1) map tok) := by
  cases tok with
  | nil => exact CutOff.cut (by decide)
  | cons t tok =>
    rw [parseMap]
    split
    case h_1 hk => simp [Follows, cutOff_pairs_cons, hk]
    case h_2 hk => simp [Follows, cutOff_pairs_cons, hk]
    case h_3 key hk =>
      split
      case h_1 pos rest =>
        refine Follows.congr (cutOff_pairs_cons.trans ?_)
          ((helement (.pairs :: st) rest).andThen fun elem tok => hmap st _ tok)
        simp [hk]
      case h_2 hcolon =>
        rw [Follows, cutOff_pairs_cons]
        rintro (⟨h | h, -⟩ | ⟨_, c, rest, -, rfl, hc, -⟩)
        · simp [hk] at h
        · simp [hk] at h
        · obtain ⟨kind, pos⟩ := c
          exact hcolon pos rest (congrArg (⟨·, pos⟩ :: rest) hc)
    case h_4 hmarker hdedent hstring =>
      rw [Follows, cutOff_pairs_cons]
      rintro (⟨hk | hk, -⟩ | ⟨key, _, _, hk, -⟩)
      exacts [hmarker hk, hdedent hk, hstring key hk]

theorem follows_block (fuel : ℕ) :
    (∀ st tok, Follows st (CutOff (.element :: st) tok) (parseElement fuel tok)) ∧
    (∀ st vec tok, Follows st (CutOff (.items :: st) tok) (parseList fuel vec tok)) ∧
    ∀ st map tok, Follows st (CutOff (.pairs :: st) tok) (parseMap fuel map tok) := by
  induction fuel with
  | zero => exact ⟨fun _ _ => trivial, fun _ _ _ => trivial, fun _ _ _ => trivial⟩
  | succ fuel ih =>
    obtain ⟨helement, hlist, hmap⟩ := ih
    exact ⟨follows_element_succ helement hlist hmap, follows_items_succ helement hlist,
      follows_pairs_succ helement hmap⟩

theorem follows_documents (fuel : ℕ) (vec : List YamlNode) (tok : List Token) :
    Follows [] (CutOff [.documents] tok) (parseDocuments fuel vec tok) := by
  induction fuel generalizing vec tok with
  | zero => exact trivial
  | succ fuel ih =>
    cases tok with
    | nil => exact iff_of_false not_cutOff_documents_nil not_cutOff_of_no_place
    | cons t tok =>
      rw [parseDocuments]
      split
      case isTrue hk => exact (ih vec tok).congr (by simp [cutOff_documents_cons, hk])
      case isFalse hk =>
        refine Follows.congr (cutOff_documents_cons.trans ?_)
          (((follows_block fuel).1 [.documentEnd, .documents] (t :: tok)).andThen
            fun elem tok => ?_)
        · simp [hk]
        · cases tok with
          | nil => exact CutOff.cut (by decide)
          | cons t tok =>
            dsimp only
            split
            case isTrue hk =>
              exact (ih _ (t :: tok)).congr (by simp [cutOff_documentEnd_cons, hk])
            case isFalse hk => simp [Follows, cutOff_documentEnd_cons, hk]

/-! ## Fuel -/

/-- There is fuel enough, and no more than `k` tokens are left. -/
def Fueled (k : ℕ) : Parsed α → Prop
  | .outOfFuel => False
  | .past => True
  | .error _ => True
  | .ok _ tok => tok.length ≤ k

theorem Fueled.andThen {k k' : ℕ} {f : α → List Token → Parsed β} (hp : Fueled k p)
    (hf : ∀ a tok, tok.length ≤ k → Fueled k' (f a tok)) : Fueled k' (p.andThen f) := by
  cases p with
  | outOfFuel => exact hp
  | past => exact trivial
  | error err => exact trivial
  | ok a tok => exact hf a tok hp

theorem Fueled.mono {k k' : ℕ} (hp : Fueled k p) (hle : k ≤ k') : Fueled k' p := by
  cases p with
  | outOfFuel => exact hp
  | past => exact trivial
  | error err => exact trivial
  | ok a tok => exact Nat.le_trans hp hle

theorem fueled_flow (fuel : ℕ) :
    (∀ tok, 3 * tok.length + 1 ≤ fuel → Fueled tok.length (parseFlowElement fuel tok)) ∧
    (∀ tok, 3 * tok.length + 3 ≤ fuel → Fueled tok.length (parseFlowList fuel tok)) ∧
    ∀ start vec tok, 3 * tok.length + 2 ≤ fuel →
      Fueled tok.length (parseFlowItems fuel start vec tok) := by
  induction fuel with
  | zero => exact ⟨fun _ h => absurd h (by omega), fun _ h => absurd h (by omega), fun _ _ _ h => absurd h (by omega)⟩
  | succ fuel ih =>
    obtain ⟨helement, hlist, hitems⟩ := ih
    refine ⟨fun tok hfuel => ?_, fun tok hfuel => ?_, fun start vec tok hfuel => ?_⟩
    · cases tok with
      | nil => exact trivial
      | cons t tok =>
        rw [List.length_cons] at hfuel
        rw [parseFlowElement]
        split
        · exact (hlist tok (by omega)).mono (Nat.le_succ _)
        · exact Nat.le_succ _
        · exact trivial
    · cases tok with
      | nil => exact trivial
      | cons t tok => exact hitems t.pos [] (t :: tok) (by omega)
    · cases tok with
      | nil => exact trivial
      | cons t tok =>
        rw [List.length_cons] at hfuel
        rw [parseFlowItems]
        split
        · exact Nat.le_succ _
        · exact trivial
        · refine (helement (t :: tok) (by rw [List.length_cons]; omega)).andThen
            fun elem tok' hle => ?_
          cases tok' with
          | nil => exact trivial
          | cons t' tok' =>
            rw [List.length_cons, List.length_cons] at hle
            dsimp only
            split
            · exact Nat.le_of_succ_le hle
            · exact (hitems start _ tok' (by omega)).mono (by rw [List.length_cons]; omega)
            · exact trivial

theorem fueled_block (fuel : ℕ) :
    (∀ tok, 3 * tok.length + 2 ≤ fuel → Fueled tok.length (parseElement fuel tok)) ∧
    (∀ vec tok, 3 * tok.length + 1 ≤ fuel → Fueled tok.length (parseList fuel vec tok)) ∧
    ∀ map tok, 3 * tok.length + 1 ≤ fuel → Fueled tok.length (parseMap fuel map tok) := by
  induction fuel with
  | zero =>
    exact ⟨fun _ h => absurd h (by omega), fun _ _ h => absurd h (by omega),
      fun _ _ h => absurd h (by omega)⟩
  | succ fuel ih =>
    obtain ⟨helement, hlist, hmap⟩ := ih
    refine ⟨fun tok hfuel => ?_, fun vec tok hfuel => ?_, fun map tok hfuel => ?_⟩
    · cases tok with
      | nil => exact trivial
      | cons t tok =>
        have hflow := (fueled_flow fuel).1 (t :: tok) (by omega)
        have hlength : (t :: tok).length = tok.length + 1 := List.length_cons
        rw [parseElement]
        split
        · refine (helement tok (by omega)).andThen fun elem tok' hle => ?_
          rw [Fueled, List.length_tail]
          omega
        · exact hlist [] (t :: tok) (by omega)
        · split
          · exact hmap [] (t :: tok) (by omega)
          · exact hflow
        · exact hflow
    · cases tok with
      | nil => exact trivial
      | cons t tok =>
        have hlength : (t :: tok).length = tok.length + 1 := List.length_cons
        rw [parseList]
        split
        · exact Nat.le_refl _
        · exact Nat.le_refl _
        · refine (helement tok (by omega)).andThen fun elem tok' hle => ?_
          exact (hlist _ tok' (by omega)).mono (by omega)
        · exact trivial
    · cases tok with
      | nil => exact trivial
      | cons t tok =>
        have hlength : (t :: tok).length = tok.length + 1 := List.length_cons
        rw [parseMap]
        split
        · exact Nat.le_refl _
        · exact Nat.le_refl _
        · split
          case h_1 pos rest =>
            have hrest : (⟨.colon, pos⟩ :: rest : List Token).length = rest.length + 1 :=
              List.length_cons
            refine (helement rest (by omega)).andThen fun elem tok' hle => ?_
            exact (hmap _ tok' (by omega)).mono (by omega)
          case h_2 => exact trivial
        · exact trivial

theorem fueled_documents (vec : List YamlNode) (hfuel : 3 * tok.length + 4 ≤ fuel) :
    Fueled 0 (parseDocuments fuel vec tok) := by
  induction fuel using Nat.strong_induction_on generalizing vec tok with
  | _ fuel ih =>
    obtain ⟨fuel, rfl⟩ : ∃ k, fuel = k + 2 := ⟨fuel - 2, by omega⟩
    cases tok with
    | nil => exact Nat.le_refl _
    | cons t tok =>
      have hlength : (t :: tok).length = tok.length + 1 := List.length_cons
      rw [parseDocuments]
      split
      · exact ih _ (Nat.lt_succ_self _) vec (by omega)
      · refine ((fueled_block (fuel + 1)).1 (t :: tok) (by omega)).andThen
          fun elem tok' hle => ?_
        cases tok' with
        | nil => exact trivial
        | cons t' tok' =>
          rw [List.length_cons] at hle
          dsimp only
          split
          case isTrue hk =>
            -- The turn behind a document removes the marker.
            rw [parseDocuments, if_pos hk]
            exact ih fuel (by omega) _ (by omega)
          case isFalse => exact trivial

theorem exists_parseDocuments_iff :
    (∃ fuel, (∃ err, parseDocuments fuel [] tok = .error err) ∨
      ∃ vec rest, parseDocuments fuel [] tok = .ok vec rest) ↔ ¬ CutOff [.documents] tok := by
  constructor
  · rintro ⟨fuel, ⟨err, herr⟩ | ⟨vec, rest, hok⟩⟩
    · have hfollows := follows_documents fuel [] tok
      rwa [herr] at hfollows
    · have hfollows := follows_documents fuel [] tok
      rw [hok] at hfollows
      exact fun hcut => not_cutOff_of_no_place (hfollows.mp hcut)
  · intro hcut
    refine ⟨3 * tok.length + 4, ?_⟩
    have hfollows := follows_documents (3 * tok.length + 4) [] tok
    have hfuel := fueled_documents [] (Nat.le_refl (3 * tok.length + 4))
    cases hparse : parseDocuments (3 * tok.length + 4) [] tok with
    | outOfFuel =>
      rw [hparse] at hfuel
      exact absurd hfuel id
    | past =>
      rw [hparse] at hfollows
      exact absurd hfollows hcut
    | error err => exact .inl ⟨err, rfl⟩
    | ok vec rest => exact .inr ⟨vec, rest, rfl⟩

theorem Returns.exists_outcome (h : Returns input r) :
    ∃ o, Tokenizes input o ∧ o ≠ .outOfRange ∧
      ∀ tokens, o = .tokens tokens → ¬ CutOff [.documents] tokens := by
  cases h with
  | tokenize h => exact ⟨_, h, Outcome.noConfusion, fun _ => Outcome.noConfusion⟩
  | error h hparse =>
    refine ⟨_, h, Outcome.noConfusion, fun tokens heq => ?_⟩
    exact exists_parseDocuments_iff.mp ⟨_, .inl ⟨_, Outcome.tokens.inj heq ▸ hparse⟩⟩
  | nodes h hparse =>
    refine ⟨_, h, Outcome.noConfusion, fun tokens heq => ?_⟩
    exact exists_parseDocuments_iff.mp ⟨_, .inr ⟨_, _, Outcome.tokens.inj heq ▸ hparse⟩⟩

/-- `parse_yaml` returns a list of nodes or an error if and only if its tokenizer never comes
to a character that no token starts with, or to blanks at the end of the text in a list, and
its tokens are not cut off in the middle of a document. -/
theorem exists_returns_iff (input : List Byte) :
    (∃ r, Returns input r) ↔ (∀ s, Tokenizer.Visits input s → ¬ s.Foreign ∧ ¬ s.RunsOver) ∧
      ∀ tokens, Tokenizes input (.tokens tokens) → ¬ CutOff [.documents] tokens := by
  rw [← Tokenizer.exists_tokenizes_iff]
  constructor
  · rintro ⟨r, h⟩
    obtain ⟨o, ho, hne, hcut⟩ := h.exists_outcome
    exact ⟨⟨o, ho, hne⟩, fun tokens h' => hcut tokens (ho.unique h')⟩
  · rintro ⟨⟨o, ho, hne⟩, hcut⟩
    cases o with
    | tokens tokens =>
      obtain ⟨fuel, ⟨err, hparse⟩ | ⟨vec, rest, hparse⟩⟩ :=
        exists_parseDocuments_iff.mpr (hcut tokens ho)
      · exact ⟨_, .error ho hparse⟩
      · exact ⟨_, .nodes ho hparse⟩
    | error err => exact ⟨_, .tokenize ho⟩
    | outOfRange => exact absurd rfl hne

/-- The parser does not return for two words with a blank between them, where it goes on for
ever, for a list that a blank follows, where `substr` throws an exception, and for a word
without an end marker, where it reads a token that is not there. -/
theorem not_returns :
    (¬ ∃ r, Returns (text "a b") r) ∧ (¬ ∃ r, Returns (text "[ ") r) ∧
      ¬ ∃ r, Returns (text "a") r := by
  refine ⟨?_, ?_, ?_⟩
  · rintro ⟨r, h⟩
    obtain ⟨o, ho, -, -⟩ := h.exists_outcome
    have hline : Tokenizer.turn 3 { str := text "a b" } =
        .next { str := text "a b", mode := .inLine 3 } := rfl
    have hword : Tokenizer.turn 3 { str := text "a b", mode := .inLine 3 } =
        .next ⟨text " b", [0], [⟨.string (text "a"), 0⟩], .inLine 3⟩ := rfl
    have hforeign : Tokenizer.Foreign ⟨text " b", [0], [⟨.string (text "a"), 0⟩], .inLine 3⟩ :=
      show ∃ c ∈ _, _ from ⟨ch ' ', rfl, by decide, by decide⟩
    exact hforeign.not_ends o ((ends_iff_of_next hword).mp ((ends_iff_of_next hline).mp ho))
  · rintro ⟨r, h⟩
    obtain ⟨o, ho, hne, -⟩ := h.exists_outcome
    have hends : Tokenizes (text "[ ") .outOfRange :=
      ends_of_next rfl (ends_of_next rfl (ends_of_done rfl))
    exact hne (ho.unique hends)
  · rintro ⟨r, h⟩
    obtain ⟨o, ho, -, hcut⟩ := h.exists_outcome
    have hends : Tokenizes (text "a") (.tokens [⟨.string (text "a"), 0⟩]) :=
      ends_of_next rfl (ends_of_next rfl (ends_of_done rfl))
    refine hcut _ (ho.unique hends) (.document (by decide) (.flow ?_ (.scalar rfl (.cut ?_))))
    · exact ⟨by decide, by decide, fun h => absurd h.2.1 (by decide)⟩
    · decide

end Mold.MachO.Yaml
