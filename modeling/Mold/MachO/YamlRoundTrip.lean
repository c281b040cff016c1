import Mold.MachO.YamlPrintTokens
import Mold.MachO.YamlTotal

/-!
# Printed trees are read back

The tokens of a part of a printed tree, together with the `dedent`s for the blocks that it
leaves open, are read by the function of the descent for that part, whatever follows them.
The main theorem puts this together for a document between its markers.

A line at the first column that starts with `---` or `...` is a marker, whatever follows on
it, so the words at the start of such lines must be others.
-/

namespace Mold.MachO.Yaml

open Mold.Lib

variable {α β : Type*} {p : Parsed α} {a : α} {tok tok' : List Token} {node : YamlNode}
  {ks ks' : List Kind} {w key : List Byte} {Follow Follow' : Kind → Prop}

/-! ## The descent -/

def Yields (p : Parsed α) (a : α) (tok : List Token) : Prop :=
  p = .outOfFuel ∨ p = .ok a tok

theorem Yields.andThen {f : α → List Token → Parsed β} {b : β} (hp : Yields p a tok)
    (hf : Yields (f a tok) b tok') : Yields (p.andThen f) b tok' := by
  rcases hp with rfl | rfl
  · exact .inl rfl
  · exact hf

def ReadsElement (ks : List Kind) (node : YamlNode) (Follow : Kind → Prop) : Prop :=
  ∀ (fuel : ℕ) (toks : List Token) (t : Token) (next : List Token), toks.map Token.kind = ks →
    Follow t.kind → Yields (parseElement fuel (toks ++ t :: next)) node (t :: next)

def Stops (kind : Kind) : Prop := kind = .endMarker ∨ kind = .dedent

def ReadsItems (ks : List Kind) (vec' : List YamlNode) : Prop :=
  ∀ (fuel : ℕ) (vec : List YamlNode) (toks : List Token) (t : Token) (next : List Token),
    toks.map Token.kind = ks → Stops t.kind →
    Yields (parseList fuel vec (toks ++ t :: next)) (.list (vec ++ vec')) (t :: next)

def ReadsPairs (ks : List Kind) (es : List (List Byte × YamlNode)) : Prop :=
  ∀ (fuel : ℕ) (map : List (List Byte × YamlNode)) (toks : List Token) (t : Token)
    (next : List Token), toks.map Token.kind = ks → Stops t.kind →
    Yields (parseMap fuel map (toks ++ t :: next)) (.map (setEntries map es)) (t :: next)

theorem ReadsElement.mono (h : ReadsElement ks node Follow) (hsub : ∀ k, Follow' k → Follow k) :
    ReadsElement ks node Follow' := fun fuel toks t next htoks ht =>
  h fuel toks t next htoks (hsub _ ht)

theorem Stops.ne_colon {kind : Kind} (h : Stops kind) : kind ≠ .colon := by
  rcases h with rfl | rfl <;> exact Kind.noConfusion

theorem yields_parseFlowElement {fuel : ℕ} {t : Token} (ht : t.kind = .string w) :
    Yields (parseFlowElement fuel (t :: tok)) (.scalar w) tok := by
  cases fuel with
  | zero => exact .inl rfl
  | succ fuel => exact .inr (by simp only [parseFlowElement, ht])

theorem readsElement_scalar : ReadsElement [.string w] (.scalar w) (· ≠ .colon) := by
  intro fuel toks t next htoks ht
  obtain ⟨t', toks, rfl, hk, htoks⟩ := List.map_eq_cons_iff.mp htoks
  obtain rfl := List.map_eq_nil_iff.mp htoks
  cases fuel with
  | zero => exact .inl rfl
  | succ fuel =>
    have hcolon : ¬ (2 ≤ (t :: next).length ∧ (t :: next).head?.map Token.kind = some .colon) :=
      fun h => ht (Option.some.inj h.2)
    simp only [List.cons_append, List.nil_append, parseElement, hk, if_neg hcolon]
    exact yields_parseFlowElement hk

variable {ws : List (List Byte)}

theorem yields_parseFlowItems {start fuel : ℕ} {vec : List YamlNode}
    {toks next : List Token} (hne : ws ≠ []) (htoks : toks.map Token.kind = flowKinds ws) :
    Yields (parseFlowItems fuel start vec (toks ++ next)) (.list (vec ++ ws.map .scalar)) next := by
  induction ws generalizing fuel vec toks with
  | nil => exact absurd rfl hne
  | cons w ws ih =>
    cases fuel with
    | zero => exact .inl rfl
    | succ fuel =>
      cases ws with
      | nil =>
        obtain ⟨t, toks, rfl, hk, htoks⟩ := List.map_eq_cons_iff.mp htoks
        obtain ⟨t', toks, rfl, hk', htoks⟩ := List.map_eq_cons_iff.mp htoks
        obtain rfl := List.map_eq_nil_iff.mp htoks
        simp only [List.cons_append, List.nil_append, parseFlowItems, hk]
        refine (yields_parseFlowElement hk).andThen ?_
        simp only [hk']
        exact .inr rfl
      | cons w' ws =>
        obtain ⟨t, toks, rfl, hk, htoks⟩ := List.map_eq_cons_iff.mp htoks
        obtain ⟨t', toks, rfl, hk', htoks⟩ := List.map_eq_cons_iff.mp htoks
        simp only [List.cons_append, parseFlowItems, hk]
        refine (yields_parseFlowElement hk).andThen ?_
        simp only [hk']
        have hrest := @ih fuel (vec ++ [.scalar w]) toks (List.cons_ne_nil _ _) htoks
        rwa [List.append_assoc] at hrest

theorem readsElement_flow (hne : ws ≠ []) :
    ReadsElement (.lbracket :: flowKinds ws) (.list (ws.map .scalar)) Follow := by
  intro fuel toks t next htoks _
  obtain ⟨t', toks, rfl, hk, htoks⟩ := List.map_eq_cons_iff.mp htoks
  obtain ⟨t'', toks', htoks'⟩ : ∃ t'' toks', toks ++ t :: next = t'' :: toks' :=
    List.exists_cons_of_ne_nil (List.append_ne_nil_of_right_ne_nil _ (List.cons_ne_nil _ _))
  rcases fuel with _ | _ | _ | fuel
  · exact .inl rfl
  · simp only [List.cons_append, parseElement, hk, parseFlowElement]
    exact .inl rfl
  · simp only [List.cons_append, parseElement, hk, parseFlowElement, parseFlowList]
    exact .inl rfl
  · have hitems := @yields_parseFlowItems ws t''.pos fuel [] toks (t :: next) hne htoks
    rw [htoks'] at hitems
    simp only [List.cons_append, parseElement, hk, parseFlowElement, htoks', parseFlowList]
    exact hitems

theorem ReadsElement.block (h : ReadsElement ks node Stops) :
    ReadsElement (.indent :: (ks ++ [.dedent])) node Follow := by
  intro fuel toks t next htoks _
  obtain ⟨t', toks, rfl, hk, htoks⟩ := List.map_eq_cons_iff.mp htoks
  obtain ⟨toks, last, rfl, hblock, hlast⟩ := List.map_eq_append_iff.mp htoks
  obtain ⟨t'', last, rfl, hk', hlast⟩ := List.map_eq_cons_iff.mp hlast
  obtain rfl := List.map_eq_nil_iff.mp hlast
  cases fuel with
  | zero => exact .inl rfl
  | succ fuel =>
    simp only [List.cons_append, List.append_assoc, List.nil_append, parseElement, hk]
    exact (h fuel toks t'' (t :: next) hblock (.inr hk')).andThen (.inr rfl)

theorem readsElement_list {vec : List YamlNode} (h : ReadsItems (.dash :: ks) vec) :
    ReadsElement (.dash :: ks) (.list vec) Stops := by
  intro fuel toks t next htoks ht
  cases fuel with
  | zero => exact .inl rfl
  | succ fuel =>
    have hitems := h fuel [] toks t next htoks ht
    obtain ⟨t', toks, rfl, hk, htoks⟩ := List.map_eq_cons_iff.mp htoks
    simp only [List.cons_append, parseElement, hk]
    exact hitems

theorem readsElement_map {es m : List (List Byte × YamlNode)} (hm : KeySorted m)
    (hperm : es.Perm m) (h : ReadsPairs (.string key :: .colon :: ks) es) :
    ReadsElement (.string key :: .colon :: ks) (.map m) Stops := by
  intro fuel toks t next htoks ht
  cases fuel with
  | zero => exact .inl rfl
  | succ fuel =>
    have hpairs := h fuel [] toks t next htoks ht
    rw [setEntries_of_perm hm hperm] at hpairs
    obtain ⟨t', toks, rfl, hk, htoks⟩ := List.map_eq_cons_iff.mp htoks
    obtain ⟨t'', toks, rfl, hk', htoks⟩ := List.map_eq_cons_iff.mp htoks
    have hcolon : 2 ≤ (t'' :: (toks ++ t :: next)).length ∧
        (t'' :: (toks ++ t :: next)).head?.map Token.kind = some .colon :=
      ⟨by simp only [List.length_cons, List.length_append]; omega, congrArg some hk'⟩
    simp only [List.cons_append, parseElement, hk, if_pos hcolon]
    exact hpairs

theorem readsItems_nil : ReadsItems [] [] := by
  intro fuel vec toks t next htoks ht
  obtain rfl := List.map_eq_nil_iff.mp htoks
  cases fuel with
  | zero => exact .inl rfl
  | succ fuel =>
    rw [List.append_nil]
    rcases ht with hk | hk <;> exact .inr (by simp only [List.nil_append, parseList, hk])

theorem exists_next (toks : List Token) (t : Token) (next : List Token) :
    ∃ t' next', toks ++ t :: next = t' :: next' ∧
      t'.kind ∈ (toks.map Token.kind).head?.or (some t.kind) := by
  cases toks with
  | nil => exact ⟨t, next, rfl, rfl⟩
  | cons t' toks => exact ⟨t', _, rfl, rfl⟩

theorem ReadsItems.cons {vec : List YamlNode} (h : ReadsElement ks node fun _ => True)
    (hrest : ReadsItems ks' vec) : ReadsItems (.dash :: (ks ++ ks')) (node :: vec) := by
  intro fuel vec' toks t next htoks ht
  obtain ⟨t', toks, rfl, hk, htoks⟩ := List.map_eq_cons_iff.mp htoks
  obtain ⟨toks, toks', rfl, helem, hitems⟩ := List.map_eq_append_iff.mp htoks
  cases fuel with
  | zero => exact .inl rfl
  | succ fuel =>
    have hitems := hrest fuel (vec' ++ [node]) toks' t next hitems ht
    rw [List.append_assoc] at hitems
    obtain ⟨t'', next', hnext, -⟩ := exists_next toks' t next
    simp only [List.cons_append, List.append_assoc, parseList, hk]
    rw [hnext] at hitems ⊢
    exact (h fuel toks t'' next' helem trivial).andThen hitems

theorem readsPairs_nil : ReadsPairs [] [] := by
  intro fuel map toks t next htoks ht
  obtain rfl := List.map_eq_nil_iff.mp htoks
  cases fuel with
  | zero => exact .inl rfl
  | succ fuel => rcases ht with hk | hk <;> exact .inr (by simp only [List.nil_append, parseMap, hk]; rfl)

theorem ReadsPairs.cons {e : List Byte × YamlNode} {es : List (List Byte × YamlNode)}
    (h : ReadsElement ks e.2 (· ≠ .colon)) (hhead : ks'.head? ≠ some .colon)
    (hrest : ReadsPairs ks' es) :
    ReadsPairs (.string e.1 :: .colon :: (ks ++ ks')) (e :: es) := by
  intro fuel map toks t next htoks ht
  obtain ⟨t', toks, rfl, hk, htoks⟩ := List.map_eq_cons_iff.mp htoks
  obtain ⟨⟨kind, pos⟩, toks, rfl, hk' : kind = _, htoks⟩ := List.map_eq_cons_iff.mp htoks
  obtain ⟨toks, toks', rfl, helem, hpairs⟩ := List.map_eq_append_iff.mp htoks
  cases fuel with
  | zero => exact .inl rfl
  | succ fuel =>
    subst hk'
    obtain ⟨t'', next', hnext, hkind⟩ := exists_next toks' t next
    have hfollow : t''.kind ≠ .colon := by
      intro hcolon
      rw [hpairs, hcolon] at hkind
      cases ks' with
      | nil => exact ht.ne_colon (Option.some.inj hkind)
      | cons k ks' => exact hhead hkind
    have hpairs := hrest fuel (setEntry e.1 e.2 map) toks' t next hpairs ht
    simp only [List.cons_append, List.append_assoc, parseMap, hk]
    rw [hnext] at hpairs ⊢
    exact (h fuel toks t'' next' helem hfollow).andThen hpairs

/-! ## The parts of a text -/

open Tokenizer

/-- The tokens of a text with those that close the blocks it leaves open. -/
def closed (ks : List Kind) (ps : List ℕ) : List Kind := ks ++ List.replicate ps.length .dedent

theorem closed_nil : closed ks [] = ks := List.append_nil ks

theorem closed_concat {ps : List ℕ} {d : ℕ} : closed ks (ps ++ [d]) = closed ks ps ++ [.dedent] := by
  rw [closed, closed, List.length_append, List.length_singleton, List.replicate_succ',
    List.append_assoc]

def Part.Reads : Part → List Byte → Prop
  | .flat node, s => ∃ ks, LexesFlat s ks ∧ ReadsElement ks node (· ≠ .colon)
  | .body d node, s => ∃ ks ps, LexesAt d s ks ps ∧ ReadsElement (closed ks ps) node Stops
  | .deeper d node, s =>
    ∃ ks ps, LexesBelow d s ks ps ∧ ReadsElement (closed ks ps) node fun _ => True
  | .item d node, s =>
    ∃ ks ps, LexesAt d s (.dash :: ks) ps ∧ ReadsElement (closed ks ps) node fun _ => True
  | .items d vec, s =>
    ∃ ks ps, LexesAt d s (.dash :: ks) ps ∧ ReadsItems (.dash :: closed ks ps) vec
  | .pair d e, s =>
    ∃ ks ps, LexesAt d s (.string e.1 :: .colon :: ks) ps ∧
      ReadsElement (closed ks ps) e.2 (· ≠ .colon)
  | .pairs d es, s =>
    ∃ key ks ps, LexesAt d s (.string key :: .colon :: ks) ps ∧
      ReadsPairs (.string key :: .colon :: closed ks ps) es

/-- The words at the start of lines at the first column are no markers. -/
def Part.Clear : Part → Prop
  | .body d node => d = 0 → ∀ w ∈ node.rootWords, ¬ Marked w
  | .pairs d es => d = 0 → ∀ w ∈ es.map Prod.fst, ¬ Marked w
  | _ => True

theorem FlowText.ne_nil {s : List Byte} (h : FlowText ws s) : ws ≠ [] := by
  cases h <;> exact List.cons_ne_nil _ _

theorem Printed.reads {part : Part} {s : List Byte} (h : Printed part s) (hclear : part.Clear) :
    part.Reads s := by
  induction h with
  | scalar hw => exact ⟨_, lexesFlat_scalar hw, readsElement_scalar⟩
  | flow h => exact ⟨_, lexesFlat_flow h, readsElement_flow h.ne_nil⟩
  | flat _ ih =>
    obtain ⟨ks, hlex, hread⟩ := ih trivial
    refine ⟨ks, [], hlex.at, ?_⟩
    rw [closed_nil]
    exact hread.mono fun _ => Stops.ne_colon
  | list _ ih =>
    obtain ⟨ks, ps, hlex, hread⟩ := ih trivial
    exact ⟨_, ps, hlex, readsElement_list hread⟩
  | map hm hperm _ ih =>
    obtain ⟨key, ks, ps, hlex, hread⟩ :=
      ih fun hd w hw => hclear hd w ((hperm.map _).subset hw)
    exact ⟨_, ps, hlex, readsElement_map hm hperm hread⟩
  | deeper hb hi hd h ih =>
    obtain ⟨ks, ps, hlex, hread⟩ := ih fun hzero => absurd hd (by omega)
    have hs := (h.leads fun _ _ => Part.noConfusion).starts
    refine ⟨_, _, hlex.below hb hi hd hs, ?_⟩
    rw [closed_concat]
    exact hread.block
  | itemInline hb h ih =>
    obtain ⟨ks, ps, hlex, hread⟩ := ih fun hzero => absurd hzero (by omega)
    have hs := (h.leads fun _ _ => Part.noConfusion).starts
    refine ⟨_, _, hlex.dash hb hs, ?_⟩
    rw [closed_concat]
    exact hread.block
  | itemDeeper _ ih =>
    obtain ⟨ks, ps, hlex, hread⟩ := ih trivial
    exact ⟨ks, ps, hlex.dash, hread⟩
  | lastItem _ ih =>
    obtain ⟨ks, ps, hlex, hread⟩ := ih trivial
    refine ⟨ks, ps, hlex, ?_⟩
    have hitems := ReadsItems.cons hread readsItems_nil
    rwa [List.append_nil] at hitems
  | items hi hd _ hrest ih ih' =>
    obtain ⟨ks, ps, hlex, hread⟩ := ih trivial
    obtain ⟨ks', ps', hlex', hread'⟩ := ih' trivial
    have hleads := hrest.leads fun _ _ => Part.noConfusion
    refine ⟨_, ps', hlex.append hlex' hi hd hleads fun _ _ hw => absurd hw List.not_mem_nil, ?_⟩
    have hitems := ReadsItems.cons hread hread'
    simpa only [closed, List.append_assoc, List.cons_append, List.append_eq] using hitems
  | pairInline hk hb h ih =>
    obtain ⟨ks, hlex, hread⟩ := ih trivial
    have hs := (h.leads fun _ _ => Part.noConfusion).starts
    refine ⟨ks, [], hlex.pair hk hb hs, ?_⟩
    rwa [closed_nil]
  | pairDeeper hk _ ih =>
    obtain ⟨ks, ps, hlex, hread⟩ := ih trivial
    exact ⟨ks, ps, hlex.pair hk, hread.mono fun _ _ => trivial⟩
  | lastPair _ ih =>
    obtain ⟨ks, ps, hlex, hread⟩ := ih trivial
    refine ⟨_, ks, ps, hlex, ?_⟩
    have hpairs := ReadsPairs.cons hread (by simp) readsPairs_nil
    rwa [List.append_nil] at hpairs
  | pairs hi hd _ hrest ih ih' =>
    obtain ⟨ks, ps, hlex, hread⟩ := ih trivial
    obtain ⟨key, ks', ps', hlex', hread'⟩ :=
      ih' fun hzero w hw => hclear hzero w (List.mem_cons_of_mem _ hw)
    have hleads := hrest.leads fun _ _ => Part.noConfusion
    refine ⟨_, _, ps', hlex.append hlex' hi hd hleads
      fun hzero w hw => hclear hzero w (List.mem_cons_of_mem _ hw), ?_⟩
    have hpairs := ReadsPairs.cons hread (by simp) hread'
    simpa only [closed, List.append_assoc, List.cons_append, List.append_eq] using hpairs

/-! ## Documents -/

variable {d : ℕ} {input : List Byte}

theorem ReadsElement.exists_cons (h : ReadsElement ks node (· = .endMarker)) :
    ∃ k ks', ks = k :: ks' ∧ k ≠ .endMarker := by
  have hyields := h 2 (ks.map (⟨·, 0⟩)) ⟨.endMarker, 0⟩ [] (by simp [Function.comp_def]) rfl
  cases ks with
  | nil => simp [Yields, parseElement, parseFlowElement] at hyields
  | cons k ks =>
    refine ⟨k, ks, rfl, ?_⟩
    rintro rfl
    simp [Yields, parseElement, parseFlowElement] at hyields

theorem yields_parseDocuments {toks : List Token} {fuel : ℕ}
    (h : ReadsElement ks node (· = .endMarker))
    (htoks : toks.map Token.kind = .endMarker :: (ks ++ [.endMarker])) :
    Yields (parseDocuments fuel [] toks) [node] [] := by
  obtain ⟨k, ks, rfl, hne⟩ := h.exists_cons
  obtain ⟨t, toks, rfl, hk, htoks⟩ := List.map_eq_cons_iff.mp htoks
  obtain ⟨toks, last, rfl, hnode, hlast⟩ := List.map_eq_append_iff.mp htoks
  obtain ⟨t', last, rfl, hk', hlast⟩ := List.map_eq_cons_iff.mp hlast
  obtain rfl := List.map_eq_nil_iff.mp hlast
  rcases fuel with _ | _ | fuel
  · exact .inl rfl
  · rw [parseDocuments, if_pos hk]
    exact .inl rfl
  · have helem := h fuel toks t' [] hnode hk'
    obtain ⟨t'', toks, rfl, hk'', -⟩ := List.map_eq_cons_iff.mp hnode
    rw [parseDocuments, if_pos hk, List.cons_append, parseDocuments, if_neg fun h => hne (hk''.symm.trans h)]
    refine helem.andThen ?_
    simp only [if_pos hk']
    rcases fuel with _ | _ | fuel
    · exact .inl rfl
    · rw [parseDocuments, if_pos hk']
      exact .inl rfl
    · rw [parseDocuments, if_pos hk']
      exact .inr rfl

theorem PrintedDocument.lexes (h : PrintedDocument d node input)
    (hclear : d = 0 → ∀ w ∈ node.rootWords, ¬ Marked w) :
    ∃ ks indents, ReadsElement ks node (· = .endMarker) ∧ ∀ n,
      Lexes n ⟨input, [0], [], .line⟩ (.endMarker :: (ks ++ [.endMarker]))
        ⟨[], indents, [], .line⟩ := by
  obtain @⟨i, s, hi, hd, hprinted⟩ := h
  obtain ⟨ks, ps, hlex, hread⟩ := hprinted.reads hclear
  have hleads : Leads node.rootWords (s ++ text "...\n") :=
    (hprinted.leads fun _ _ => Part.noConfusion).append
  rcases Nat.eq_zero_or_pos d with rfl | hpos
  · have hkinds : [Kind.endMarker] ++ (List.replicate 0 Kind.dedent ++
        (ks ++ (List.replicate ((ps ++ [0]).length - 1) Kind.dedent ++ [Kind.endMarker]))) =
        .endMarker :: (closed ks ps ++ [.endMarker]) := by
      simp [closed]
    refine ⟨closed ks ps, (ps ++ [0]).drop ((ps ++ [0]).length - 1),
      hread.mono fun _ => .inl, fun n => ?_⟩
    rw [← hkinds]
    have hline := @lexes_line n 0 _ _ [] [] hi hleads.starts hd (by simp)
      fun hzero => hleads.not_marked (hclear hzero)
    exact lexes_marker.trans (hline.trans ((hlex.2 n [] (text "...\n")).trans lexes_end))
  · have hkinds : [Kind.endMarker] ++ ([Kind.indent] ++
        (ks ++ (List.replicate ((ps ++ [d, 0]).length - 1) Kind.dedent ++ [Kind.endMarker]))) =
        .endMarker :: (.indent :: (closed ks ps ++ [.dedent]) ++ [.endMarker]) := by
      simp [closed, List.replicate_succ']
    refine ⟨.indent :: (closed ks ps ++ [.dedent]), (ps ++ [d, 0]).drop ((ps ++ [d, 0]).length - 1),
      hread.block, fun n => ?_⟩
    rw [← hkinds]
    subst hd
    have hline := @lexes_line_indent n 0 _ _ [] hi hleads.starts hpos
    exact lexes_marker.trans (hline.trans ((hlex.2 n [0] (text "...\n")).trans lexes_end))

/-- A tree that is printed in block style between markers is what `parse_yaml` returns, unless
it starts at the first column and a line starts with a word that begins with `---` or `...`. -/
theorem returns_iff_of_printed (h : PrintedDocument d node input)
    (hclear : d = 0 → ∀ w ∈ node.rootWords, ¬ Marked w) (r : Result) :
    Returns input r ↔ r = .nodes [node] := by
  obtain ⟨ks, indents, hread, hlex⟩ := h.lexes hclear
  obtain ⟨tokens, hkinds, hreach⟩ := hlex input.length []
  have htokens : Tokenizes input (.tokens tokens) := ends_of_reaches hreach rfl
  have hyields : ∀ fuel, Yields (parseDocuments fuel [] tokens) [node] [] := fun fuel =>
    yields_parseDocuments hread hkinds
  constructor
  · intro hreturns
    cases hreturns with
    | tokenize herr => cases htokens.unique herr
    | @error tokens' fuel err h' hparse =>
      obtain rfl : tokens = tokens' := Outcome.tokens.inj (htokens.unique h')
      rcases hyields fuel with hnone | hok
      · rw [hnone] at hparse
        cases hparse
      · rw [hok] at hparse
        cases hparse
    | @nodes tokens' rest fuel vec h' hparse =>
      obtain rfl : tokens = tokens' := Outcome.tokens.inj (htokens.unique h')
      rcases hyields fuel with hnone | hok
      · rw [hnone] at hparse
        cases hparse
      · rw [hok] at hparse
        cases hparse
        rfl
  · rintro rfl
    have hfuel := fueled_documents [] (Nat.le_refl (3 * tokens.length + 4))
    rcases hyields (3 * tokens.length + 4) with hnone | hok
    · rw [hnone] at hfuel
      exact absurd hfuel id
    · exact .nodes htokens hok

/-- `a: b`, and `c` with a list of a map, which has a list in brackets, and of a list. -/
def sampleNode : YamlNode :=
  .map [(text "a", .scalar (text "b")),
    (text "c", .list
      [.map [(text "d", .list [.scalar (text "e"), .scalar (text "f")])],
        .list [.scalar (text "g")]])]

def sampleText : List Byte := text "---\na: b\nc:\n  - d: [e, f]\n  - - g\n...\n"

theorem word_sampleText : ∀ w ∈ [text "a", text "b", text "c", text "d", text "e", text "f",
    text "g"], Word w := by
  decide +kernel

theorem printed_sampleNode : PrintedDocument 0 sampleNode sampleText := by
  have hspaces : ∀ k, Blanks (List.replicate k (ch ' ')) := blanks_replicate
  have hflow : FlowText [text "e", text "f"] (text "e, f]\n") :=
    @FlowText.cons (text "e") [] [] _ _ (word_sampleText _ (by simp)) (hspaces 0) (hspaces 0)
      (@FlowText.last (text "f") [ch ' '] [] (word_sampleText _ (by simp)) (hspaces 1) (hspaces 0))
  have hd : Printed (.pair 4 (text "d", .list [.scalar (text "e"), .scalar (text "f")]))
      (text "d: [e, f]\n") :=
    @Printed.pairInline 4 (text "d") [ch ' '] _ _ (word_sampleText _ (by simp)) (hspaces 1)
      (.flow hflow)
  have hfirst : Printed (.item 2 (.map [(text "d", .list [.scalar (text "e"), .scalar (text "f")])]))
      (text "- d: [e, f]\n") :=
    @Printed.itemInline 2 _ [] _ (hspaces 0)
      (.map (List.pairwise_singleton _ _) (List.Perm.refl _) (.lastPair hd))
  have hg : Printed (.item 4 (.scalar (text "g"))) (text "- g\n") :=
    @Printed.itemInline 4 _ [] _ (hspaces 0) (.flat (.scalar (word_sampleText _ (by simp))))
  have hsecond : Printed (.item 2 (.list [.scalar (text "g")])) (text "- - g\n") :=
    @Printed.itemInline 2 _ [] _ (hspaces 0) (.list (.lastItem hg))
  have ha : Printed (.pair 0 (text "a", .scalar (text "b"))) (text "a: b\n") :=
    @Printed.pairInline 0 (text "a") [ch ' '] _ _ (word_sampleText _ (by simp)) (hspaces 1)
      (.scalar (word_sampleText _ (by simp)))
  have hc : Printed (.pair 0 (text "c", .list
      [.map [(text "d", .list [.scalar (text "e"), .scalar (text "f")])],
        .list [.scalar (text "g")]])) (text "c:\n  - d: [e, f]\n  - - g\n") :=
    .pairDeeper (word_sampleText _ (by simp))
      (@Printed.deeper 0 _ [] [ch ' ', ch ' '] _ (hspaces 0) (hspaces 2) (by decide)
        (.list (@Printed.items 2 _ _ [ch ' ', ch ' '] _ _ (hspaces 2) rfl hfirst
          (.lastItem hsecond))))
  have hsorted : text "a" < text "c" := by decide +kernel
  exact @PrintedDocument.intro 0 _ [] _ (hspaces 0) rfl
    (.map (List.pairwise_pair.mpr hsorted) (List.Perm.refl _)
      (@Printed.pairs 0 _ _ [] _ _ (hspaces 0) rfl ha (.lastPair hc)))

theorem returns_sampleText : Returns sampleText (.nodes [sampleNode]) :=
  (returns_iff_of_printed printed_sampleNode (by decide +kernel) _).mpr rfl

/-- A map with the key `---a` is printed as a document without anything in it. -/
theorem not_returns_marked :
    ¬ ∀ d node input, PrintedDocument d node input → Returns input (.nodes [node]) := by
  intro hall
  have hwords : ∀ w ∈ [text "---a", text "b"], Word w := by decide +kernel
  have hprinted : PrintedDocument 0 (.map [(text "---a", .scalar (text "b"))])
      (text "---\n---a: b\n...\n") :=
    @PrintedDocument.intro 0 _ [] _ (blanks_replicate 0) rfl
      (.map (List.pairwise_singleton _ _) (List.Perm.refl _)
        (.lastPair (@Printed.pairInline 0 _ [ch ' '] _ _ (hwords _ (by simp)) (blanks_replicate 1)
          (.scalar (hwords _ (by simp))))))
  have htokens : Tokenizes (text "---\n---a: b\n...\n")
      (.tokens [⟨.endMarker, 0⟩, ⟨.endMarker, 4⟩, ⟨.endMarker, 12⟩]) :=
    ends_of_next rfl (ends_of_next rfl (ends_of_next rfl (ends_of_done rfl)))
  cases hall _ _ _ hprinted with
  | @nodes tokens rest fuel _ h hparse =>
    obtain rfl := Outcome.tokens.inj (htokens.unique h)
    rcases fuel with _ | _ | _ | _ | fuel <;> simp [parseDocuments] at hparse

end Mold.MachO.Yaml
