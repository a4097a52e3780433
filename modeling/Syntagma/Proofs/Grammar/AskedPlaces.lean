import Syntagma.Proofs.Automaton.StrategyAgreement
import Syntagma.Proofs.Grammar.OutsideTokens
import Syntagma.Proofs.Grammar.SealedPlaces
import Syntagma.Proofs.Grammar.TokenNumbers

/-! What scripts are asked for. Wherever the analysis gets to from the axiom, it asks for listed
terminals, defined tokens, mediums and factors, if no medium outside of tokens uses one that was
defined inside. A class or an unlisted terminal of such a medium is asked for, and no token of a
script can answer. -/

namespace Syntagma

/-- The positions that the analysis can get to from the axiom. -/
inductive Grammar.Asks (g : Grammar) : NodeId → Prop where
  | start : g.Asks g.axiomId
  | step {id next : NodeId} {t : Trie} : g.Asks id → g.trie? id = some t →
      next ∈ PushdownAutomaton.successors g t → g.Asks next

namespace Definition

/-- No medium outside of tokens uses one inside, and the whole is a medium. -/
def Parted (definition : Definition) : Prop :=
  definition.kind = .medium ∧ ∀ user ∈ definition.placed false, user.1 = false →
    user.2.kind = .medium → ∀ used ∈ definition.placed false, used.1 = true →
      used.2.kind = .medium → ∀ production ∈ user.2.productions,
        Symbol.named used.2.name ∉ production

instance (definition : Definition) : Decidable definition.Parted := instDecidableAnd

theorem mem_placed (definition : Definition) (inside : Bool) :
    (inside, definition) ∈ definition.placed inside := by
  obtain ⟨name, kind, cases⟩ := definition
  unfold placed
  exact List.mem_cons_self

theorem exists_placed {definition inner : Definition} (h : inner ∈ definition.all) :
    ∃ inside, (inside, inner) ∈ definition.placed false := by
  rw [← map_placed false] at h
  obtain ⟨⟨inside, _⟩, hm, rfl⟩ := List.mem_map.1 h
  exact ⟨inside, hm⟩

theorem mem_all_of_placed {definition inner : Definition} {inside : Bool}
    (h : (inside, inner) ∈ definition.placed false) : inner ∈ definition.all := by
  rw [← map_placed false]
  exact List.mem_map.2 ⟨_, h, rfl⟩

end Definition

namespace Node

theorem isTerminal_of_isMedium {n : Node} (h : n.isMedium) : n.isTerminal = false := by
  obtain ⟨id, name, execClass, kind⟩ := n
  cases kind with
  | terminal data => exact nomatch h
  | _ => rfl

theorem isAnswerable_of_tokenSymbol? {n : Node} (h : n.tokenSymbol?.isSome) : n.isAnswerable := by
  obtain ⟨id, name, execClass, kind⟩ := n
  cases kind with
  | terminal data =>
    obtain ⟨isControl, isListed, _, _, _, _, _⟩ := data
    cases isListed with
    | false => exact nomatch h
    | true => rfl
  | symbolClass data => exact nomatch h
  | medium data => rfl
  | factor trie => exact nomatch h

theorem isAnswerable_or_isFactor_of_trie? {n : Node} (h : n.trie?.isSome) :
    n.isAnswerable ∨ n.isFactor := by
  obtain ⟨id, name, execClass, kind⟩ := n
  cases kind with
  | medium data => exact .inl rfl
  | factor trie => exact .inr rfl
  | _ => exact nomatch h

end Node

namespace Draft

/-- What scripts have tokens for. -/
def HasToken (d : Draft) (id : NodeId) : Prop := ((d.nodes[id]?).bind (·.tokenSymbol?)).isSome

/-- The mediums of the description that stand outside of tokens. -/
def Outside (d : Draft) (definition : Definition) (id : NodeId) : Prop :=
  ∃ inner, (false, inner) ∈ definition.placed false ∧ inner.kind = .medium ∧
    d.symbol? id = some (.named inner.name)

variable {d d' : Draft} {definition : Definition} {options : GrammarOptions} {start : NodeId}

/-- A node that can be answered is one that scripts have tokens for, or a medium that is none. -/
theorem hasToken_or_isMedium {id : NodeId} {n : Node} (hn : d.nodes[id]? = some n)
    (ha : n.isAnswerable) : d.HasToken id ∨ n.isMedium ∧ n.isDefinedToken = false := by
  rw [HasToken, hn, Option.bind_some]
  obtain ⟨id, name, execClass, kind⟩ := n
  cases kind with
  | terminal data =>
    obtain ⟨isControl, isListed, _, _, _, _, _⟩ := data
    cases isListed with
    | false => exact nomatch ha
    | true => exact .inl rfl
  | symbolClass data => exact nomatch ha
  | medium data =>
    obtain ⟨cases, trie, token, isSynthetic⟩ := data
    cases token with
    | none => exact .inr ⟨rfl, rfl⟩
    | some tag => exact .inl rfl
  | factor trie => exact nomatch ha

/-- A medium that is no token was defined as such. -/
theorem Holds.kind_eq_medium {id : NodeId} (h : d.Holds id definition) {n : Node}
    (hn : d.nodes[id]? = some n) (hm : n.isMedium) (ht : n.isDefinedToken = false) :
    definition.kind = .medium := by
  have hmedium := h.medium
  have htoken := h.token
  rw [shape?, hn, Option.map_some, Option.any_some, Node.isMedium_shape, hm] at hmedium
  rw [isTokenKey, shape?, hn, Option.map_some, Option.any_some, Node.isTokenKey_shape,
    Node.isTokenKey, Node.isTerminal_of_isMedium hm, ht] at htoken
  cases hk : definition.kind with
  | symbolClass key symbols =>
    rw [hk] at hmedium
    exact absurd hmedium.symm Bool.false_ne_true
  | token className execClass =>
    rw [hk] at htoken
    exact absurd htoken Bool.false_ne_true
  | medium => rfl

/-- A medium that is no token has its place in the description. -/
theorem exists_medium_placed (h : Added .empty d definition.all) {id : NodeId} {n : Node}
    (hn : d.nodes[id]? = some n) (hm : n.isMedium) (ht : n.isDefinedToken = false) :
    ∃ inside inner, (inside, inner) ∈ definition.placed false ∧ inner.kind = .medium ∧
      d.symbol? id = some (.named inner.name) := by
  rcases h.new id (Nat.zero_le _) (Array.getElem?_eq_some_iff.1 hn).1 with
    ⟨text, hs⟩ | ⟨inner, hall, hheld⟩
  · rw [symbol?_eq, hn, Option.bind_some] at hs
    have hterminal := (symbol?_eq_terminal_iff.1 hs).1
    rw [Node.isTerminal_of_isMedium hm] at hterminal
    exact nomatch hterminal
  · obtain ⟨inside, hplaced⟩ := Definition.exists_placed hall
    exact ⟨inside, inner, hplaced, hheld.kind_eq_medium hn hm ht, hheld.symbol⟩

/-- Once a parted description is entered, the mediums outside of tokens use tokens and one another
only. -/
theorem sealed_of_parted (h : addDefinition options false definition .empty = .ok (start, d))
    (hp : definition.Parted) : Sealed d.HasToken (d.Outside definition) d := by
  obtain ⟨hd, hadded, -⟩ := addDefinition_added proper_empty h
  have hanswers := addDefinition_answers proper_empty h
  have hholds {id : NodeId} {inner : Definition} (hm : (false, inner) ∈ definition.placed false)
      (hs : d.symbol? id = some (.named inner.name)) : d.Holds id inner := by
    obtain ⟨i, -, hi⟩ := hadded.holds inner (Definition.mem_all_of_placed hm)
    rwa [hd.symbol_inj _ _ _ hs hi.symbol]
  refine ⟨fun id hid => ?_, fun id hid case hc x hx => ?_, fun id t _ ht => ?_⟩
  · obtain ⟨inner, hm, hk, hs⟩ := hid
    refine isSome_trie?_of_isMedium ?_
    rw [(hholds hm hs).medium, hk]
    rfl
  · obtain ⟨user, hm, hk, hs⟩ := hid
    have hcase : case.map d.symbol? ∈ user.productions.map (·.map some) := by
      rw [← (hholds hm hs).cases]
      exact List.mem_map_of_mem hc
    obtain ⟨production, hproduction, heq⟩ := List.mem_map.1 hcase
    have hsymbol : d.symbol? x ∈ production.map some := heq ▸ List.mem_map_of_mem hx
    obtain ⟨s, hin, hxs⟩ := List.mem_map.1 hsymbol
    obtain ⟨i, n, hn, hns, ha⟩ := hanswers.admits user hm hk production hproduction s hin
    have hi : d.symbol? i = some s := by rw [symbol?_eq, hn, Option.bind_some, hns]
    obtain rfl := hd.symbol_inj _ _ _ hi hxs.symm
    refine (hasToken_or_isMedium hn ha).imp_right (fun ⟨hmedium, htoken⟩ => ?_)
    -- the medium was defined somewhere, and not inside a token
    obtain ⟨inside, used, hplaced, hkind, hname⟩ :=
      exists_medium_placed hadded hn hmedium htoken
    cases inside with
    | false => exact ⟨used, hplaced, hkind, hname⟩
    | true =>
      rw [hname, Option.some.injEq] at hi
      exact absurd (hi ▸ hin) (hp.2 _ hm rfl hk _ hplaced rfl hkind production hproduction)
  · rw [hd.trie_empty id t ht]
    exact Trie.over_empty _ _

theorem Sealed.of_shape? {token place : NodeId → Prop} (h : Sealed token place d)
    (hs : ∀ i, d'.shape? i = d.shape? i) : Sealed token place d' := by
  have htrie (i : NodeId) : d'.trie? i = d.trie? i := by rw [trie?, hs, trie?]
  have hcases (i : NodeId) : d'.casesOf i = d.casesOf i := by rw [casesOf_eq, hs, casesOf_eq]
  exact ⟨fun i hi => htrie i ▸ h.isSome i hi, fun i hi => hcases i ▸ h.cases i hi,
    fun i t hi ht => h.tries i t hi (htrie i ▸ ht)⟩

end Draft

namespace Compiled

variable {description : GrammarDescription} {options : GrammarOptions} {g : Grammar}
  {start : NodeId} {entered classed factorized : Draft} {place : NodeId → Prop}

theorem sameTokens (h : Compiled description options g start entered classed factorized) :
    entered.SameTokens factorized := by
  obtain ⟨_, _, rfl⟩ := h.numbered
  exact (Draft.sameTokens_classed entered _ _).trans (Draft.edited_factorizeAll h.factorize).sameTokens

/-- A node that scripts have tokens for is published as such. -/
theorem exists_of_hasToken (h : Compiled description options g start entered classed factorized)
    {id : NodeId} (ht : entered.HasToken id) :
    ∃ n, g.node? (factorized.newId id) = some n ∧ n.tokenSymbol?.isSome := by
  rw [Draft.HasToken, ← h.sameTokens id] at ht
  obtain ⟨s, hs⟩ := Option.isSome_iff_exists.1 ht
  obtain ⟨n, hn, hs⟩ := Option.bind_eq_some_iff.1 hs
  refine ⟨_, h.publish.node id n hn, ?_⟩
  rw [Node.tokenSymbol?_mapIds, hs]
  rfl

theorem not_isEntered (h : Compiled description options g start entered classed factorized)
    {id : NodeId} (ht : entered.HasToken id) :
    PushdownAutomaton.isEntered g (factorized.newId id) = false := by
  obtain ⟨n, hn, hs⟩ := h.exists_of_hasToken ht
  obtain ⟨s, hs⟩ := Option.isSome_iff_exists.1 hs
  rw [PushdownAutomaton.isEntered, Grammar.isTokenKey, hn, Option.any_some,
    Node.isTokenKey_of_tokenSymbol? hs]
  rfl

/-- From a place, the analysis gets to places only. -/
theorem place_of_asks (h : Compiled description options g start entered classed factorized)
    (hsealed : factorized.Sealed entered.HasToken place) (hstart : place start) {id : NodeId}
    (ha : g.Asks id) : ∃ i, factorized.newId i = id ∧ place i := by
  induction ha with
  | start => exact ⟨start, h.axiomId_eq.symm, hstart⟩
  | step _ ht hnext ih =>
    obtain ⟨i, rfl, hi⟩ := ih
    rw [h.publish.trie? (hsealed.lt_size hi)] at ht
    obtain ⟨t, ht', rfl⟩ := Option.map_eq_some_iff.1 ht
    have hover := hsealed.tries i t hi ht'
    rcases List.mem_append.1 hnext with hnext | hnext
    · obtain ⟨_, he, hnext⟩ := List.mem_flatMap.1 hnext
      obtain ⟨e, hmem, rfl⟩ := List.mem_map.1 he
      rcases List.mem_append.1 hnext with hnext | hnext
      · obtain ⟨x, hx, rfl⟩ := Option.map_eq_some_iff.1 (Option.mem_toList.1 hnext)
        exact ⟨x, rfl, hover.continuation e hmem x hx⟩
      · rw [List.mem_ite_nil_right, List.mem_singleton] at hnext
        obtain ⟨hentered, rfl⟩ := hnext
        refine ⟨e.1, rfl, (hover.heads e hmem).resolve_left (fun htoken => ?_)⟩
        rw [h.not_isEntered htoken] at hentered
        exact nomatch hentered
    · obtain ⟨x, hx, rfl⟩ := Option.map_eq_some_iff.1 (Option.mem_toList.1 hnext)
      exact ⟨x, rfl, hover.recursion x hx⟩

/-- What the trie of a place names is a listed terminal, a defined token, a medium or a factor. -/
theorem isAnswerable_of_place (h : Compiled description options g start entered classed factorized)
    (hsealed : factorized.Sealed entered.HasToken place) {i : NodeId} (hi : place i) {t : Trie}
    (ht : g.trie? (factorized.newId i) = some t) :
    ∀ e ∈ t.cases, ∃ n, g.node? e.1 = some n ∧ (n.isAnswerable ∨ n.isFactor) := by
  rw [h.publish.trie? (hsealed.lt_size hi)] at ht
  obtain ⟨t, ht', rfl⟩ := Option.map_eq_some_iff.1 ht
  intro _ he
  obtain ⟨e, hmem, rfl⟩ := List.mem_map.1 he
  rcases (hsealed.tries i t hi ht').heads e hmem with htoken | hplace
  · obtain ⟨n, hn, hs⟩ := h.exists_of_hasToken htoken
    exact ⟨n, hn, .inl (Node.isAnswerable_of_tokenSymbol? hs)⟩
  · have htrie : (g.trie? (factorized.newId e.1)).isSome := by
      rw [h.publish.trie? (hsealed.lt_size hplace), Option.isSome_map]
      exact hsealed.isSome e.1 hplace
    obtain ⟨t', ht'⟩ := Option.isSome_iff_exists.1 htrie
    obtain ⟨n, hn, ht'⟩ := Option.bind_eq_some_iff.1 ht'
    exact ⟨n, hn, Node.isAnswerable_or_isFactor_of_trie? (by rw [ht']; rfl)⟩

end Compiled

/-- Wherever the analysis gets to, it asks for listed terminals, defined tokens, mediums and factors
only, if the description is parted: never for a class or an unlisted terminal. -/
theorem isAnswerable_of_asks {description : GrammarDescription} {options : GrammarOptions}
    {g : Grammar} (h : Grammar.compile description options = .ok g)
    (hp : description.axiomDefinition.Parted) {id : NodeId} {t : Trie} (ha : g.Asks id)
    (ht : g.trie? id = some t) :
    ∀ e ∈ t.cases, ∃ n, g.node? e.1 = some n ∧ (n.isAnswerable ∨ n.isFactor) := by
  obtain ⟨start, entered, classed, factorized, hc⟩ := compiled_of_compile h
  have hsealed := (Draft.sealed_of_parted hc.entry hp).of_shape? hc.shape
  obtain ⟨place, hsub, hsealed⟩ :=
    hsealed.factorizeAll hc.proper.sound hc.proper.unfactorized hc.factorize
  obtain ⟨-, -, hsymbol⟩ := Draft.addDefinition_added Draft.proper_empty hc.entry
  have hstart : entered.Outside description.axiomDefinition start :=
    ⟨_, description.axiomDefinition.mem_placed false, hp.1, hsymbol⟩
  obtain ⟨i, rfl, hi⟩ := hc.place_of_asks hsealed (hsub start hstart) ha
  exact hc.isAnswerable_of_place hsealed hi ht

/-- Lists of words, and of whatever the further cases say. The parts of a word stand inside of
it. -/
def wordLists (more : List (List CaseElement)) : GrammarDescription :=
  descriptionOf (.mk "List" .medium
    ([[.reference "List", literal ",", .definition (.mk "Word" (.token "word" none)
        [[.definition (.mk "Letter" (.symbolClass "letter" "ab") []), .reference "Word"],
          [.definition (.mk "Part" .medium [[.reference "Letter"], [literal "-"]])]])],
      [.reference "Word"]] ++ more))

/-- Wherever the analysis of a list of words gets to, it asks for nothing but what it should, though
the letters and the dash have nodes as well. -/
theorem isAnswerable_in_wordLists : ∃ g, Grammar.compile (wordLists []) {} = .ok g ∧
    (wordLists []).axiomDefinition.Parted ∧ g.Asks g.axiomId ∧
      (g.nodeList.filter (fun n => !n.isAnswerable && !n.isFactor)).map (·.name) =
        ["Letter", "-"] ∧
      ∀ (id : NodeId) (t : Trie), g.Asks id → g.trie? id = some t →
        ∀ e ∈ t.cases, ∃ n, g.node? e.1 = some n ∧ (n.isAnswerable ∨ n.isFactor) := by
  have hcompiled : (Grammar.compile (wordLists []) {}).map
      (fun g => (g.nodeList.filter (fun n => !n.isAnswerable && !n.isFactor)).map (·.name)) =
        .ok ["Letter", "-"] := by cbv
  have hparted : (wordLists []).axiomDefinition.Parted := by decide
  obtain ⟨g, hg, hnames⟩ := Fault.map_eq_ok_iff.1 hcompiled
  exact ⟨g, hg, hparted, .start, hnames, fun id t ha ht => isAnswerable_of_asks hg hparted ha ht⟩

/-- With a part of a word in the list itself, the analysis gets to the part, and asks for a class
and for a terminal that is not listed. -/
theorem asks_for_parts : ∃ g id t,
    Grammar.compile (wordLists [[.reference "Part", literal ";"]]) {} = .ok g ∧
      g.Asks id ∧ g.trie? id = some t ∧ (∃ e ∈ t.cases, (g.node? e.1).any (·.isClass)) ∧
        ∃ e ∈ t.cases, (g.node? e.1).any (fun n => n.isTerminal && !n.isListedTerminal) := by
  have hcompiled : (Grammar.compile (wordLists [[.reference "Part", literal ";"]]) {}).map
      (fun g => (g.axiomId, g.trie? 4, PushdownAutomaton.isEntered g 5, g.trie? 5,
        (g.node? 3).any (·.isClass),
        (g.node? 16).any (fun n => n.isTerminal && !n.isListedTerminal))) =
      .ok (4, some ⟨[(2, some 8), (5, some 10)], false, none⟩, true,
        some ⟨[(3, none), (16, none)], false, none⟩, true, true) := by cbv
  obtain ⟨g, hg, hparts⟩ := Fault.map_eq_ok_iff.1 hcompiled
  simp only [Prod.mk.injEq] at hparts
  obtain ⟨hstart, hlist, hentered, hpart, hclass, hterminal⟩ := hparts
  have hasked : g.Asks 5 := by
    refine .step (hstart ▸ .start) hlist ?_
    simp [PushdownAutomaton.successors, hentered]
  exact ⟨g, 5, _, hg, hasked, hpart, ⟨(3, none), by simp, hclass⟩, ⟨(16, none), by simp, hterminal⟩⟩

end Syntagma
