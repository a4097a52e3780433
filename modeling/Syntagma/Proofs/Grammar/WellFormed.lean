import Syntagma.Proofs.Automaton.StrategyAgreement
import Syntagma.Proofs.Dictionary
import Syntagma.Proofs.Grammar.Leaves
import Syntagma.Proofs.Grammar.Sprouting
import Syntagma.Proofs.Grammar.TokenNumbers

/-! Compiled grammars are well formed. The layers of the factorized draft are still there after
publication: numbers are in range and in groups, tries go on with factors, and a factor stands
before another one in loops alone. -/

namespace Syntagma

namespace Node

/-- The group in which a node is published: listed terminals, defined tokens, classes, the other
mediums of the description, then the mediums and factors made on the way, and at last the terminals
that are parts of tokens only. -/
def group (n : Node) : Nat :=
  if n.isListedTerminal then 0
  else if n.isDefinedToken then 1
  else if n.isClass then 2
  else if n.isMedium && !n.isSynthetic then 3
  else if n.isTerminal then 5
  else 4

theorem rank_eq_group (n : Node) : Draft.rank n = n.group := by
  obtain ⟨id, name, execClass, kind⟩ := n
  cases kind with
  | terminal data =>
    obtain ⟨isControl, isListed, _, _, _, _, _⟩ := data
    cases isListed <;> rfl
  | symbolClass data => rfl
  | medium data =>
    obtain ⟨cases, trie, token, isSynthetic⟩ := data
    cases token <;> cases isSynthetic <;> rfl
  | factor trie => rfl

variable (f : NodeId → NodeId) (n : Node)

theorem group_mapIds : (n.mapIds f).group = n.group := by
  obtain ⟨id, name, execClass, kind⟩ := n
  cases kind <;> rfl

theorem isFactor_mapIds : (n.mapIds f).isFactor = n.isFactor := by
  obtain ⟨id, name, execClass, kind⟩ := n
  cases kind <;> rfl

theorem isMedium_mapIds : (n.mapIds f).isMedium = n.isMedium := by
  obtain ⟨id, name, execClass, kind⟩ := n
  cases kind <;> rfl

theorem cases_mapIds : (n.mapIds f).cases = n.cases.map (·.map f) := by
  obtain ⟨id, name, execClass, kind⟩ := n
  cases kind <;> rfl

theorem isFactor_shape : n.shape.isFactor = n.isFactor := by
  obtain ⟨id, name, execClass, kind⟩ := n
  cases kind <;> rfl

end Node

namespace Grammar

/-- Whether the number is that of a factor. -/
def isFactor (g : Grammar) (id : NodeId) : Bool := (g.node? id).any (·.isFactor)

/-- A grammar whose nodes are numbered by place and group, and refer to one another as they
should. -/
structure WellFormed (g : Grammar) : Prop where
  id_eq (id : NodeId) (n : Node) : g.node? id = some n → n.id = id
  grouped (i j : NodeId) (n m : Node) : g.node? i = some n → g.node? j = some m → i < j →
    n.group ≤ m.group
  cases_lt (id : NodeId) (n : Node) : g.node? id = some n →
    ∀ case ∈ n.cases, ∀ x ∈ case, x < g.nodes.size
  heads_lt (id : NodeId) (t : Trie) : g.trie? id = some t → ∀ e ∈ t.cases, e.1 < g.nodes.size
  nodup (id : NodeId) (t : Trie) : g.trie? id = some t → (t.cases.map (·.1)).Nodup
  continuation (id : NodeId) (t : Trie) : g.trie? id = some t →
    ∀ e ∈ t.cases, ∀ next ∈ e.2, g.isFactor next
  recursion (id : NodeId) (t : Trie) : g.trie? id = some t → ∀ next ∈ t.recursion, g.isFactor next
  /-- Only in a loop a factor is a head. -/
  loop (id : NodeId) (t : Trie) : g.trie? id = some t → ∀ e ∈ t.cases, g.isFactor e.1 →
    g.isFactor id ∧ t = .loop e.1 id
  axiom_isMedium : (g.node? g.axiomId).any (·.isMedium)
  definitionOrder_lt : ∀ id ∈ g.definitionOrder, id < g.nodes.size
  indexes_lt : ∀ id ∈ g.terminalIndex.values ++ g.tokenIndex.values, id < g.nodes.size
  terminalByName?_iff (name : String) (id : NodeId) : g.terminalByName? name = some id ↔
    ∃ n, g.node? id = some n ∧ n.isListedTerminal ∧ n.name = name
  tokenByName?_iff (name : String) (id : NodeId) : g.tokenByName? name = some id ↔
    ∃ n, g.node? id = some n ∧ n.isDefinedToken ∧ n.name = name

theorem lt_size_of_node? {g : Grammar} {id : NodeId} {n : Node} (h : g.node? id = some n) :
    id < g.nodes.size :=
  (Array.getElem?_eq_some_iff.1 h).1

end Grammar

/-! ### Numbers of tokens -/

/-- What a token is called: the symbol of a listed terminal, or of a defined token. -/
theorem Node.tokenSymbol?_iff {n : Node} {name : String} :
    (n.tokenSymbol? = some (.terminal name) ↔ n.isListedTerminal ∧ n.name = name) ∧
      (n.tokenSymbol? = some (.named name) ↔ n.isDefinedToken ∧ n.name = name) := by
  obtain ⟨id, name', execClass, kind⟩ := n
  cases kind with
  | terminal data =>
    obtain ⟨isControl, isListed, _, _, _, _, _⟩ := data
    cases isListed <;> simp [tokenSymbol?, isListedTerminal, terminal?, isDefinedToken, tokenTag?,
      medium?, symbol?]
  | medium data =>
    obtain ⟨cases, trie, token, isSynthetic⟩ := data
    cases token <;> simp [tokenSymbol?, isListedTerminal, terminal?, isDefinedToken, tokenTag?,
      medium?, symbol?]
  | _ => simp [tokenSymbol?, isListedTerminal, terminal?, isDefinedToken, tokenTag?, medium?]

/-- No two numbers stand for one token. -/
theorem tokenSymbol?_inj_of_compile {description : GrammarDescription} {options : GrammarOptions}
    {g : Grammar} (h : Grammar.compile description options = .ok g) {i j : NodeId} {s : Symbol}
    (hi : g.tokenSymbol? i = some s) (hj : g.tokenSymbol? j = some s) : i = j := by
  obtain ⟨start, entered, hentry, hsymbols⟩ := tokenSymbol?_of_compile h
  have hproper := (Draft.addDefinition_added Draft.proper_empty hentry).1
  have hplace {i : NodeId} (hi : g.tokenSymbol? i = some s) : ∃ n : Node,
      entered.publishedOrder[i]? = some n ∧ entered.symbol? n.id = some s := by
    rw [hsymbols] at hi
    obtain ⟨n, hn, hs⟩ := Option.bind_eq_some_iff.1 hi
    have hnode := Draft.getElem?_id_of_mem hproper.id_eq
      (Draft.mem_publishedOrder.1 (List.mem_of_getElem? hn))
    refine ⟨n, hn, ?_⟩
    rw [Draft.symbol?_eq, hnode, Option.bind_some, Node.symbol?_of_tokenSymbol? hs]
  obtain ⟨n, hn, hs⟩ := hplace hi
  obtain ⟨m, hm, hs'⟩ := hplace hj
  have hids := hproper.symbol_inj _ _ s hs hs'
  have hi' : (entered.publishedOrder.map (·.id))[i]? = some n.id := by rw [List.getElem?_map, hn]; rfl
  have hj' : (entered.publishedOrder.map (·.id))[j]? = some m.id := by rw [List.getElem?_map, hm]; rfl
  refine (List.getElem?_inj (List.getElem?_eq_some_iff.1 hi').1
    (Draft.nodup_publishedOrder hproper.id_eq)).1 ?_
  rw [hi', hj', hids]

/-! ### Publication -/

namespace Draft

variable {d : Draft}

theorem publishedOrder_pairwise (d : Draft) :
    d.publishedOrder.Pairwise (fun n m => n.group ≤ m.group) := by
  have hgroup {r : Nat} {n : Node} (hn : n ∈ d.nodes.toList.filter (fun n => rank n == r)) :
      n.group = r :=
    (Node.rank_eq_group n).symm.trans (beq_iff_eq.1 (List.mem_filter.1 hn).2)
  refine List.pairwise_flatMap.2 ⟨fun r _ => List.pairwise_of_forall_mem_list ?_,
    List.pairwise_lt_range.imp ?_⟩
  · intro n hn m hm
    exact Nat.le_of_eq ((hgroup hn).trans (hgroup hm).symm)
  · intro r r' hlt n hn m hm
    rw [hgroup hn, hgroup hm]
    exact Nat.le_of_lt hlt

end Draft

namespace Publishes

variable {d : Draft} {g : Grammar} {f : NodeId → NodeId}

theorem lt (h : Publishes d g f) {i : NodeId} (hi : i < d.nodes.size) : f i < g.nodes.size :=
  Grammar.lt_size_of_node? (h.node i _ (Array.getElem?_eq_getElem hi))

theorem isFactor (h : Publishes d g f) {i : NodeId} (hi : i < d.nodes.size) :
    g.isFactor (f i) = (d.shape? i).any (·.isFactor) := by
  have hn := Array.getElem?_eq_getElem hi
  rw [Grammar.isFactor, h.node i _ hn, Option.any_some, Node.isFactor_mapIds, Draft.shape?, hn,
    Option.map_some, Option.any_some, Node.isFactor_shape]

theorem isMedium (h : Publishes d g f) {i : NodeId} (hi : i < d.nodes.size) :
    (g.node? (f i)).any (·.isMedium) = (d.shape? i).any (·.isMedium) := by
  have hn := Array.getElem?_eq_getElem hi
  rw [h.node i _ hn, Option.any_some, Node.isMedium_mapIds, Draft.shape?, hn, Option.map_some,
    Option.any_some, Node.isMedium_shape]

end Publishes

/-! ### Compiled grammars -/

namespace Compiled

variable {description : GrammarDescription} {options : GrammarOptions} {g : Grammar}
  {start : NodeId} {entered classed factorized : Draft}

/-- The nodes stand in the published order. -/
theorem node?_eq (h : Compiled description options g start entered classed factorized)
    (id : NodeId) :
    g.node? id = (factorized.publishedOrder[id]?).map (·.mapIds factorized.newId) := by
  obtain ⟨_, _, _, rfl⟩ := h.published
  exact Draft.node?_publish _ _ _ _ id

theorem group_le (h : Compiled description options g start entered classed factorized)
    {i j : NodeId} {n m : Node} (hi : g.node? i = some n) (hj : g.node? j = some m) (hlt : i < j) :
    n.group ≤ m.group := by
  rw [h.node?_eq] at hi hj
  obtain ⟨n, hn, rfl⟩ := Option.map_eq_some_iff.1 hi
  obtain ⟨m, hm, rfl⟩ := Option.map_eq_some_iff.1 hj
  obtain ⟨hi', rfl⟩ := List.getElem?_eq_some_iff.1 hn
  obtain ⟨hj', rfl⟩ := List.getElem?_eq_some_iff.1 hm
  rw [Node.group_mapIds, Node.group_mapIds]
  exact List.pairwise_iff_getElem.1 factorized.publishedOrder_pairwise i j hi' hj' hlt

theorem definitionOrder_lt (h : Compiled description options g start entered classed factorized) :
    ∀ id ∈ g.definitionOrder, id < g.nodes.size := by
  intro id hid
  have hpublish := h.publish
  obtain ⟨_, _, _, rfl⟩ := h.published
  rcases List.mem_append.1 hid with hid | hid
  · obtain ⟨n, hn, rfl⟩ := List.mem_map.1 hid
    have hnode := Draft.getElem?_id_of_mem h.sound.1.id_eq (List.mem_of_mem_filter hn)
    exact hpublish.lt (Array.getElem?_eq_some_iff.1 hnode).1
  · obtain ⟨n, hn, rfl⟩ := List.mem_map.1 hid
    have hmem := List.mem_of_mem_filter (List.mem_mergeSort.1 hn)
    obtain ⟨m, hm, rfl⟩ := List.mem_map.1 hmem
    have hnode := Draft.getElem?_id_of_mem h.sound.1.id_eq (Draft.mem_publishedOrder.1 hm)
    exact hpublish.lt (Array.getElem?_eq_some_iff.1 hnode).1

theorem cases_lt (h : Compiled description options g start entered classed factorized)
    {id : NodeId} {n : Node} (hn : g.node? id = some n) :
    ∀ case ∈ n.cases, ∀ x ∈ case, x < g.nodes.size := by
  obtain ⟨i, m, hm, rfl, rfl⟩ := h.publish.exists_of_node? hn
  have hs : factorized.shape? i = some m.shape := by rw [Draft.shape?, hm, Option.map_some]
  rw [Node.cases_mapIds, ← Node.cases_shape, ← Draft.casesOf_of_shape? hs]
  intro case hc x hx
  obtain ⟨case', hc', rfl⟩ := List.mem_map.1 hc
  obtain ⟨x', hx', rfl⟩ := List.mem_map.1 hx
  exact h.publish.lt (h.sound.1.cases_lt i case' hc' x' hx')

/-- The links of a layered draft, under their published numbers. -/
theorem links (h : Compiled description options g start entered classed factorized) {n : Nat}
    (hl : factorized.Layered n) {id : NodeId} {t : Trie} (ht : g.trie? id = some t) :
    (∀ e ∈ t.cases, e.1 < g.nodes.size) ∧ (∀ e ∈ t.cases, ∀ next ∈ e.2, g.isFactor next) ∧
      (∀ next ∈ t.recursion, g.isFactor next) ∧
      ∀ e ∈ t.cases, g.isFactor e.1 → g.isFactor id ∧ t = .loop e.1 id := by
  have hp := h.publish
  obtain ⟨i, hi, rfl, s, hs, rfl⟩ := hp.exists_of_trie? ht
  have hf := h.sound.1.fits i s hs
  obtain ⟨hcontinuation, hrecursion, hloop⟩ := hl.links hs hf
  have hfactor {x : NodeId} (hx : (factorized.shape? x).any (·.isFactor)) :
      g.isFactor (factorized.newId x) := by
    obtain ⟨m, hm, -⟩ := (Option.any_eq_true _ _).1 hx
    rwa [hp.isFactor (Draft.lt_size_of_shape? hm)]
  refine ⟨fun e he => ?_, fun e he next hn => ?_, fun next hn => ?_, fun e he hx => ?_⟩
  · obtain ⟨e', he', rfl⟩ := List.mem_map.1 he
    exact hp.lt (hf.heads_lt e' he')
  · obtain ⟨e', he', rfl⟩ := List.mem_map.1 he
    obtain ⟨next', hn', rfl⟩ := Option.map_eq_some_iff.1 hn
    exact hfactor (hcontinuation e' he' next' hn')
  · obtain ⟨next', hn', rfl⟩ := Option.map_eq_some_iff.1 hn
    exact hfactor (hrecursion next' hn')
  · obtain ⟨e', he', rfl⟩ := List.mem_map.1 he
    rw [hp.isFactor (hf.heads_lt e' he')] at hx
    obtain ⟨hself, rfl⟩ := hloop e' he' hx
    exact ⟨hfactor hself, rfl⟩

end Compiled

namespace Classified

variable {entered : Draft} {g : Grammar} {f : NodeId → NodeId}

theorem mem_nodeList (h : Classified entered g f) {n : Node} :
    n ∈ g.nodeList ↔ g.node? n.id = some n := by
  rw [Grammar.nodeList, List.mem_iff_getElem?]
  constructor
  · rintro ⟨i, hi⟩
    rw [Array.getElem?_toList] at hi
    rwa [h.id_eq i n hi]
  · exact fun hn => ⟨n.id, by rw [Array.getElem?_toList]; exact hn⟩

theorem isMedium_of_mem_tokens (h : Classified entered g f) {token : Node} (ht : token ∈ g.tokens) :
    (g.node? token.id).any (·.isMedium) := by
  obtain ⟨hmem, htoken⟩ := List.mem_filter.1 ht
  have hn := h.mem_nodeList.1 hmem
  obtain ⟨id, name, execClass, kind⟩ := token
  cases kind with
  | medium data => simp [hn, Node.isMedium, Node.medium?]
  | _ => cases htoken

/-- An index over the nodes of one kind finds by its name exactly the node of this kind, as long as
no two of them share their name. -/
theorem get?_index_iff (h : Classified entered g f) {kind : Node → Bool}
    (hinj : ∀ i j n m, g.node? i = some n → g.node? j = some m → kind n → kind m →
      n.name = m.name → i = j) (name : String) (id : NodeId) :
    (Dictionary.ofList ((g.nodeList.filter kind).map (fun n => (n.name, n.id)))).get? name =
      some id ↔ ∃ n, g.node? id = some n ∧ kind n ∧ n.name = name := by
  constructor
  · intro hget
    obtain ⟨n, hn, heq⟩ := List.mem_map.1 (Dictionary.mem_of_get?_ofList hget)
    obtain ⟨rfl, rfl⟩ := Prod.mk.inj heq
    obtain ⟨hmem, hkind⟩ := List.mem_filter.1 hn
    exact ⟨n, h.mem_nodeList.1 hmem, hkind, rfl⟩
  · rintro ⟨n, hn, hkind, rfl⟩
    have hid := h.id_eq id n hn
    have hmem : n ∈ g.nodeList.filter kind :=
      List.mem_filter.2 ⟨h.mem_nodeList.2 (hid.symm ▸ hn), hkind⟩
    refine Dictionary.get?_ofList_of_forall
      (List.mem_map.2 ⟨_, List.mem_map.2 ⟨n, hmem, rfl⟩, rfl⟩) (fun e he hname => ?_)
    obtain ⟨m, hm, rfl⟩ := List.mem_map.1 he
    obtain ⟨hm, hkind'⟩ := List.mem_filter.1 hm
    exact hinj m.id id m n (h.mem_nodeList.1 hm) hn hkind' hkind hname

end Classified

section Names

variable {description : GrammarDescription} {options : GrammarOptions} {g : Grammar}

theorem eq_of_tokenSymbol?_of_compile (h : Grammar.compile description options = .ok g) {i j : NodeId}
    {n m : Node} {s : Symbol} (hi : g.node? i = some n) (hj : g.node? j = some m)
    (hn : n.tokenSymbol? = some s) (hm : m.tokenSymbol? = some s) : i = j := by
  refine tokenSymbol?_inj_of_compile h (s := s) ?_ ?_
  · rw [Grammar.tokenSymbol?, hi, Option.bind_some, hn]
  · rw [Grammar.tokenSymbol?, hj, Option.bind_some, hm]

/-- The listed terminals are found by their names. -/
theorem terminalByName?_iff_of_compile (h : Grammar.compile description options = .ok g)
    (name : String) (id : NodeId) : g.terminalByName? name = some id ↔
      ∃ n, g.node? id = some n ∧ n.isListedTerminal ∧ n.name = name := by
  obtain ⟨_, _, _, -, hclassified⟩ := classified_of_compile h
  rw [Grammar.terminalByName?, hclassified.terminalIndex]
  exact hclassified.get?_index_iff (fun i j n m hi hj hn hm hname =>
    eq_of_tokenSymbol?_of_compile h hi hj (Node.tokenSymbol?_iff.1.2 ⟨hn, rfl⟩)
      (Node.tokenSymbol?_iff.1.2 ⟨hm, hname.symm⟩)) name id

/-- The defined tokens are found by their names. -/
theorem tokenByName?_iff_of_compile (h : Grammar.compile description options = .ok g)
    (name : String) (id : NodeId) : g.tokenByName? name = some id ↔
      ∃ n, g.node? id = some n ∧ n.isDefinedToken ∧ n.name = name := by
  obtain ⟨_, _, _, -, hclassified⟩ := classified_of_compile h
  rw [Grammar.tokenByName?, hclassified.tokenIndex]
  exact hclassified.get?_index_iff (fun i j n m hi hj hn hm hname =>
    eq_of_tokenSymbol?_of_compile h hi hj (Node.tokenSymbol?_iff.2.2 ⟨hn, rfl⟩)
      (Node.tokenSymbol?_iff.2.2 ⟨hm, hname.symm⟩)) name id

end Names

/-- Every compiled grammar is well formed. -/
theorem wellFormed_of_compile {description : GrammarDescription} {options : GrammarOptions}
    {g : Grammar} (h : Grammar.compile description options = .ok g) : g.WellFormed := by
  obtain ⟨start, entered, classed, factorized, hc⟩ := compiled_of_compile h
  obtain ⟨n, hl⟩ := Draft.exists_layered hc.proper.sound hc.proper.unfactorized hc.factorize
  obtain ⟨_, _, _, -, hclassified⟩ := classified_of_compile h
  have hterminals := terminalByName?_iff_of_compile h
  have htokens := tokenByName?_iff_of_compile h
  refine ⟨hclassified.id_eq, fun i j n m hi hj hlt => hc.group_le hi hj hlt,
    fun id n hn => hc.cases_lt hn, fun id t ht => (hc.links hl ht).1, (linked_of_compile h).nodup,
    fun id t ht => (hc.links hl ht).2.1, fun id t ht => (hc.links hl ht).2.2.1,
    fun id t ht => (hc.links hl ht).2.2.2, ?_, hc.definitionOrder_lt, fun id hid => ?_,
    hterminals, htokens⟩
  · have hstart := Draft.lt_size_of_isMedium hc.start_isMedium
    rw [hc.axiomId_eq, hc.publish.isMedium (Nat.lt_of_lt_of_le hstart hc.sound.2.size_le),
      hc.sound.2.isMedium hstart]
    exact hc.start_isMedium
  · rcases List.mem_append.1 hid with hid | hid
    · obtain ⟨⟨name, _⟩, he, rfl⟩ := List.mem_map.1 hid
      obtain ⟨n, hn, -⟩ := (hterminals name _).1 (Dictionary.mem_entries_iff.1 he)
      exact Grammar.lt_size_of_node? hn
    · obtain ⟨⟨name, _⟩, he, rfl⟩ := List.mem_map.1 hid
      obtain ⟨n, hn, -⟩ := (htokens name _).1 (Dictionary.mem_entries_iff.1 he)
      exact Grammar.lt_size_of_node? hn

/-- Sums of names with a sign behind: left-recursive, with a token, a class, and a terminal that is
a part of the token only. -/
def closedSums : GrammarDescription :=
  descriptionOf (.mk "Line" .medium
    [[.definition (.mk "Sum" .medium
        [[.reference "Sum", literal "+", .definition (.mk "Name" (.token "name" none)
          [[literal "_", .definition (.mk "Letter" (.symbolClass "letter" "ab") [])]])],
        [.reference "Name"]]),
      literal ";"]])

/-- With its left recursion kept, the sums have nodes of all groups, and a loop. -/
theorem wellFormed_closedSums : ∃ g,
    Grammar.compile closedSums { removeLeftRecursion := false } = .ok g ∧ g.WellFormed ∧
      g.nodeList.map (·.group) = [0, 0, 1, 2, 3, 3, 4, 4, 4, 4, 4, 5] ∧
      g.trie? 9 = some (.loop 8 9) ∧ g.isFactor 8 := by
  have hcompiled : (Grammar.compile closedSums { removeLeftRecursion := false }).map
      (fun g => (g.nodeList.map (·.group), g.trie? 9, g.isFactor 8)) =
        .ok ([0, 0, 1, 2, 3, 3, 4, 4, 4, 4, 4, 5], some (.loop 8 9), true) := by cbv
  obtain ⟨g, hg, hparts⟩ := Fault.map_eq_ok_iff.1 hcompiled
  obtain ⟨hgroups, hrest⟩ := Prod.mk.inj hparts
  obtain ⟨hloop, hfactor⟩ := Prod.mk.inj hrest
  exact ⟨g, hg, wellFormed_of_compile hg, hgroups, hloop, hfactor⟩

end Syntagma
