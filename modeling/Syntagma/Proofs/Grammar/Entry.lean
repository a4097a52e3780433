import Syntagma.Proofs.Fault
import Syntagma.Proofs.Grammar.Shape

/-! Entering a description. Each definition that is met gets one node of its name and kind, and
the cases of the node spell the symbols of the cases of the definition. Nodes that were there
before keep their shape. -/

namespace Syntagma

/-- The symbol an element stands for; a definition on the spot stands for its name. -/
def CaseElement.symbol : CaseElement → Symbol
  | .reference name => .named name
  | .terminal spec => .terminal spec.text
  | .definition inner => .named inner.name

mutual

/-- A definition and all definitions inside its cases. What stands inside the cases of a class is
not part of the grammar. -/
def Definition.all : Definition → List Definition
  | .mk name kind cases =>
    .mk name kind cases :: if Draft.isClassKind kind then [] else definitionsInCases cases

def definitionsInElement : CaseElement → List Definition
  | .reference _ => []
  | .terminal _ => []
  | .definition definition => definition.all

def definitionsInCase : List CaseElement → List Definition
  | [] => []
  | e :: rest => definitionsInElement e ++ definitionsInCase rest

def definitionsInCases : List (List CaseElement) → List Definition
  | [] => []
  | c :: rest => definitionsInCase c ++ definitionsInCases rest

end

/-- The cases of a definition as sequences of symbols. A class has none. -/
def Definition.productions (definition : Definition) : List (List Symbol) :=
  if Draft.isClassKind definition.kind then []
  else definition.cases.map (·.map CaseElement.symbol)

namespace Draft

/-- A draft as a description gives it: numbered in order, without factors and tries, with one node
to a symbol, and with cases that refer to its own nodes. -/
structure Proper (d : Draft) : Prop where
  id_eq (id : NodeId) (n : Node) : d.shape? id = some n → n.id = id
  not_factor (id : NodeId) (n : Node) : d.shape? id = some n → n.isFactor = false
  trie_empty (id : NodeId) (trie : Trie) : d.trie? id = some trie → trie = .empty
  symbol_inj (i j : NodeId) (s : Symbol) : d.symbol? i = some s → d.symbol? j = some s → i = j
  cases_lt (id : NodeId) : ∀ case ∈ d.casesOf id, ∀ x ∈ case, x < d.nodes.size

/-- A node that stands for a definition, with the symbols of its cases in place. -/
structure Holds (d : Draft) (id : NodeId) (definition : Definition) : Prop where
  symbol : d.symbol? id = some (.named definition.name)
  medium : (d.shape? id).any (·.isMedium) = !isClassKind definition.kind
  token : d.isTokenKey id = isTokenKind definition.kind
  cases : (d.casesOf id).map (·.map d.symbol?) = definition.productions.map (·.map some)

/-- Between the two drafts the definitions were entered, and nothing but terminals besides. -/
structure Added (d d' : Draft) (definitions : List Definition) : Prop where
  grows : d.Grows d'
  holds : ∀ definition ∈ definitions, ∃ id, d.nodes.size ≤ id ∧ d'.Holds id definition
  new : ∀ id, d.nodes.size ≤ id → id < d'.nodes.size →
    (∃ text, d'.symbol? id = some (.terminal text)) ∨
      ∃ definition ∈ definitions, d'.Holds id definition

namespace Grows

variable {d d' d'' : Draft}

theorem map_symbol? (h : d.Grows d') {ids : List NodeId} {symbols : List Symbol}
    (hs : ids.map d.symbol? = symbols.map some) : ids.map d'.symbol? = symbols.map some := by
  induction ids generalizing symbols with
  | nil => simpa using hs
  | cons id ids ih =>
    cases symbols with
    | nil => simp at hs
    | cons s symbols =>
      simp only [List.map_cons, List.cons.injEq] at hs ⊢
      exact ⟨h.symbol? hs.1, ih hs.2⟩

theorem map_map_symbol? (h : d.Grows d') {cases : List (List NodeId)}
    {productions : List (List Symbol)}
    (hs : cases.map (·.map d.symbol?) = productions.map (·.map some)) :
    cases.map (·.map d'.symbol?) = productions.map (·.map some) := by
  induction cases generalizing productions with
  | nil => simpa using hs
  | cons case cases ih =>
    cases productions with
    | nil => simp at hs
    | cons production productions =>
      simp only [List.map_cons, List.cons.injEq] at hs ⊢
      exact ⟨h.map_symbol? hs.1, ih hs.2⟩

theorem holds (h : d.Grows d') {id : NodeId} {definition : Definition}
    (hd : d.Holds id definition) : d'.Holds id definition := by
  obtain ⟨n, hn, -⟩ := Option.bind_eq_some_iff.1 hd.symbol
  have hn' := h id n hn
  refine ⟨h.symbol? hd.symbol, ?_, ?_, ?_⟩
  · rw [hn', ← hn, hd.medium]
  · rw [isTokenKey, hn', ← hn]
    exact hd.token
  · rw [casesOf_of_shape? hn', ← casesOf_of_shape? hn]
    exact h.map_map_symbol? hd.cases

end Grows

namespace Added

variable {d d' d'' : Draft}

theorem refl (d : Draft) : Added d d [] :=
  ⟨.refl d, fun _ h => absurd h List.not_mem_nil, fun _ h h' => absurd h' (Nat.not_lt.2 h)⟩

theorem trans {l l' : List Definition} (h : Added d d' l) (h' : Added d' d'' l') :
    Added d d'' (l ++ l') := by
  refine ⟨h.grows.trans h'.grows, fun definition hm => ?_, fun id hle hlt => ?_⟩
  · rcases List.mem_append.1 hm with hm | hm
    · obtain ⟨id, hle, hid⟩ := h.holds definition hm
      exact ⟨id, hle, h'.grows.holds hid⟩
    · obtain ⟨id, hle, hid⟩ := h'.holds definition hm
      exact ⟨id, Nat.le_trans h.grows.size_le hle, hid⟩
  · rcases Nat.lt_or_ge id d'.nodes.size with hid | hid
    · refine (h.new id hle hid).imp (fun ⟨text, ht⟩ => ⟨text, h'.grows.symbol? ht⟩) ?_
      rintro ⟨definition, hm, hd⟩
      exact ⟨definition, List.mem_append_left _ hm, h'.grows.holds hd⟩
    · refine (h'.new id hid hlt).imp_right ?_
      rintro ⟨definition, hm, hd⟩
      exact ⟨definition, List.mem_append_right _ hm, hd⟩

end Added

/-! ### Looking up and making nodes -/

variable {d d' : Draft} {id : NodeId}

theorem symbol?_eq (d : Draft) (id : NodeId) : d.symbol? id = d.nodes[id]?.bind (·.symbol?) := by
  rw [symbol?, shape?]
  cases d.nodes[id]? <;> simp

theorem symbol?_eq_named_iff {n : Node} {name : String} :
    n.symbol? = some (.named name) ↔ n.isNonterminal ∧ n.name = name := by
  obtain ⟨id, name', execClass, kind⟩ := n
  cases kind <;> simp [Node.symbol?, Node.isNonterminal, Node.isClass, Node.isMedium, Node.class?,
    Node.medium?]

theorem symbol?_eq_terminal_iff {n : Node} {text : String} :
    n.symbol? = some (.terminal text) ↔ n.isTerminal ∧ n.name = text := by
  obtain ⟨id, name', execClass, kind⟩ := n
  cases kind <;> simp [Node.symbol?, Node.isTerminal, Node.terminal?]

theorem symbol?_of_nonterminal? {name : String} (h : d.nonterminal? name = some id) :
    d.symbol? id = some (.named name) := by
  obtain ⟨hlt, hp, -⟩ := Array.findIdx?_eq_some_iff_getElem.1 h
  rw [symbol?_eq, Array.getElem?_eq_getElem hlt, Option.bind_some, symbol?_eq_named_iff]
  simpa using hp

theorem symbol?_ne_of_nonterminal? {name : String} (h : d.nonterminal? name = none) (i : NodeId) :
    d.symbol? i ≠ some (.named name) := by
  rw [symbol?_eq]
  intro hs
  obtain ⟨n, hn, hs⟩ := Option.bind_eq_some_iff.1 hs
  have hf := Array.findIdx?_eq_none_iff.1 h n (Array.mem_of_getElem? hn)
  obtain ⟨hk, hname⟩ := symbol?_eq_named_iff.1 hs
  simp [hk, hname] at hf

theorem symbol?_of_terminal? {text : String} (h : d.terminal? text = some id) :
    d.symbol? id = some (.terminal text) := by
  obtain ⟨hlt, hp, -⟩ := Array.findIdx?_eq_some_iff_getElem.1 h
  rw [symbol?_eq, Array.getElem?_eq_getElem hlt, Option.bind_some, symbol?_eq_terminal_iff]
  simpa using hp

theorem symbol?_ne_of_terminal? {text : String} (h : d.terminal? text = none) (i : NodeId) :
    d.symbol? i ≠ some (.terminal text) := by
  rw [symbol?_eq]
  intro hs
  obtain ⟨n, hn, hs⟩ := Option.bind_eq_some_iff.1 hs
  have hf := Array.findIdx?_eq_none_iff.1 h n (Array.mem_of_getElem? hn)
  obtain ⟨hk, hname⟩ := symbol?_eq_terminal_iff.1 hs
  simp [hk, hname] at hf

theorem lt_size_of_symbol? {s : Symbol} (h : d.symbol? id = some s) : id < d.nodes.size := by
  obtain ⟨n, hn, -⟩ := Option.bind_eq_some_iff.1 h
  exact lt_size_of_shape? hn

theorem lt_size_of_map_symbol? {ids : List NodeId} {symbols : List Symbol}
    (h : ids.map d.symbol? = symbols.map some) : ∀ x ∈ ids, x < d.nodes.size := by
  intro x hx
  have hm : d.symbol? x ∈ symbols.map some := h ▸ List.mem_map_of_mem hx
  obtain ⟨s, -, hs⟩ := List.mem_map.1 hm
  exact lt_size_of_symbol? hs.symm

theorem proper_empty : Draft.empty.Proper where
  id_eq _ _ h := nomatch h
  not_factor _ _ h := nomatch h
  trie_empty _ _ h := nomatch h
  symbol_inj _ _ _ h := nomatch h
  cases_lt _ _ h := nomatch h

/-- A bare node with a symbol of its own may be added. -/
theorem Proper.push (hd : d.Proper) {name : String} {execClass : Option String} {kind : NodeKind}
    {s : Symbol} (hs : (⟨d.nodes.size, name, none, kind.shape⟩ : Node).symbol? = some s)
    (hnew : ∀ i, d.symbol? i ≠ some s)
    (hc : (⟨d.nodes.size, name, none, kind.shape⟩ : Node).cases = [])
    (ht : ∀ trie, (⟨d.nodes.size, name, none, kind.shape⟩ : Node).trie? = some trie →
      trie = .empty) : (d.push name execClass kind).Proper := by
  have hsym (i : NodeId) : (d.push name execClass kind).symbol? i =
      if i = d.nodes.size then some s else d.symbol? i := by
    rw [symbol?, shape?_push]
    split
    · exact hs
    · rfl
  constructor
  · intro i n hn
    rw [shape?_push] at hn
    split at hn
    next hi => exact (Option.some.inj hn) ▸ hi.symm
    · exact hd.id_eq i n hn
  · intro i n hn
    rw [shape?_push] at hn
    split at hn
    · rw [← Option.some.inj hn]
      cases kind with
      | factor trie => cases hs
      | _ => rfl
    · exact hd.not_factor i n hn
  · intro i trie hi
    rw [trie?, shape?_push] at hi
    split at hi
    · exact ht trie hi
    · exact hd.trie_empty i trie hi
  · intro i j s' hi hj
    rw [hsym] at hi hj
    split at hi
    next hi' =>
      split at hj
      next hj' => rw [hi', hj']
      · exact absurd (hi ▸ hj) (hnew j)
    · split at hj
      · exact absurd (hj ▸ hi) (hnew i)
      · exact hd.symbol_inj i j s' hi hj
  · intro i case hcase x hx
    rw [size_push]
    rw [casesOf_eq, shape?_push] at hcase
    split at hcase
    · rw [Option.map_some, Option.getD_some, hc] at hcase
      exact absurd hcase List.not_mem_nil
    · rw [← casesOf_eq] at hcase
      exact Nat.lt_succ_of_lt (hd.cases_lt i case hcase x hx)

/-! ### Terminals -/

theorem shape?_joinTerminal (d : Draft) (id : NodeId) (spec : TerminalSpec) (listed : Bool)
    (i : NodeId) : (d.joinTerminal id spec listed).shape? i = d.shape? i := by
  rw [shape?, shape?, joinTerminal, Array.getElem?_modify]
  split
  · rw [Option.map_map]
    congr 1
    funext n
    obtain ⟨id, name, execClass, kind⟩ := n
    cases kind <;> rfl
  · rfl

theorem size_eq_of_shape? (h : ∀ i, d'.shape? i = d.shape? i) : d'.nodes.size = d.nodes.size := by
  have hiff (i : NodeId) : d'.nodes.size ≤ i ↔ d.nodes.size ≤ i := by
    rw [← shape?_eq_none_iff, ← shape?_eq_none_iff, h]
  exact Nat.le_antisymm ((hiff _).2 (Nat.le_refl _)) ((hiff _).1 (Nat.le_refl _))

/-- Only the shapes of the nodes count. -/
theorem Proper.of_shape? (hd : d.Proper) (h : ∀ i, d'.shape? i = d.shape? i) : d'.Proper := by
  have hs (i : NodeId) : d'.symbol? i = d.symbol? i := by rw [symbol?, symbol?, h]
  constructor
  · exact fun i n hn => hd.id_eq i n (h i ▸ hn)
  · exact fun i n hn => hd.not_factor i n (h i ▸ hn)
  · exact fun i trie hi => hd.trie_empty i trie (by rwa [trie?, ← h i])
  · exact fun i j s hi hj => hd.symbol_inj i j s (hs i ▸ hi) (hs j ▸ hj)
  · intro i case hcase
    rw [size_eq_of_shape? h]
    rw [casesOf_eq, h, ← casesOf_eq] at hcase
    exact hd.cases_lt i case hcase

theorem Added.of_shape? (h : ∀ i, d'.shape? i = d.shape? i) : Added d d' [] where
  grows id n hn := by rw [h, hn]
  holds _ hm := absurd hm List.not_mem_nil
  new _ hle hlt := absurd (size_eq_of_shape? h ▸ hlt) (Nat.not_lt.2 hle)

theorem addTerminal_added {options : GrammarOptions} {insideToken : Bool} {spec : TerminalSpec}
    (hd : d.Proper) (h : addTerminal options insideToken spec d = .ok (id, d')) :
    d'.Proper ∧ Added d d' [] ∧ d'.symbol? id = some (.terminal spec.text) := by
  unfold addTerminal at h
  split at h
  next hnone =>
    cases h
    refine ⟨hd.push rfl (symbol?_ne_of_terminal? hnone) rfl (fun trie ht => nomatch ht),
      ⟨grows_push _ _ _ _, fun _ hm => absurd hm List.not_mem_nil, fun i hle hlt => ?_⟩, ?_⟩
    · rw [size_push] at hlt
      have hi : i = d.nodes.size := by omega
      refine .inl ⟨spec.text, ?_⟩
      rw [symbol?, shape?_push, if_pos hi]
      rfl
    · rw [symbol?, shape?_push, nextId, if_pos rfl]
      rfl
  next found hsome =>
    have hjoin : id = found ∧ ∃ listed, d' = d.joinTerminal found spec listed := by
      split at h
      · split at h
        · cases h
          exact ⟨rfl, _, rfl⟩
        · cases h
      · cases h
        exact ⟨rfl, _, rfl⟩
    obtain ⟨rfl, listed, rfl⟩ := hjoin
    have hshape := shape?_joinTerminal d id spec listed
    refine ⟨hd.of_shape? hshape, .of_shape? hshape, ?_⟩
    rw [symbol?, hshape]
    exact symbol?_of_terminal? hsome

/-! ### Definitions -/

theorem Holds.setCases {definition : Definition} {i : NodeId} (h : d.Holds i definition)
    (hi : i ≠ id) (cases : List (List NodeId)) : (d.setCases id cases).Holds i definition := by
  refine ⟨?_, ?_, ?_, ?_⟩
  · rw [symbol?_setCases, h.symbol]
  · rw [shape?_setCases, if_neg hi, h.medium]
  · rw [isTokenKey_setCases, h.token]
  · rw [symbol?_setCases, casesOf_setCases_of_ne cases hi, h.cases]

theorem Proper.setCases (hd : d.Proper) {cases : List (List NodeId)}
    (hc : ∀ case ∈ cases, ∀ x ∈ case, x < d.nodes.size) : (d.setCases id cases).Proper := by
  have hshape {i : NodeId} {n : Node} (hn : (d.setCases id cases).shape? i = some n) :
      ∃ m, d.shape? i = some m ∧ n.id = m.id ∧ n.isFactor = m.isFactor := by
    rw [shape?_setCases] at hn
    split at hn
    · obtain ⟨m, hm, rfl⟩ := Option.map_eq_some_iff.1 hn
      exact ⟨m, hm, id_onMedium _ _, isFactor_onMedium _ _⟩
    · exact ⟨n, hn, rfl, rfl⟩
  constructor
  · intro i n hn
    obtain ⟨m, hm, he, -⟩ := hshape hn
    exact he.trans (hd.id_eq i m hm)
  · intro i n hn
    obtain ⟨m, hm, -, he⟩ := hshape hn
    exact he.trans (hd.not_factor i m hm)
  · intro i trie hi
    exact hd.trie_empty i trie (trie?_setCases d id cases i ▸ hi)
  · rw [symbol?_setCases]
    exact hd.symbol_inj
  · intro i case hcase
    rw [size_setCases]
    rcases mem_casesOf_setCases hcase with hcase | hcase
    · exact hc case hcase
    · exact hd.cases_lt i case hcase

/-- The shape of the node that a definition gets before its cases are entered. -/
def bareShape (id : NodeId) (name : String) (kind : DefinitionKind) : Node :=
  ⟨id, name, none, (nodeKindOf kind).shape⟩

section BareShape

variable (name : String) (kind : DefinitionKind)

theorem symbol?_bareShape : (bareShape id name kind).symbol? = some (.named name) := by
  cases kind <;> rfl

theorem isMedium_bareShape : (bareShape id name kind).isMedium = !isClassKind kind := by
  cases kind <;> rfl

theorem isTokenKey_bareShape : (bareShape id name kind).isTokenKey = isTokenKind kind := by
  cases kind <;> rfl

theorem cases_bareShape : (bareShape id name kind).cases = [] := by
  cases kind <;> rfl

theorem trie?_bareShape {trie : Trie} (h : (bareShape id name kind).trie? = some trie) :
    trie = .empty := by
  cases kind with
  | symbolClass key symbols => exact nomatch h
  | _ => exact (Option.some.inj h).symm

end BareShape

/-- A definition whose cases are not entered yet. -/
theorem Proper.pushDefinition (hd : d.Proper) {name : String} (kind : DefinitionKind)
    (h : d.nonterminal? name = none) :
    (d.push name (execClassOf kind) (nodeKindOf kind)).Proper :=
  hd.push (symbol?_bareShape name kind) (symbol?_ne_of_nonterminal? h) (cases_bareShape name kind)
    (fun _ ht => trie?_bareShape name kind ht)

/-- A definition is entered once its cases are, between the node for it and the end. -/
theorem Added.definition {name : String} {kind : DefinitionKind} {cases : List (List CaseElement)}
    {ids : List (List NodeId)} {inner : List Definition} (hk : isClassKind kind = false)
    (h : Added (d.push name (execClassOf kind) (nodeKindOf kind)) d' inner)
    (hids : ids.map (·.map d'.symbol?) = (cases.map (·.map CaseElement.symbol)).map (·.map some)) :
    Added d (d'.setCases d.nodes.size ids) (.mk name kind cases :: inner) := by
  have hself : d'.shape? d.nodes.size = some (bareShape d.nodes.size name kind) :=
    h.grows _ _ (by rw [shape?_push, if_pos rfl]; rfl)
  have hmed : (bareShape d.nodes.size name kind).isMedium := by rw [isMedium_bareShape, hk]; rfl
  have hholds : (d'.setCases d.nodes.size ids).Holds d.nodes.size (.mk name kind cases) := by
    refine ⟨?_, ?_, ?_, ?_⟩
    · rw [symbol?_setCases, symbol?, hself]
      exact symbol?_bareShape name kind
    · rw [shape?_setCases, if_pos rfl, hself]
      exact (isMedium_onMedium _ _).trans (isMedium_bareShape name kind)
    · rw [isTokenKey_setCases, isTokenKey, hself]
      exact isTokenKey_bareShape name kind
    · rw [symbol?_setCases, casesOf_setCases_self hself hmed, hids, Definition.productions,
        Definition.kind, if_neg (by simp [hk])]
      rfl
  have hsize : (d.push name (execClassOf kind) (nodeKindOf kind)).nodes.size = d.nodes.size + 1 :=
    size_push _ _ _ _
  refine ⟨fun i n hn => ?_, fun definition hm => ?_, fun i hle hlt => ?_⟩
  · have hi : i ≠ d.nodes.size := Nat.ne_of_lt (lt_size_of_shape? hn)
    rw [shape?_setCases, if_neg hi]
    exact h.grows i n (grows_push _ _ _ _ i n hn)
  · rcases List.mem_cons.1 hm with rfl | hm
    · exact ⟨d.nodes.size, Nat.le_refl _, hholds⟩
    · obtain ⟨i, hi, hd⟩ := h.holds definition hm
      have hlt : d.nodes.size < i := by omega
      exact ⟨i, Nat.le_of_lt hlt, hd.setCases (Nat.ne_of_gt hlt) ids⟩
  · rw [size_setCases] at hlt
    by_cases hi : i = d.nodes.size
    · exact .inr ⟨_, List.mem_cons_self, hi ▸ hholds⟩
    · rw [symbol?_setCases]
      refine (h.new i (by omega) hlt).imp_right ?_
      rintro ⟨definition, hm, hd⟩
      exact ⟨definition, List.mem_cons_of_mem _ hm, hd.setCases hi ids⟩

/-- A class is entered with its node; its cases are passed over. -/
theorem Added.symbolClass {name : String} {kind : DefinitionKind} (cases : List (List CaseElement))
    (hk : isClassKind kind) : Added d (d.push name (execClassOf kind) (nodeKindOf kind))
      [.mk name kind cases] := by
  have hself : (d.push name (execClassOf kind) (nodeKindOf kind)).shape? d.nodes.size =
      some (bareShape d.nodes.size name kind) := by
    rw [shape?_push, if_pos rfl]
    rfl
  have hholds : (d.push name (execClassOf kind) (nodeKindOf kind)).Holds d.nodes.size
      (.mk name kind cases) := by
    refine ⟨?_, ?_, ?_, ?_⟩
    · rw [symbol?, hself]
      exact symbol?_bareShape name kind
    · rw [hself]
      exact isMedium_bareShape name kind
    · rw [isTokenKey, hself]
      exact isTokenKey_bareShape name kind
    · rw [casesOf_of_shape? hself, cases_bareShape, Definition.productions, Definition.kind,
        if_pos hk]
      rfl
  refine ⟨grows_push _ _ _ _, fun definition hm => ?_, fun i hle hlt => ?_⟩
  · rw [List.mem_singleton.1 hm]
    exact ⟨_, Nat.le_refl _, hholds⟩
  · rw [size_push] at hlt
    have hi : i = d.nodes.size := by omega
    exact .inr ⟨_, List.mem_singleton_self _, hi ▸ hholds⟩

mutual

theorem addDefinition_added {options : GrammarOptions} {insideToken : Bool}
    {definition : Definition} {d d' : Draft} {id : NodeId} (hd : d.Proper)
    (h : addDefinition options insideToken definition d = .ok (id, d')) :
    d'.Proper ∧ Added d d' definition.all ∧ d'.symbol? id = some (.named definition.name) := by
  obtain ⟨name, kind, cases⟩ := definition
  unfold addDefinition at h
  split at h
  · exact nomatch h
  next hnew =>
    have hnone : d.nonterminal? name = none := by simpa using hnew
    have hself : (d.push name (execClassOf kind) (nodeKindOf kind)).symbol? d.nodes.size =
        some (.named name) := by
      rw [symbol?, shape?_push, if_pos rfl]
      exact symbol?_bareShape name kind
    dsimp only at h
    split at h
    next hk =>
      cases h
      rw [Definition.all, if_pos hk]
      exact ⟨hd.pushDefinition kind hnone, .symbolClass cases hk, hself⟩
    next hk =>
      obtain ⟨⟨ids, inner⟩, hcases, h⟩ := Fault.bind_eq_ok_iff.1 h
      cases h
      obtain ⟨hp, ha, hs⟩ := addCases_added (hd.pushDefinition kind hnone) hcases
      rw [Definition.all, if_neg hk]
      refine ⟨hp.setCases ?_, .definition (by simpa using hk) ha hs, ?_⟩
      · intro case hcase
        obtain ⟨symbols, -, he⟩ := List.mem_map.1 (hs ▸ List.mem_map_of_mem hcase)
        exact lt_size_of_map_symbol? he.symm
      · rw [symbol?_setCases]
        exact ha.grows.symbol? hself

theorem addElement_added {options : GrammarOptions} {insideToken : Bool} {owner : String}
    {element : CaseElement} {d d' : Draft} {id : NodeId} (hd : d.Proper)
    (h : addElement options insideToken owner element d = .ok (id, d')) :
    d'.Proper ∧ Added d d' (definitionsInElement element) ∧
      d'.symbol? id = some element.symbol := by
  cases element with
  | reference name =>
    unfold addElement at h
    split at h
    next found hfound =>
      obtain ⟨-, -, h⟩ := Fault.bind_eq_ok_iff.1 h
      cases h
      exact ⟨hd, .refl d, symbol?_of_nonterminal? hfound⟩
    · exact nomatch h
  | terminal spec =>
    unfold addElement at h
    exact addTerminal_added hd (Fault.mapError_eq_ok_iff.1 h)
  | definition definition =>
    unfold addElement at h
    obtain ⟨⟨found, inner⟩, hinner, h⟩ := Fault.bind_eq_ok_iff.1 h
    obtain ⟨-, -, h⟩ := Fault.bind_eq_ok_iff.1 h
    cases h
    rw [definitionsInElement, CaseElement.symbol]
    exact addDefinition_added hd (Fault.mapError_eq_ok_iff.1 hinner)

theorem addCase_added {options : GrammarOptions} {insideToken : Bool} {owner : String}
    {case : List CaseElement} {d d' : Draft} {ids : List NodeId} (hd : d.Proper)
    (h : addCase options insideToken owner case d = .ok (ids, d')) :
    d'.Proper ∧ Added d d' (definitionsInCase case) ∧
      ids.map d'.symbol? = (case.map CaseElement.symbol).map some := by
  cases case with
  | nil =>
    cases h
    exact ⟨hd, .refl d, rfl⟩
  | cons element rest =>
    unfold addCase at h
    obtain ⟨⟨id, d₁⟩, hfirst, h⟩ := Fault.bind_eq_ok_iff.1 h
    obtain ⟨⟨more, d₂⟩, hrest, h⟩ := Fault.bind_eq_ok_iff.1 h
    cases h
    obtain ⟨hp₁, ha₁, hs₁⟩ := addElement_added hd hfirst
    obtain ⟨hp₂, ha₂, hs₂⟩ := addCase_added hp₁ hrest
    refine ⟨hp₂, ha₁.trans ha₂, ?_⟩
    rw [List.map_cons, List.map_cons, List.map_cons, hs₂, ha₂.grows.symbol? hs₁]

theorem addCases_added {options : GrammarOptions} {insideToken : Bool} {owner : String}
    {cases : List (List CaseElement)} {d d' : Draft} {ids : List (List NodeId)} (hd : d.Proper)
    (h : addCases options insideToken owner cases d = .ok (ids, d')) :
    d'.Proper ∧ Added d d' (definitionsInCases cases) ∧
      ids.map (·.map d'.symbol?) = (cases.map (·.map CaseElement.symbol)).map (·.map some) := by
  cases cases with
  | nil =>
    cases h
    exact ⟨hd, .refl d, rfl⟩
  | cons case rest =>
    unfold addCases at h
    obtain ⟨⟨first, d₁⟩, hfirst, h⟩ := Fault.bind_eq_ok_iff.1 h
    obtain ⟨⟨more, d₂⟩, hrest, h⟩ := Fault.bind_eq_ok_iff.1 h
    cases h
    obtain ⟨hp₁, ha₁, hs₁⟩ := addCase_added hd hfirst
    obtain ⟨hp₂, ha₂, hs₂⟩ := addCases_added hp₁ hrest
    refine ⟨hp₂, ha₁.trans ha₂, ?_⟩
    rw [List.map_cons, List.map_cons, List.map_cons, hs₂, ha₂.grows.map_symbol? hs₁]

end

end Draft

end Syntagma
