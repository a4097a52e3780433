import Syntagma.Analysis.Strategy
import Syntagma.Proofs.Analysis.Transport
import Syntagma.Proofs.Automaton.Discovery

/-! The table and the tries it was compiled from. A state stands for the node it came from: the
node at its place in the order of discovery. This takes the cursor of the table to that of the
grammar, so the two strategies run the same analysis. -/

namespace Syntagma

theorem Grammar.lt_size_of_trie? {g : Grammar} {id : NodeId} {trie : Trie}
    (h : g.trie? id = some trie) : id < g.nodes.size := by
  obtain ⟨n, hn, -⟩ := Option.bind_eq_some_iff.1 h
  exact (Array.getElem?_eq_some_iff.1 hn).1

theorem Grammar.isSome_entered? (g : Grammar) (head : NodeId) :
    (g.entered? head).isSome = PushdownAutomaton.isEntered g head := by
  unfold entered? PushdownAutomaton.isEntered
  cases g.isTokenKey head <;> simp

namespace PushdownAutomaton

variable {g : Grammar} {p : PushdownAutomaton}

/-- The number that `ofGrammar` gives to the state of a node. -/
def numberOf (g : Grammar) (id : NodeId) : StateId := ((origins g).idxOf? id).getD 0

/-- The node a state stands for; a number out of range for a state goes to one out of range. -/
def originOf (g : Grammar) (q : StateId) : NodeId := ((origins g)[q]?).getD g.nodes.size

theorem originOf_numberOf {id : NodeId} (h : id ∈ origins g) : originOf g (numberOf g id) = id := by
  rw [originOf, numberOf, getElem?_idxOf? h, Option.getD_some]

theorem originOf_zero (g : Grammar) : originOf g 0 = g.axiomId := by
  rw [originOf, origins, getElem?_discover_zero, Option.getD_some]

/-! ### When a table exists, and which one it is -/

/-- The trie of a node as `ofGrammar` looks it up. -/
def trieOrFault (g : Grammar) (id : NodeId) : Except Fault (NodeId × Trie) :=
  match g.trie? id with
  | some trie => .ok (id, trie)
  | none => .error (.of (.internal (g.textOf id ++ " has no trie")))

theorem trieOrFault_of_isSome {id : NodeId} (h : (g.trie? id).isSome) :
    trieOrFault g id = .ok (id, (g.trie? id).getD .empty) := by
  obtain ⟨trie, ht⟩ := Option.isSome_iff_exists.1 h
  simp only [trieOrFault, ht, Option.getD_some]

theorem mapM_trieOrFault {ids : List NodeId} (h : ∀ id ∈ ids, (g.trie? id).isSome) :
    ids.mapM (trieOrFault g) = .ok (ids.map (fun id => (id, (g.trie? id).getD .empty))) := by
  induction ids with
  | nil => rfl
  | cons id rest ih =>
    rw [List.mapM_cons, trieOrFault_of_isSome (h id List.mem_cons_self),
      ih (fun x hx => h x (List.mem_cons_of_mem _ hx))]
    rfl

theorem isSome_of_mapM {ids : List NodeId} {tries : List (NodeId × Trie)}
    (h : ids.mapM (trieOrFault g) = .ok tries) : ∀ id ∈ ids, (g.trie? id).isSome := by
  induction ids generalizing tries with
  | nil => exact fun id hid => absurd hid List.not_mem_nil
  | cons id rest ih =>
    rw [List.mapM_cons] at h
    cases ht : g.trie? id with
    | none => simp [trieOrFault, ht, bind, Except.bind] at h
    | some trie =>
      cases hr : rest.mapM (trieOrFault g) with
      | error fault => simp [trieOrFault, ht, hr, bind, Except.bind] at h
      | ok others =>
        intro x hx
        rcases List.mem_cons.1 hx with rfl | hx
        · rw [ht, Option.isSome_some]
        · exact ih hr x hx

/-- The table of the tries that the discovered nodes have. -/
def tableOf (g : Grammar) : PushdownAutomaton where
  states := ((origins g).toList.map
    (fun id => stateOf g (numberOf g) id ((g.trie? id).getD .empty))).toArray
  start := 0
  tokenNames := .ofList ((origins g).toList.flatMap
    (fun id => namedTokens g ((g.trie? id).getD .empty)))

theorem ofGrammar_eq_ok_iff :
    ofGrammar g = .ok p ↔ (∀ id ∈ origins g, (g.trie? id).isSome) ∧ p = tableOf g := by
  have hg : ofGrammar g = (origins g).toList.mapM (trieOrFault g) >>= (fun tries => .ok
      { states := (tries.map (fun e => stateOf g (numberOf g) e.1 e.2)).toArray
        start := 0
        tokenNames := .ofList (tries.flatMap (fun e => namedTokens g e.2)) }) := rfl
  have hall (h : ∀ id ∈ origins g, (g.trie? id).isSome) : ofGrammar g = .ok (tableOf g) := by
    rw [hg, mapM_trieOrFault (fun id hid => h id (Array.mem_toList_iff.1 hid))]
    simp only [bind, Except.bind, tableOf, List.map_map, List.flatMap_map, Function.comp_def]
  constructor
  · intro h
    have hs : ∀ id ∈ origins g, (g.trie? id).isSome := by
      cases hm : (origins g).toList.mapM (trieOrFault g) with
      | error fault =>
        rw [hg, hm] at h
        exact nomatch h
      | ok tries => exact fun id hid => isSome_of_mapM hm id (Array.mem_toList_iff.2 hid)
    rw [hall hs] at h
    exact ⟨hs, (Except.ok.inj h).symm⟩
  · rintro ⟨hs, rfl⟩
    exact hall hs

/-! ### What a state offers -/

/-- A number stands for a state of a node with a trie, whose successors have numbers as well; or
it stands for nothing on both sides. -/
theorem state?_cases (h : ofGrammar g = .ok p) (q : StateId) :
    (∃ trie, g.trie? (originOf g q) = some trie ∧
      p.state? q = some (stateOf g (numberOf g) (originOf g q) trie) ∧ originOf g q ∈ origins g ∧
      ∀ id ∈ successors g trie, id ∈ origins g) ∨
    (g.trie? (originOf g q) = none ∧ p.state? q = none) := by
  obtain ⟨hs, rfl⟩ := ofGrammar_eq_ok_iff.1 h
  have hstate : (tableOf g).state? q = (origins g)[q]?.map
      (fun id => stateOf g (numberOf g) id ((g.trie? id).getD .empty)) := by
    simp [state?, tableOf]
  cases hq : (origins g)[q]? with
  | none =>
    refine .inr ⟨?_, by rw [hstate, hq]; rfl⟩
    rw [originOf, hq, Option.getD_none]
    cases ht : g.trie? g.nodes.size with
    | none => rfl
    | some trie => exact absurd (Grammar.lt_size_of_trie? ht) (Nat.lt_irrefl _)
  | some id =>
    have hid : id ∈ origins g := Array.mem_of_getElem? hq
    obtain ⟨trie, ht⟩ := Option.isSome_iff_exists.1 (hs id hid)
    have ho : originOf g q = id := by rw [originOf, hq, Option.getD_some]
    refine .inl ⟨trie, ho ▸ ht, ?_, ho ▸ hid, fun x hx => ?_⟩
    · rw [hstate, hq, ho, Option.map_some, ht, Option.getD_some]
    · refine closed_discover (fun y hy => ?_) id hid x (by rw [ht]; exact hx)
      obtain ⟨_, hy⟩ := Option.isSome_iff_exists.1 (hs y hy)
      exact Grammar.lt_size_of_trie? hy

theorem get?_links (g : Grammar) (numberOf : NodeId → StateId)
    (cases : List (NodeId × Option NodeId))
    (links : Dictionary NodeId PushdownLink) (a : NodeId) :
    (cases.foldl (fun links e => if g.isTokenKey e.1 && !links.contains e.1
      then links.insert e.1 ⟨e.2.map numberOf, none⟩ else links) links).get? a =
    (links.get? a).or (if g.isTokenKey a then (cases.find? (fun e => e.1 == a)).map
      (fun e => ⟨e.2.map numberOf, none⟩) else none) := by
  induction cases generalizing links with
  | nil => simp
  | cons e rest ih =>
    rw [List.foldl_cons, ih, List.find?_cons]
    by_cases ha : e.1 = a
    · subst ha
      by_cases hk : g.isTokenKey e.1
      · cases hl : links.get? e.1 <;> simp [hk, hl, Dictionary.contains, Dictionary.get?_insert]
      · simp [hk]
    · have hb : (e.1 == a) = false := by simpa using ha
      split
      · rw [Dictionary.get?_insert, if_neg (Ne.symm ha), hb]
      · rw [hb]

theorem get?_stateOf_links (g : Grammar) (numberOf : NodeId → StateId) (id : NodeId) (trie : Trie)
    (a : NodeId) : (stateOf g numberOf id trie).links.get? a =
      if g.isTokenKey a then (trie.continuation? a).map (fun next => ⟨next.map numberOf, none⟩)
      else none := by
  rw [stateOf, get?_links, Dictionary.get?_empty, Option.none_or, Trie.continuation?,
    Option.map_map]
  rfl

theorem mem_keys_stateOf_links {numberOf : NodeId → StateId} {id : NodeId} {trie : Trie}
    {a : NodeId} : a ∈ (stateOf g numberOf id trie).links.keys ↔
      g.isTokenKey a ∧ ∃ e ∈ trie.cases, e.1 = a := by
  rw [Dictionary.mem_keys_iff, get?_stateOf_links]
  by_cases ha : g.isTokenKey a <;> simp [ha, Trie.continuation?]

theorem tokenName?_of_mem (h : ofGrammar g = .ok p) {id : NodeId} (hid : id ∈ origins g)
    {trie : Trie} (ht : g.trie? id = some trie) {e : NodeId × Option NodeId} (he : e ∈ trie.cases)
    (hk : g.isTokenKey e.1) : p.tokenName? e.1 = some (g.nameOf e.1) := by
  obtain ⟨-, rfl⟩ := ofGrammar_eq_ok_iff.1 h
  refine Dictionary.get?_ofList_of_forall ?_ (fun pair hpair heq => ?_)
  · refine List.mem_map.2 ⟨(e.1, g.nameOf e.1), ?_, rfl⟩
    refine List.mem_flatMap.2 ⟨id, by simpa using hid, ?_⟩
    rw [ht, Option.getD_some, namedTokens]
    exact List.mem_map.2 ⟨e, List.mem_filter.2 ⟨he, hk⟩, rfl⟩
  · obtain ⟨_, -, hpair⟩ := List.mem_flatMap.1 hpair
    obtain ⟨_, -, rfl⟩ := List.mem_map.1 hpair
    exact congrArg g.nameOf heq

theorem mem_tokenNamesOf (h : ofGrammar g = .ok p) {id : NodeId} (hid : id ∈ origins g)
    {trie : Trie} (ht : g.trie? id = some trie) (name : String) :
    name ∈ p.tokenNamesOf (stateOf g (numberOf g) id trie) ↔ name ∈ g.tokenNamesOf trie := by
  rw [tokenNamesOf, Grammar.tokenNamesOf, List.mem_filterMap, List.mem_map]
  constructor
  · rintro ⟨a, ha, hn⟩
    obtain ⟨hk, e, he, rfl⟩ := mem_keys_stateOf_links.1 ha
    rw [tokenName?_of_mem h hid ht he hk, Option.some.injEq] at hn
    exact ⟨e, List.mem_filter.2 ⟨he, hk⟩, hn⟩
  · rintro ⟨e, he, hn⟩
    obtain ⟨he, hk⟩ := List.mem_filter.1 he
    exact ⟨e.1, mem_keys_stateOf_links.2 ⟨hk, e, he, rfl⟩,
      by rw [tokenName?_of_mem h hid ht he hk, hn]⟩

/-- The heads that are entered and the nodes behind them have numbers. -/
theorem mem_successors_of_mem {trie : Trie} {e : NodeId × Option NodeId} (he : e ∈ trie.cases) :
    (∀ next ∈ e.2, next ∈ successors g trie) ∧
      (isEntered g e.1 → e.1 ∈ successors g trie) := by
  refine ⟨fun next hn => ?_, fun hd => ?_⟩
  · refine List.mem_append_left _ (List.mem_flatMap.2 ⟨e, he, List.mem_append_left _ ?_⟩)
    exact Option.mem_toList.2 hn
  · refine List.mem_append_left _ (List.mem_flatMap.2 ⟨e, he, List.mem_append_right _ ?_⟩)
    rw [if_pos hd]
    exact List.mem_singleton_self _

theorem map_numberOf_map_originOf {next : Option NodeId} (h : ∀ id ∈ next, id ∈ origins g) :
    (next.map (numberOf g)).map (originOf g) = next := by
  cases next with
  | none => rfl
  | some id => rw [Option.map_some, Option.map_some, originOf_numberOf (h id rfl)]

theorem dives_stateOf {trie : Trie} (hs : ∀ id ∈ successors g trie, id ∈ origins g) (id : NodeId) :
    ((stateOf g (numberOf g) id trie).dives.filterMap (fun e =>
      e.2.enter.map (fun entered => (⟨e.1, entered, e.2.resume⟩ : Dive StateId)))).map
        (Dive.map (originOf g)) =
      (trie.cases.filter (fun e => (g.entered? e.1).isSome)).map (fun e => ⟨e.1, e.1, e.2⟩) := by
  simp only [stateOf, List.filterMap_map, Function.comp_def, Option.map_some,
    List.filterMap_eq_map', List.map_map, Grammar.isSome_entered?]
  refine List.map_congr_left (fun e he => ?_)
  obtain ⟨he, hd⟩ := List.mem_filter.1 he
  obtain ⟨hn, hd'⟩ := mem_successors_of_mem (g := g) he
  rw [Dive.map, originOf_numberOf (hs _ (hd' hd)),
    map_numberOf_map_originOf (fun x hx => hs x (hn x hx))]

/-- The names expected at a state are those of its tokens and of the tokens one dive away. -/
theorem mem_expected (h : ofGrammar g = .ok p) {q : StateId} {trie : Trie}
    (ht : g.trie? (originOf g q) = some trie)
    (hq : p.state? q = some (stateOf g (numberOf g) (originOf g q) trie))
    (hid : originOf g q ∈ origins g) (hs : ∀ id ∈ successors g trie, id ∈ origins g)
    (name : String) : name ∈ g.cursor.expected (originOf g q) ↔ name ∈ p.cursor.expected q := by
  simp only [Grammar.cursor, cursor, ht, hq, List.mem_append, mem_tokenNamesOf h hid ht]
  refine or_congr_right ?_
  simp only [List.mem_flatMap, List.mem_filterMap, stateOf, List.mem_map, List.mem_filter]
  -- the state entered by a dive is that of the head of the case
  have hinner {head : NodeId} (hh : head ∈ origins g) {inner : Trie}
      (hi : g.trie? head = some inner) :
      p.state? (numberOf g head) = some (stateOf g (numberOf g) head inner) := by
    have ho := originOf_numberOf hh
    rcases state?_cases h (numberOf g head) with ⟨t, hgt, hpt, -, -⟩ | ⟨hgt, -⟩
    · rw [ho, hi, Option.some.injEq] at hgt
      rw [hpt, ho, hgt]
    · rw [ho, hi] at hgt
      cases hgt
  have hentered {e : NodeId × Option NodeId} (he : e ∈ trie.cases) {inner : Trie}
      (hi : g.entered? e.1 = some inner) :
      isEntered g e.1 = true ∧ e.1 ∈ origins g ∧ g.trie? e.1 = some inner := by
    have hd : isEntered g e.1 = true := by rw [← Grammar.isSome_entered?, hi, Option.isSome_some]
    refine ⟨hd, hs _ ((mem_successors_of_mem he).2 hd), ?_⟩
    unfold Grammar.entered? at hi
    split at hi
    · cases hi
    · exact hi
  constructor
  · rintro ⟨inner, ⟨e, he, hi⟩, hn⟩
    obtain ⟨hd, ho, hi'⟩ := hentered he hi
    refine ⟨_, ⟨_, ⟨e, ⟨he, hd⟩, rfl⟩, hinner ho hi'⟩, ?_⟩
    exact (mem_tokenNamesOf h ho hi' name).2 hn
  · rintro ⟨st, ⟨_, ⟨e, ⟨he, hd⟩, rfl⟩, hst⟩, hn⟩
    rw [← Grammar.isSome_entered?] at hd
    obtain ⟨inner, hi⟩ := Option.isSome_iff_exists.1 hd
    obtain ⟨-, ho, hi'⟩ := hentered he hi
    rw [Option.bind_some, hinner ho hi', Option.some.injEq] at hst
    subst hst
    exact ⟨inner, ⟨e, he, hi⟩, (mem_tokenNamesOf h ho hi' name).1 hn⟩

/-- Every state of a compiled table offers what the node it stands for offers. -/
theorem cursor_mapsTo (h : ofGrammar g = .ok p) : p.cursor.MapsTo g.cursor (originOf g) where
  start := by
    obtain ⟨-, rfl⟩ := ofGrammar_eq_ok_iff.1 h
    exact (originOf_zero g).symm
  interruptable q := by
    rcases state?_cases h q with ⟨trie, ht, hq, -, -⟩ | ⟨ht, hq⟩ <;>
      simp [Grammar.cursor, cursor, ht, hq, stateOf]
  recursion q := by
    rcases state?_cases h q with ⟨trie, ht, hq, -, hs⟩ | ⟨ht, hq⟩
    · simp only [Grammar.cursor, cursor, ht, hq, Option.bind_some, stateOf]
      refine (map_numberOf_map_originOf (fun id hid => hs id ?_)).symm
      exact List.mem_append_right _ (Option.mem_toList.2 hid)
    · simp [Grammar.cursor, cursor, ht, hq]
  step q a := by
    rcases state?_cases h q with ⟨trie, ht, hq, -, hs⟩ | ⟨ht, hq⟩
    · simp only [Grammar.cursor, cursor, ht, hq, Option.bind_some, get?_stateOf_links]
      split
      · cases hc : trie.continuation? a with
        | none => rfl
        | some next =>
          obtain ⟨e, he, rfl⟩ := Option.map_eq_some_iff.1 hc
          have hn := (mem_successors_of_mem (g := g) (List.mem_of_find?_eq_some he)).1
          simp only [Option.map_some, map_numberOf_map_originOf (fun x hx => hs x (hn x hx))]
      · rfl
    · simp [Grammar.cursor, cursor, ht, hq]
  dives q := by
    rcases state?_cases h q with ⟨trie, ht, hq, -, hs⟩ | ⟨ht, hq⟩
    · simp only [Grammar.cursor, cursor, ht, hq]
      exact (dives_stateOf hs _).symm
    · simp [Grammar.cursor, cursor, ht, hq]
  expected q name := by
    rcases state?_cases h q with ⟨trie, ht, hq, hid, hs⟩ | ⟨ht, hq⟩
    · exact mem_expected h ht hq hid hs name
    · simp [Grammar.cursor, cursor, ht, hq]

/-- A walk over the table is a walk over the tries. -/
theorem analyze_eq (h : ofGrammar g = .ok p) (options : AnalysisOptions) (tokens : List Token) :
    p.cursor.analyze options tokens = g.cursor.analyze options tokens :=
  ((cursor_mapsTo h).analyze_eq options tokens).symm

end PushdownAutomaton

/-- Whatever strategy the options ask for, the analysis is that over the tries. -/
theorem analyze_eq_descent {g : Grammar} {p : PushdownAutomaton}
    (h : PushdownAutomaton.ofGrammar g = .ok p) (options : AnalysisOptions) (tokens : List Token) :
    analyze g p options tokens = g.cursor.analyze options tokens := by
  unfold analyze
  split
  · rfl
  · exact PushdownAutomaton.analyze_eq h options tokens

end Syntagma
