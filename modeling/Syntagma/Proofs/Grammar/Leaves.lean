import Syntagma.Proofs.Grammar.Compilation
import Syntagma.Proofs.Grammar.Editing

/-! The terminals and classes of a compiled grammar. Handling left recursion and factorization only
make mediums and factors and change only cases and tries, so the terminals and classes are those
that were entered, with the terminals outside of all classes marked. -/

namespace Syntagma

/-- The node, if it is a terminal or a class. -/
def Node.leaf? (n : Node) : Option Node := if n.isTerminal || n.isClass then some n else none

namespace Draft

/-- Handling left recursion and factorization keep the terminals and classes. -/
theorem Edited.leaf? {d d' : Draft} (h : d.Edited d') (i : NodeId) :
    (d'.nodes[i]?).bind (·.leaf?) = (d.nodes[i]?).bind (·.leaf?) := by
  refine h.getElem?_bind (fun id name execClass kind hk => ?_) (fun f n _ => ?_) i
  · cases kind <;> first | rfl | cases hk
  · obtain ⟨id, name, execClass, kind⟩ := n
    cases kind <;> rfl

theorem leaf?_assignTokenClasses (nodes : List Node) (m : TokenClassMap) :
    (assignTokenClasses nodes m).1.map (·.leaf?) = nodes.map (·.leaf?) := by
  induction nodes generalizing m with
  | nil => rfl
  | cons n nodes ih =>
    obtain ⟨id, name, execClass, kind⟩ := n
    unfold assignTokenClasses
    cases kind with
    | medium data =>
      obtain ⟨cases, trie, token, isSynthetic⟩ := data
      cases token with
      | none => exact congrArg (List.cons _) (ih m)
      | some tag => exact congrArg (List.cons _) (ih _)
    | _ => exact congrArg (List.cons _) (ih m)

theorem leaf?_markControl (unclassified : List String) (n : Node) :
    (markControl unclassified n).leaf? = n.leaf?.map (markControl unclassified) := by
  obtain ⟨id, name, execClass, kind⟩ := n
  cases kind <;> rfl

theorem leaf?_classed (d : Draft) (m : TokenClassMap) (unclassified : List String) (i : NodeId) :
    ((d.classed m unclassified).nodes[i]?).bind (·.leaf?) =
      ((d.nodes[i]?).bind (·.leaf?)).map (markControl unclassified) := by
  have hnodes := congrArg (·.map (·.map (markControl unclassified)))
    (leaf?_assignTokenClasses d.nodes.toList m)
  have hi := congrArg (fun l : List (Option Node) => (l[i]?).bind id) hnodes
  simpa [classed, Option.bind_map, Option.map_bind, Function.comp_def, leaf?_markControl] using hi

/-- How the listed terminals relate to the declared classes. -/
def coverage (d : Draft) : Coverage := .ofTerminals d.declaredClasses d.listedTerminals

end Draft

theorem Node.leaf?_eq_some_iff {n m : Node} :
    n.leaf? = some m ↔ n = m ∧ (n.isTerminal || n.isClass) := by
  unfold leaf?
  split
  next h => simp [h]
  next h => simp [h]

/-- The classes of a compiled grammar, and its terminals beside those that were entered. -/
structure Classified (entered : Draft) (g : Grammar) (f : NodeId → NodeId) : Prop where
  proper : entered.Proper
  table : ∃ base : ClassTable, base.symbolClasses = [] ∧
    g.classTable = entered.coverage.register entered.declaredClasses base
  generic : g.unclassifiedTerminals = entered.coverage.unclassified.filter
    (fun t => entered.coverage.intersected.contains t || 1 < t.length)
  terminalIndex : g.terminalIndex =
    .ofList ((g.nodeList.filter (·.isListedTerminal)).map (fun n => (n.name, n.id)))
  tokenIndex : g.tokenIndex =
    .ofList ((g.nodeList.filter (·.isDefinedToken)).map (fun n => (n.name, n.id)))
  id_eq (id : NodeId) (n : Node) : g.node? id = some n → n.id = id
  published (id : NodeId) (n : Node) : g.node? id = some n → n.isTerminal ∨ n.isClass →
    ∃ (i : NodeId) (m : Node), entered.nodes[i]? = some m ∧ f i = id ∧
      n = (Draft.markControl entered.coverage.unclassified m).mapIds f
  entered (i : NodeId) (m : Node) : entered.nodes[i]? = some m → m.isTerminal ∨ m.isClass →
    g.node? (f i) = some ((Draft.markControl entered.coverage.unclassified m).mapIds f)

theorem Node.isLeaf_mapIds (f : NodeId → NodeId) (n : Node) :
    (n.mapIds f).isTerminal = n.isTerminal ∧ (n.mapIds f).isClass = n.isClass := by
  obtain ⟨id, name, execClass, kind⟩ := n
  cases kind <;> exact ⟨rfl, rfl⟩

/-- Every published node is a node of the draft, renumbered. -/
theorem Publishes.exists_of_node? {d : Draft} {g : Grammar} {f : NodeId → NodeId}
    (h : Publishes d g f) {id : NodeId} {n : Node} (hn : g.node? id = some n) :
    ∃ (i : NodeId) (m : Node), d.nodes[i]? = some m ∧ f i = id ∧ n = m.mapIds f := by
  obtain ⟨i, hi, rfl⟩ := h.onto id n hn
  obtain ⟨m, hm⟩ : ∃ m, d.nodes[i]? = some m := ⟨_, Array.getElem?_eq_getElem hi⟩
  exact ⟨i, m, hm, rfl, Option.some.inj (hn.symm.trans (h.node i m hm))⟩

theorem classified_of_compile {description : GrammarDescription} {options : GrammarOptions}
    {g : Grammar} (h : Grammar.compile description options = .ok g) : ∃ start entered f,
      Draft.addDefinition options false description.axiomDefinition .empty = .ok (start, entered) ∧
      Classified entered g f := by
  unfold Grammar.compile at h
  obtain ⟨⟨start, entered⟩, hentry, h⟩ := Fault.bind_eq_ok_iff.1 h
  dsimp only at h
  split at h
  · exact nomatch h
  obtain ⟨factorized, hf, h⟩ := Fault.bind_eq_ok_iff.1 h
  cases h
  have hproper := (Draft.addDefinition_added Draft.proper_empty hentry).1
  have hsound := (hproper.of_shape? (Draft.shape?_classed entered
    (ClassTable.ofNames description.unclassifiedName description.undefinedName
      description.whiteDelimiters).tokenClasses entered.coverage.unclassified)).sound
  have hid := (hsound.factorizeAll hf).1.id_eq
  have hpublish := Draft.publishes_publish hid
  have hleaf (i : NodeId) : (factorized.nodes[i]?).bind (·.leaf?) =
      ((entered.nodes[i]?).bind (·.leaf?)).map
        (Draft.markControl entered.coverage.unclassified) :=
    ((Draft.edited_factorizeAll hf).leaf? i).trans (Draft.leaf?_classed entered _ _ i)
  refine ⟨start, entered, factorized.newId, hentry, hproper, ⟨_, rfl, rfl⟩, rfl, ?_, ?_,
    fun id n hn => ?_, fun id n hn hkind => ?_, fun i m hm hkind => ?_⟩
  · simp [Draft.publish, Grammar.ofNodes, Grammar.nodeList]
  · simp [Draft.publish, Grammar.ofNodes, Grammar.nodeList]
  · obtain ⟨i, k, hk, rfl, rfl⟩ := (hpublish _ _ _ _).exists_of_node? hn
    exact congrArg factorized.newId (Draft.id_of_getElem? hid hk)
  · obtain ⟨i, k, hk, rfl, rfl⟩ := (hpublish _ _ _ _).exists_of_node? hn
    obtain ⟨hterminal, hclass⟩ := Node.isLeaf_mapIds factorized.newId k
    have hkk : k.leaf? = some k :=
      Node.leaf?_eq_some_iff.2 ⟨rfl, by simpa [hterminal, hclass] using hkind⟩
    have hi := hleaf i
    rw [hk, Option.bind_some, hkk] at hi
    obtain ⟨m, hm, rfl⟩ := Option.map_eq_some_iff.1 hi.symm
    obtain ⟨m', hm', hmm⟩ := Option.bind_eq_some_iff.1 hm
    obtain ⟨rfl, -⟩ := Node.leaf?_eq_some_iff.1 hmm
    exact ⟨i, m', hm', rfl, rfl⟩
  · have hmm : m.leaf? = some m := Node.leaf?_eq_some_iff.2 ⟨rfl, by simpa using hkind⟩
    have hi := hleaf i
    rw [hm, Option.bind_some, hmm, Option.map_some] at hi
    obtain ⟨k, hk, hkk⟩ := Option.bind_eq_some_iff.1 hi
    obtain ⟨rfl, -⟩ := Node.leaf?_eq_some_iff.1 hkk
    exact (hpublish _ _ _ _).node i _ hk

end Syntagma
