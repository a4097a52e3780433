import Syntagma.Proofs.Grammar.Compilation
import Syntagma.Proofs.Grammar.Editing

/-! The numbers of tokens. Listed terminals and defined tokens are published first, in the order in
which they were entered. Handling left recursion and factorization add no node to them and change
none, so their numbers do not depend on either. -/

namespace Syntagma

/-! ### Lists that show the same at every place -/

theorem filterMap_eq_nil_of_getElem? {α β : Type} {l : List α} {e : α → Option β}
    (h : ∀ i : Nat, (l[i]?).bind e = none) : l.filterMap e = [] := by
  refine List.filterMap_eq_nil_iff.2 (fun a ha => ?_)
  obtain ⟨i, hi⟩ := List.mem_iff_getElem?.1 ha
  have hnone := h i
  rwa [hi, Option.bind_some] at hnone

/-- What is kept of two lists is the same if it stands at the same places. -/
theorem filterMap_eq_of_getElem? {α β : Type} {l l' : List α} {e : α → Option β}
    (h : ∀ i : Nat, (l[i]?).bind e = (l'[i]?).bind e) : l.filterMap e = l'.filterMap e := by
  induction l generalizing l' with
  | nil => exact (filterMap_eq_nil_of_getElem? (fun i => (h i).symm)).symm
  | cons a l ih =>
    cases l' with
    | nil => exact filterMap_eq_nil_of_getElem? h
    | cons a' l' =>
      have hfirst : e a = e a' := h 0
      have hrest := ih (fun i => h (i + 1))
      simp only [List.filterMap_cons, hfirst, hrest]

namespace Node

/-- The symbol that scripts have tokens for: a listed terminal or a defined token. -/
def tokenSymbol? (n : Node) : Option Symbol :=
  if n.isListedTerminal || n.isDefinedToken then n.symbol? else none

theorem isTokenKey_of_tokenSymbol? {n : Node} {s : Symbol} (h : n.tokenSymbol? = some s) :
    n.isTokenKey := by
  obtain ⟨hn, -⟩ := Option.ite_none_right_eq_some.1 h
  rw [isTokenKey, Bool.or_eq_true]
  rw [Bool.or_eq_true] at hn
  exact hn.imp_left (fun hl => Option.isSome_of_any hl)

theorem symbol?_of_tokenSymbol? {n : Node} {s : Symbol} (h : n.tokenSymbol? = some s) :
    n.symbol? = some s :=
  (Option.ite_none_right_eq_some.1 h).2

theorem tokenSymbol?_mapIds (f : NodeId → NodeId) (n : Node) :
    (n.mapIds f).tokenSymbol? = n.tokenSymbol? := by
  obtain ⟨id, name, execClass, kind⟩ := n
  cases kind <;> rfl

/-- Listed terminals are the nodes of rank zero, and defined tokens those of rank one. -/
theorem tokenSymbol?_eq (n : Node) : n.tokenSymbol? =
    match Draft.rank n with
    | 0 => some (.terminal n.name)
    | 1 => some (.named n.name)
    | _ => none := by
  obtain ⟨id, name, execClass, kind⟩ := n
  cases kind with
  | terminal data =>
    obtain ⟨isControl, isListed, _, _, _, _, _⟩ := data
    cases isListed <;> rfl
  | symbolClass data => rfl
  | medium data =>
    obtain ⟨cases, trie, token, isSynthetic⟩ := data
    cases token <;> cases isSynthetic <;> rfl
  | factor trie => rfl

theorem tokenSymbol?_eq_none_iff {n : Node} : n.tokenSymbol? = none ↔ 2 ≤ Draft.rank n := by
  rw [tokenSymbol?_eq]
  generalize Draft.rank n = r
  match r with
  | 0 => simp
  | 1 => simp
  | r + 2 => simp

end Node

/-- What the number stands for in scripts. -/
def Grammar.tokenSymbol? (g : Grammar) (id : NodeId) : Option Symbol :=
  (g.node? id).bind (·.tokenSymbol?)

namespace Draft

variable {d d' d'' : Draft} {id : NodeId}

/-- The two drafts have the same tokens under the same numbers. -/
def SameTokens (d d' : Draft) : Prop :=
  ∀ i : NodeId, (d'.nodes[i]?).bind (·.tokenSymbol?) = (d.nodes[i]?).bind (·.tokenSymbol?)

theorem SameTokens.trans (h : d.SameTokens d') (h' : d'.SameTokens d'') : d.SameTokens d'' :=
  fun i => (h' i).trans (h i)

/-! ### Entering -/

section Options

variable {options options' : GrammarOptions}

theorem addTerminal_congr (h : options.includeTokenTerminals = options'.includeTokenTerminals)
    (insideToken : Bool) (spec : TerminalSpec) (d : Draft) :
    addTerminal options insideToken spec d = addTerminal options' insideToken spec d := by
  unfold addTerminal
  rw [h]

mutual

/-- What is entered depends on no option but the one for terminals inside tokens. -/
theorem addDefinition_congr (h : options.includeTokenTerminals = options'.includeTokenTerminals)
    (insideToken : Bool) (definition : Definition) (d : Draft) :
    addDefinition options insideToken definition d =
      addDefinition options' insideToken definition d := by
  obtain ⟨name, kind, cases⟩ := definition
  unfold addDefinition
  dsimp only
  rw [addCases_congr h (insideToken || isTokenKind kind) name cases]

theorem addElement_congr (h : options.includeTokenTerminals = options'.includeTokenTerminals)
    (insideToken : Bool) (owner : String) (element : CaseElement) (d : Draft) :
    addElement options insideToken owner element d =
      addElement options' insideToken owner element d := by
  cases element with
  | reference name =>
    unfold addElement
    rfl
  | terminal spec =>
    unfold addElement
    rw [addTerminal_congr h]
  | definition definition =>
    unfold addElement
    rw [addDefinition_congr h]

theorem addCase_congr (h : options.includeTokenTerminals = options'.includeTokenTerminals)
    (insideToken : Bool) (owner : String) (case : List CaseElement) (d : Draft) :
    addCase options insideToken owner case d = addCase options' insideToken owner case d := by
  cases case with
  | nil => rfl
  | cons element rest =>
    unfold addCase
    rw [addElement_congr h]
    simp only [addCase_congr h insideToken owner rest]

theorem addCases_congr (h : options.includeTokenTerminals = options'.includeTokenTerminals)
    (insideToken : Bool) (owner : String) (cases : List (List CaseElement)) (d : Draft) :
    addCases options insideToken owner cases d = addCases options' insideToken owner cases d := by
  cases cases with
  | nil => rfl
  | cons case rest =>
    unfold addCases
    rw [addCase_congr h]
    simp only [addCases_congr h insideToken owner rest]

end

end Options

/-- Handling left recursion and factorization keep the tokens. -/
theorem Edited.sameTokens (h : d.Edited d') : d.SameTokens d' := by
  refine h.getElem?_bind (fun id name execClass kind hk => ?_) (fun f n hf => ?_)
  · cases kind with
    | medium data =>
      have htoken : data.token = none := by simpa [NodeKind.isAuxiliary] using hk
      simp [Node.tokenSymbol?, Node.isListedTerminal, Node.terminal?, Node.isDefinedToken,
        Node.tokenTag?, Node.medium?, htoken]
    | factor trie => rfl
    | _ => cases hk
  · obtain ⟨id, name, execClass, kind⟩ := n
    cases kind with
    | medium data =>
      simp [onMedium, Node.tokenSymbol?, Node.isListedTerminal, Node.terminal?,
        Node.isDefinedToken, Node.tokenTag?, Node.medium?, Node.symbol?, hf]
    | _ => rfl

/-! ### The stages for lexing -/

theorem tokenSymbol?_assignTokenClasses (nodes : List Node) (m : TokenClassMap) :
    (assignTokenClasses nodes m).1.map (·.tokenSymbol?) = nodes.map (·.tokenSymbol?) := by
  induction nodes generalizing m with
  | nil => rfl
  | cons n nodes ih =>
    obtain ⟨id, name, execClass, kind⟩ := n
    unfold assignTokenClasses
    cases kind with
    | medium data =>
      obtain ⟨cases, trie, token, isSynthetic⟩ := data
      cases token with
      | none => exact congrArg (List.cons _) (ih m)
      | some tag => exact congrArg (List.cons _) (ih _)
    | _ => exact congrArg (List.cons _) (ih m)

theorem tokenSymbol?_markControl (unclassified : List String) (n : Node) :
    (markControl unclassified n).tokenSymbol? = n.tokenSymbol? := by
  obtain ⟨id, name, execClass, kind⟩ := n
  cases kind <;> rfl

theorem sameTokens_classed (d : Draft) (m : TokenClassMap) (unclassified : List String) :
    d.SameTokens (d.classed m unclassified) := by
  intro i
  have hnodes : ((assignTokenClasses d.nodes.toList m).1.map (markControl unclassified)).map
      (·.tokenSymbol?) = d.nodes.toList.map (·.tokenSymbol?) := by
    rw [List.map_map, ← tokenSymbol?_assignTokenClasses d.nodes.toList m]
    exact List.map_congr_left (fun n _ => tokenSymbol?_markControl unclassified n)
  have hi := congrArg (fun l => (l[i]?).bind id) hnodes
  simpa [classed, Option.bind_map, Function.comp_def] using hi

/-! ### Publication -/

/-- The nodes of one rank, in order of creation. -/
def nodesOfRank (d : Draft) (r : Nat) : List Node := d.nodes.toList.filter (fun n => rank n == r)

/-- The rank of the nodes that stand for a symbol of scripts. -/
def symbolRank : Symbol → Nat
  | .terminal _ => 0
  | .named _ => 1

theorem rank_of_tokenSymbol? {n : Node} {s : Symbol} (h : n.tokenSymbol? = some s) :
    rank n = symbolRank s := by
  rw [Node.tokenSymbol?_eq] at h
  split at h
  next hr =>
    cases h
    exact hr
  next hr =>
    cases h
    exact hr
  · exact nomatch h

/-- The tokens of the first two ranks are the tokens of the draft, sorted. -/
theorem map_nodesOfRank {r : Nat} (hr : r < 2) (l : List Node) :
    (l.filter (fun n => rank n == r)).map (·.tokenSymbol?) =
      ((l.filterMap (·.tokenSymbol?)).filter (fun s => symbolRank s == r)).map some := by
  induction l with
  | nil => rfl
  | cons n l ih =>
    cases hs : n.tokenSymbol? with
    | none =>
      have hrank : (rank n == r) = false := by
        have hge := Node.tokenSymbol?_eq_none_iff.1 hs
        rw [beq_eq_false_iff_ne]
        omega
      rw [List.filter_cons_of_neg (by simp [hrank]), List.filterMap_cons_none hs, ih]
    | some s =>
      rw [List.filterMap_cons_some hs, List.filter_cons, List.filter_cons,
        rank_of_tokenSymbol? hs]
      split
      · rw [List.map_cons, List.map_cons, ih, hs]
      · exact ih

theorem SameTokens.map_nodesOfRank (h : d.SameTokens d') {r : Nat} (hr : r < 2) :
    (d'.nodesOfRank r).map (·.tokenSymbol?) = (d.nodesOfRank r).map (·.tokenSymbol?) := by
  have htokens : d'.nodes.toList.filterMap (·.tokenSymbol?) =
      d.nodes.toList.filterMap (·.tokenSymbol?) :=
    filterMap_eq_of_getElem? (fun i => by simpa [Array.getElem?_toList] using h i)
  rw [nodesOfRank, nodesOfRank, Draft.map_nodesOfRank hr, Draft.map_nodesOfRank hr, htokens]

/-- Behind the first two ranks there are no tokens. -/
theorem getElem?_publishedOrder_token (d : Draft) (j : Nat) :
    (d.publishedOrder[j]?).bind (·.tokenSymbol?) =
      ((d.nodesOfRank 0 ++ d.nodesOfRank 1)[j]?).bind (·.tokenSymbol?) := by
  have hsplit : d.publishedOrder = (d.nodesOfRank 0 ++ d.nodesOfRank 1) ++
      (d.nodesOfRank 2 ++ (d.nodesOfRank 3 ++ (d.nodesOfRank 4 ++ (d.nodesOfRank 5 ++ [])))) := by
    rw [List.append_assoc]
    rfl
  have hrest (n : Node) (hn : n ∈ d.nodesOfRank 2 ++ (d.nodesOfRank 3 ++
      (d.nodesOfRank 4 ++ (d.nodesOfRank 5 ++ [])))) : n.tokenSymbol? = none := by
    rw [Node.tokenSymbol?_eq_none_iff]
    simp only [nodesOfRank, List.mem_append, List.mem_filter, beq_iff_eq, List.not_mem_nil,
      or_false] at hn
    omega
  rw [hsplit]
  by_cases hj : j < (d.nodesOfRank 0 ++ d.nodesOfRank 1).length
  · rw [List.getElem?_append_left hj]
  · rw [List.getElem?_append_right (Nat.le_of_not_lt hj),
      List.getElem?_eq_none (Nat.le_of_not_lt hj), Option.bind_none]
    refine Option.bind_eq_none_iff.2 (fun n hn => hrest n (List.mem_of_getElem? hn))

theorem SameTokens.publishedOrder (h : d.SameTokens d') (j : Nat) :
    (d'.publishedOrder[j]?).bind (·.tokenSymbol?) =
      (d.publishedOrder[j]?).bind (·.tokenSymbol?) := by
  have hlist : (d'.nodesOfRank 0 ++ d'.nodesOfRank 1).map (·.tokenSymbol?) =
      (d.nodesOfRank 0 ++ d.nodesOfRank 1).map (·.tokenSymbol?) := by
    rw [List.map_append, List.map_append, h.map_nodesOfRank (by decide),
      h.map_nodesOfRank (by decide)]
  have hj := congrArg (fun l => (l[j]?).bind id) hlist
  rw [getElem?_publishedOrder_token, getElem?_publishedOrder_token]
  simpa only [List.getElem?_map, Option.bind_map, Function.comp_def, id_eq] using hj

theorem tokenSymbol?_publish (d : Draft) (axiomId : NodeId) (classTable : ClassTable)
    (unclassified : List String) (hasLeftRecursion : Bool) (j : NodeId) :
    (d.publish axiomId classTable unclassified hasLeftRecursion).tokenSymbol? j =
      (d.publishedOrder[j]?).bind (·.tokenSymbol?) := by
  rw [Grammar.tokenSymbol?, node?_publish, Option.bind_map]
  simp only [Function.comp_def, Node.tokenSymbol?_mapIds]

end Draft

/-- The tokens of a compiled grammar have the numbers that the entered draft gives them. -/
theorem tokenSymbol?_of_compile {description : GrammarDescription} {options : GrammarOptions}
    {g : Grammar} (h : Grammar.compile description options = .ok g) : ∃ start entered,
      Draft.addDefinition options false description.axiomDefinition .empty =
        .ok (start, entered) ∧
      ∀ j, g.tokenSymbol? j = (entered.publishedOrder[j]?).bind (·.tokenSymbol?) := by
  unfold Grammar.compile at h
  obtain ⟨⟨start, entered⟩, hentry, h⟩ := Fault.bind_eq_ok_iff.1 h
  dsimp only at h
  split at h
  · exact nomatch h
  · obtain ⟨factorized, hf, h⟩ := Fault.bind_eq_ok_iff.1 h
    cases h
    refine ⟨start, entered, hentry, fun j => ?_⟩
    rw [Draft.tokenSymbol?_publish]
    exact ((Draft.sameTokens_classed entered _ _).trans
      (Draft.edited_factorizeAll hf).sameTokens).publishedOrder j

/-- However left recursion is handled, the same numbers stand for the same tokens. -/
theorem tokenSymbol?_eq_of_compile {description : GrammarDescription}
    {options options' : GrammarOptions} {g g' : Grammar}
    (h : Grammar.compile description options = .ok g)
    (h' : Grammar.compile description options' = .ok g')
    (ht : options.includeTokenTerminals = options'.includeTokenTerminals) :
    g'.tokenSymbol? = g.tokenSymbol? := by
  obtain ⟨start, entered, he, hg⟩ := tokenSymbol?_of_compile h
  obtain ⟨start', entered', he', hg'⟩ := tokenSymbol?_of_compile h'
  rw [Draft.addDefinition_congr ht] at he
  obtain ⟨rfl, rfl⟩ := Prod.mk.inj (Except.ok.inj (he.symm.trans he'))
  funext id
  rw [hg, hg']

end Syntagma
