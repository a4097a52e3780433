import Syntagma.Proofs.Grammar.Entry

/-! What stands outside of tokens. While a description is entered, each element is taken with
whether it stands inside a token. Outside of tokens a class is refused and a terminal is listed, so
whatever a definition that stands there uses is a listed terminal or a medium, in every later draft
too. -/

namespace Syntagma

mutual

/-- A definition and all definitions inside its cases, each with whether it stands inside a
token. -/
def Definition.placed (inside : Bool) : Definition → List (Bool × Definition)
  | .mk name kind cases => (inside, .mk name kind cases) ::
    if Draft.isClassKind kind then [] else placedInCases (inside || Draft.isTokenKind kind) cases

def placedInElement (inside : Bool) : CaseElement → List (Bool × Definition)
  | .reference _ => []
  | .terminal _ => []
  | .definition definition => definition.placed inside

def placedInCase (inside : Bool) : List CaseElement → List (Bool × Definition)
  | [] => []
  | e :: rest => placedInElement inside e ++ placedInCase inside rest

def placedInCases (inside : Bool) : List (List CaseElement) → List (Bool × Definition)
  | [] => []
  | c :: rest => placedInCase inside c ++ placedInCases inside rest

end

mutual

/-- Every definition has its place. -/
theorem map_placed (inside : Bool) (definition : Definition) :
    (definition.placed inside).map (·.2) = definition.all := by
  obtain ⟨name, kind, cases⟩ := definition
  unfold Definition.placed Definition.all
  rw [List.map_cons]
  congr 1
  split
  · rfl
  · exact map_placedInCases _ cases

theorem map_placedInElement (inside : Bool) (element : CaseElement) :
    (placedInElement inside element).map (·.2) = definitionsInElement element := by
  cases element with
  | reference name => rfl
  | terminal spec => rfl
  | definition definition => exact map_placed inside definition

theorem map_placedInCase (inside : Bool) (case : List CaseElement) :
    (placedInCase inside case).map (·.2) = definitionsInCase case := by
  cases case with
  | nil => rfl
  | cons element rest =>
    unfold placedInCase definitionsInCase
    rw [List.map_append, map_placedInElement inside element, map_placedInCase inside rest]

theorem map_placedInCases (inside : Bool) (cases : List (List CaseElement)) :
    (placedInCases inside cases).map (·.2) = definitionsInCases cases := by
  cases cases with
  | nil => rfl
  | cons case rest =>
    unfold placedInCases definitionsInCases
    rw [List.map_append, map_placedInCase inside case, map_placedInCases inside rest]

end

/-- Whether a script can answer for the node: a listed terminal, or a medium, defined token or
not. -/
def Node.isAnswerable (n : Node) : Bool := n.isListedTerminal || n.isMedium

namespace Draft

variable {d d' d'' : Draft} {id : NodeId}

/-- Some node for the symbol can be answered. -/
def Admits (d : Draft) (s : Symbol) : Prop :=
  ∃ (i : NodeId) (n : Node), d.nodes[i]? = some n ∧ n.symbol? = some s ∧ n.isAnswerable

/-- Each node of the earlier draft stands for the same symbol in the later one, and can be answered
there if it could before. -/
def Rises (d d' : Draft) : Prop := ∀ (i : NodeId) (n : Node), d.nodes[i]? = some n →
  ∃ n', d'.nodes[i]? = some n' ∧ n'.symbol? = n.symbol? ∧ (n.isAnswerable → n'.isAnswerable)

namespace Rises

theorem refl (d : Draft) : d.Rises d := fun _ n hn => ⟨n, hn, rfl, fun h => h⟩

theorem trans (h : d.Rises d') (h' : d'.Rises d'') : d.Rises d'' := by
  intro i n hn
  obtain ⟨n', hn', hs, ha⟩ := h i n hn
  obtain ⟨n'', hn'', hs', ha'⟩ := h' i n' hn'
  exact ⟨n'', hn'', hs'.trans hs, fun h => ha' (ha h)⟩

theorem admits (h : d.Rises d') {s : Symbol} (hs : d.Admits s) : d'.Admits s := by
  obtain ⟨i, n, hn, hs, ha⟩ := hs
  obtain ⟨n', hn', hs', ha'⟩ := h i n hn
  exact ⟨i, n', hn', hs'.trans hs, ha' ha⟩

theorem push (d : Draft) (name : String) (execClass : Option String) (kind : NodeKind) :
    d.Rises (d.push name execClass kind) := by
  intro i n hn
  have hi : i ≠ d.nodes.size := Nat.ne_of_lt (Array.getElem?_eq_some_iff.1 hn).1
  exact ⟨n, by rw [getElem?_push, if_neg hi, hn], rfl, fun h => h⟩

theorem setCases (d : Draft) (id : NodeId) (cases : List (List NodeId)) :
    d.Rises (d.setCases id cases) := by
  intro i n hn
  rw [Draft.setCases, getElem?_modifyMedium, hn]
  split
  · refine ⟨_, rfl, symbol?_onMedium _ n, fun h => ?_⟩
    obtain ⟨id, name, execClass, kind⟩ := n
    cases kind <;> exact h
  · exact ⟨n, rfl, rfl, fun h => h⟩

theorem joinTerminal (d : Draft) (id : NodeId) (spec : TerminalSpec) (listed : Bool) :
    d.Rises (d.joinTerminal id spec listed) := by
  intro i n hn
  rw [Draft.joinTerminal, Array.getElem?_modify]
  split
  · refine ⟨_, by rw [hn, Option.map_some], ?_, fun h => ?_⟩
    · obtain ⟨id, name, execClass, kind⟩ := n
      cases kind <;> rfl
    · obtain ⟨id, name, execClass, kind⟩ := n
      cases kind with
      | terminal data =>
        have hlisted : data.isListed = true := by
          simpa [Node.isAnswerable, Node.isListedTerminal, Node.terminal?, Node.isMedium,
            Node.medium?] using h
        simp [Node.isAnswerable, Node.isListedTerminal, Node.terminal?, hlisted]
      | _ => exact h
  · exact ⟨n, hn, rfl, fun h => h⟩

end Rises

/-- Between the two drafts the definitions were entered, and whatever one of them uses that stands
outside of tokens can be answered. -/
structure Answers (d d' : Draft) (placed : List (Bool × Definition)) : Prop where
  rises : d.Rises d'
  admits (definition : Definition) : (false, definition) ∈ placed → definition.kind = .medium →
    ∀ production ∈ definition.productions, ∀ s ∈ production, d'.Admits s

namespace Answers

theorem of_rises (h : d.Rises d') : Answers d d' [] := ⟨h, fun _ hm => absurd hm List.not_mem_nil⟩

theorem trans {l l' : List (Bool × Definition)} (h : Answers d d' l) (h' : Answers d' d'' l') :
    Answers d d'' (l ++ l') := by
  refine ⟨h.rises.trans h'.rises, fun definition hm hk production hp s hs => ?_⟩
  rcases List.mem_append.1 hm with hm | hm
  · exact h'.rises.admits (h.admits definition hm hk production hp s hs)
  · exact h'.admits definition hm hk production hp s hs

end Answers

/-- A terminal outside of tokens is listed. -/
theorem addTerminal_answers {options : GrammarOptions} {inside : Bool} {spec : TerminalSpec}
    (h : addTerminal options inside spec d = .ok (id, d')) :
    d.Rises d' ∧ (inside = false → d'.Admits (.terminal spec.text)) := by
  unfold addTerminal at h
  split at h
  next hnone =>
    cases h
    refine ⟨.push _ _ _ _, fun hi => ⟨d.nextId, _, by rw [getElem?_push, nextId, if_pos rfl], rfl, ?_⟩⟩
    simp [Node.isAnswerable, Node.isListedTerminal, Node.terminal?, hi]
  next found hfound =>
    have hjoin : d' = d.joinTerminal found spec (!inside || options.includeTokenTerminals) := by
      split at h
      · split at h <;> cases h
        rfl
      · cases h
        rfl
    subst hjoin
    refine ⟨.joinTerminal _ _ _ _, fun hi => ?_⟩
    have hs := symbol?_of_terminal? hfound
    rw [symbol?_eq] at hs
    obtain ⟨n, hn, hs⟩ := Option.bind_eq_some_iff.1 hs
    refine ⟨found, _, by rw [joinTerminal, Array.getElem?_modify, if_pos rfl, hn]; rfl, ?_, ?_⟩
    · obtain ⟨id, name, execClass, kind⟩ := n
      cases kind <;> exact hs
    · obtain ⟨id, name, execClass, kind⟩ := n
      cases kind with
      | terminal data => simp [Node.isAnswerable, Node.isListedTerminal, Node.terminal?, hi]
      | _ => cases hs

/-- An element outside of tokens that is not refused is no class. -/
theorem admits_of_checkClassUse {name : String} (hs : d.symbol? id = some (.named name))
    (h : checkClassUse false id d = .ok ()) : d.Admits (.named name) := by
  rw [symbol?_eq] at hs
  obtain ⟨n, hn, hs⟩ := Option.bind_eq_some_iff.1 hs
  refine ⟨id, n, hn, hs, ?_⟩
  have hclass : n.isClass = false := by
    unfold checkClassUse at h
    rw [hn] at h
    cases hc : n.isClass with
    | false => rfl
    | true =>
      simp only [Bool.not_false, Option.any_some, hc, Bool.and_self, if_true] at h
      exact nomatch h
  have hnonterminal := (symbol?_eq_named_iff.1 hs).1
  rw [Node.isNonterminal, hclass, Bool.false_or] at hnonterminal
  rw [Node.isAnswerable, hnonterminal, Bool.or_true]

mutual

theorem addDefinition_answers {options : GrammarOptions} {inside : Bool} {definition : Definition}
    {d d' : Draft} {id : NodeId} (hd : d.Proper)
    (h : addDefinition options inside definition d = .ok (id, d')) :
    Answers d d' (definition.placed inside) := by
  obtain ⟨name, kind, cases⟩ := definition
  unfold addDefinition at h
  split at h
  · exact nomatch h
  next hnew =>
    have hentered := hd.pushDefinition kind (by simpa using hnew)
    have hpush : d.Rises (d.push name (execClassOf kind) (nodeKindOf kind)) := .push _ _ _ _
    unfold Definition.placed
    dsimp only at h
    split at h
    next hk =>
      cases h
      refine ⟨hpush, fun definition hm hmedium => ?_⟩
      rw [if_pos hk] at hm
      obtain ⟨-, rfl⟩ := Prod.mk.inj (List.mem_singleton.1 hm)
      obtain rfl : kind = .medium := hmedium
      exact nomatch hk
    next hk =>
      obtain ⟨⟨ids, inner⟩, hcases, h⟩ := Fault.bind_eq_ok_iff.1 h
      cases h
      obtain ⟨hanswers, hadmits⟩ := addCases_answers hentered hcases
      have hset : inner.Rises (inner.setCases d.nextId ids) := .setCases _ _ _
      refine ⟨(hpush.trans hanswers.rises).trans hset, fun definition hm hmedium production hp s hs =>
        hset.admits ?_⟩
      rw [if_neg hk] at hm
      rcases List.mem_cons.1 hm with heq | hm
      · obtain ⟨hinside, rfl⟩ := Prod.mk.inj heq
        obtain rfl : kind = .medium := hmedium
        obtain ⟨case, hc, rfl⟩ := List.mem_map.1 hp
        obtain ⟨element, he, rfl⟩ := List.mem_map.1 hs
        exact hadmits (by rw [← hinside]; rfl) case hc element he
      · exact hanswers.admits definition hm hmedium production hp s hs

theorem addElement_answers {options : GrammarOptions} {inside : Bool} {owner : String}
    {element : CaseElement} {d d' : Draft} {id : NodeId} (hd : d.Proper)
    (h : addElement options inside owner element d = .ok (id, d')) :
    Answers d d' (placedInElement inside element) ∧ (inside = false → d'.Admits element.symbol) := by
  have hadded := addElement_added hd h
  cases element with
  | reference name =>
    unfold addElement at h
    split at h
    next found hfound =>
      obtain ⟨⟨⟩, hcheck, h⟩ := Fault.bind_eq_ok_iff.1 h
      cases h
      refine ⟨.of_rises (.refl d), fun hi => ?_⟩
      rw [hi] at hcheck
      exact admits_of_checkClassUse hadded.2.2 (Fault.mapError_eq_ok_iff.1 hcheck)
    · exact nomatch h
  | terminal spec =>
    unfold addElement at h
    obtain ⟨hrises, hadmits⟩ := addTerminal_answers (Fault.mapError_eq_ok_iff.1 h)
    exact ⟨.of_rises hrises, hadmits⟩
  | definition definition =>
    unfold addElement at h
    obtain ⟨⟨found, inner⟩, hinner, h⟩ := Fault.bind_eq_ok_iff.1 h
    obtain ⟨⟨⟩, hcheck, h⟩ := Fault.bind_eq_ok_iff.1 h
    cases h
    refine ⟨addDefinition_answers hd (Fault.mapError_eq_ok_iff.1 hinner), fun hi => ?_⟩
    rw [hi] at hcheck
    exact admits_of_checkClassUse hadded.2.2 (Fault.mapError_eq_ok_iff.1 hcheck)

theorem addCase_answers {options : GrammarOptions} {inside : Bool} {owner : String}
    {case : List CaseElement} {d d' : Draft} {ids : List NodeId} (hd : d.Proper)
    (h : addCase options inside owner case d = .ok (ids, d')) :
    Answers d d' (placedInCase inside case) ∧
      (inside = false → ∀ element ∈ case, d'.Admits element.symbol) := by
  cases case with
  | nil =>
    cases h
    exact ⟨.of_rises (.refl d), fun _ _ he => absurd he List.not_mem_nil⟩
  | cons element rest =>
    unfold addCase at h
    obtain ⟨⟨id, d₁⟩, hfirst, h⟩ := Fault.bind_eq_ok_iff.1 h
    obtain ⟨⟨more, d₂⟩, hrest, h⟩ := Fault.bind_eq_ok_iff.1 h
    cases h
    obtain ⟨ha₁, hadmits₁⟩ := addElement_answers hd hfirst
    obtain ⟨ha₂, hadmits₂⟩ := addCase_answers (addElement_added hd hfirst).1 hrest
    refine ⟨ha₁.trans ha₂, fun hi e he => ?_⟩
    rcases List.mem_cons.1 he with rfl | he
    · exact ha₂.rises.admits (hadmits₁ hi)
    · exact hadmits₂ hi e he

theorem addCases_answers {options : GrammarOptions} {inside : Bool} {owner : String}
    {cases : List (List CaseElement)} {d d' : Draft} {ids : List (List NodeId)} (hd : d.Proper)
    (h : addCases options inside owner cases d = .ok (ids, d')) :
    Answers d d' (placedInCases inside cases) ∧
      (inside = false → ∀ case ∈ cases, ∀ element ∈ case, d'.Admits element.symbol) := by
  cases cases with
  | nil =>
    cases h
    exact ⟨.of_rises (.refl d), fun _ _ hc => absurd hc List.not_mem_nil⟩
  | cons case rest =>
    unfold addCases at h
    obtain ⟨⟨first, d₁⟩, hfirst, h⟩ := Fault.bind_eq_ok_iff.1 h
    obtain ⟨⟨more, d₂⟩, hrest, h⟩ := Fault.bind_eq_ok_iff.1 h
    cases h
    obtain ⟨ha₁, hadmits₁⟩ := addCase_answers hd hfirst
    obtain ⟨ha₂, hadmits₂⟩ := addCases_answers (addCase_added hd hfirst).1 hrest
    refine ⟨ha₁.trans ha₂, fun hi c hc e he => ?_⟩
    rcases List.mem_cons.1 hc with rfl | hc
    · exact ha₂.rises.admits (hadmits₁ hi e he)
    · exact hadmits₂ hi c hc e he

end

end Draft

end Syntagma
