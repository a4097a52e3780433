import Syntagma.Proofs.Grammar.Occurrences

/-! How entering a description ends. It looks at the elements in the order in which they are written,
and the draft that it has made so far answers what was defined and given before. So it succeeds if
nothing is wrong with any of them, and otherwise it ends at the first fault, told with the definitions
around it. -/

namespace Syntagma

namespace Fault

/-- A fault inside of definitions, the innermost first; without context where there are none. -/
def within (kind : FaultKind) (frames : List String) : Fault :=
  ⟨kind, if frames.isEmpty then none else some ⟨none, frames⟩⟩

theorem enclosedBy_within (kind : FaultKind) (frames : List String) (name : String) :
    (within kind frames).enclosedBy name = within kind (frames ++ [name]) := by
  cases frames <;> simp [within, enclosedBy, FaultContext.enclosedBy, FaultContext.empty]

end Fault

namespace Draft

variable {d d' : Draft} {id : NodeId} {before os os' : List Occurrence} {o : Occurrence}
  {outer : List String} {options : GrammarOptions} {inside : Bool} {name text : String}

/-- Some node is of that kind. -/
def Has (d : Draft) (good : Node → Prop) : Prop :=
  ∃ (i : NodeId) (n : Node), d.nodes[i]? = some n ∧ good n

section Has

variable {good : Node → Prop}

theorem has_push {execClass : Option String} {kind : NodeKind} :
    (d.push name execClass kind).Has good ↔
      d.Has good ∨ good ⟨d.nodes.size, name, execClass, kind⟩ := by
  unfold Has
  simp only [getElem?_push]
  constructor
  · rintro ⟨i, n, hn, hgood⟩
    split at hn
    · obtain rfl := Option.some.inj hn
      exact .inr hgood
    · exact .inl ⟨i, n, hn, hgood⟩
  · rintro (⟨i, n, hn, hgood⟩ | hgood)
    · have hi : i ≠ d.nodes.size := Nat.ne_of_lt (Array.getElem?_eq_some_iff.1 hn).1
      exact ⟨i, n, by rw [if_neg hi, hn], hgood⟩
    · exact ⟨_, _, if_pos rfl, hgood⟩

/-- A change of one node that keeps what is good changes nothing. -/
theorem has_of_getElem? {f : Node → Node}
    (hd' : ∀ i, d'.nodes[i]? = if i = id then d.nodes[i]?.map f else d.nodes[i]?)
    (hgood : ∀ n, good (f n) ↔ good n) : d'.Has good ↔ d.Has good := by
  unfold Has
  simp only [hd']
  constructor
  · rintro ⟨i, n, hn, h⟩
    split at hn
    · obtain ⟨m, hm, rfl⟩ := Option.map_eq_some_iff.1 hn
      exact ⟨i, m, hm, (hgood m).1 h⟩
    · exact ⟨i, n, hn, h⟩
  · rintro ⟨i, n, hn, h⟩
    by_cases hi : i = id
    · exact ⟨i, _, by rw [if_pos hi, hn, Option.map_some], (hgood n).2 h⟩
    · exact ⟨i, n, by rw [if_neg hi, hn], h⟩

end Has

/-- A node that defines the name, as a class or as a medium. -/
def DefinesNode (name : String) (isClass : Bool) (n : Node) : Prop :=
  n.symbol? = some (.named name) ∧ n.isClass = isClass

/-- The node of a terminal with that execution class. -/
def GivesNode (text execClass : String) (n : Node) : Prop :=
  n.symbol? = some (.terminal text) ∧ n.execClass = some execClass

/-- The draft has a node for every definition that was seen, and for every text the execution class
that was given to it. -/
structure Reflects (d : Draft) (seen : List Occurrence) : Prop where
  defines (name : String) (isClass : Bool) :
    d.Has (DefinesNode name isClass) ↔ ∃ s ∈ seen, s.Defines name isClass
  gives (text execClass : String) :
    d.Has (GivesNode text execClass) ↔ ∃ s ∈ seen, s.Gives text execClass

theorem reflects_empty : Draft.empty.Reflects [] := by
  constructor <;> simp [Has, Draft.empty]

theorem exists_node_of_nonterminal? (h : d.nonterminal? name = some id) :
    ∃ n, d.nodes[id]? = some n ∧ n.symbol? = some (.named name) := by
  have hs := symbol?_of_nonterminal? h
  rwa [symbol?_eq, Option.bind_eq_some_iff] at hs

theorem exists_node_of_terminal? (h : d.terminal? text = some id) :
    ∃ n, d.nodes[id]? = some n ∧ n.symbol? = some (.terminal text) := by
  have hs := symbol?_of_terminal? h
  rwa [symbol?_eq, Option.bind_eq_some_iff] at hs

/-- Nodes of one symbol are one node. -/
theorem Proper.eq_of_symbol? (hd : d.Proper) {i j : NodeId} {n m : Node} {s : Symbol}
    (hn : d.nodes[i]? = some n) (hm : d.nodes[j]? = some m) (hns : n.symbol? = some s)
    (hms : m.symbol? = some s) : n = m := by
  have hij : i = j := hd.symbol_inj i j s (by rw [symbol?_eq, hn, Option.bind_some, hns])
    (by rw [symbol?_eq, hm, Option.bind_some, hms])
  subst hij
  exact Option.some.inj (hn.symm.trans hm)

namespace Reflects

variable {n : Node}

/-- A name without a node was not defined. -/
theorem not_defines (h : d.Reflects before) (hnone : d.nonterminal? name = none) :
    ∀ s ∈ before, ∀ isClass, ¬s.Defines name isClass := by
  intro s hs isClass hdef
  obtain ⟨i, n, hn, hsymbol, -⟩ := (h.defines name isClass).2 ⟨s, hs, hdef⟩
  exact symbol?_ne_of_nonterminal? hnone i (by rw [symbol?_eq, hn, Option.bind_some, hsymbol])

/-- A text without a node was given no execution class. -/
theorem not_gives (h : d.Reflects before) (hnone : d.terminal? text = none) {execClass : String} :
    ¬∃ s ∈ before, s.Gives text execClass := by
  rw [← h.gives]
  rintro ⟨i, n, hn, hsymbol, -⟩
  exact symbol?_ne_of_terminal? hnone i (by rw [symbol?_eq, hn, Option.bind_some, hsymbol])

/-- The node of a name tells what was defined by it. -/
theorem isClass_iff (h : d.Reflects before) (hd : d.Proper) (hn : d.nodes[id]? = some n)
    (hs : n.symbol? = some (.named name)) {isClass : Bool} :
    n.isClass = isClass ↔ ∃ s ∈ before, s.Defines name isClass := by
  rw [← h.defines]
  constructor
  · exact fun he => ⟨id, n, hn, hs, he⟩
  · rintro ⟨j, m, hm, hms, he⟩
    rwa [hd.eq_of_symbol? hn hm hs hms]

/-- The node of a text tells what execution class was given to it. -/
theorem execClass_iff (h : d.Reflects before) (hd : d.Proper) (hn : d.nodes[id]? = some n)
    (hs : n.symbol? = some (.terminal text)) {execClass : String} :
    n.execClass = some execClass ↔ ∃ s ∈ before, s.Gives text execClass := by
  rw [← h.gives]
  constructor
  · exact fun he => ⟨id, n, hn, hs, he⟩
  · rintro ⟨j, m, hm, hms, he⟩
    rwa [hd.eq_of_symbol? hn hm hs hms]

end Reflects

/-! ### How entering ends -/

/-- How entering ends that comes to these occurrences after those before: with a draft that has them
all if nothing is wrong with any, and otherwise with the first fault, told with the definitions around
it up to the outer ones. -/
structure Ends {α : Type} (before os : List Occurrence) (outer : List String)
    (result : Except Fault (α × Draft)) : Prop where
  enters : Faultless before os → ∃ a d, result = .ok (a, d) ∧ d.Reflects (before ++ os)
  refuses (o : Occurrence) (kind : FaultKind) : FirstFault before os o kind →
    ∃ frames, o.frames = frames ++ outer ∧ result = .error (.within kind frames)

namespace Ends

variable {α β : Type} {result : Except Fault (α × Draft)}

theorem nil {a : α} (h : d.Reflects before) : Ends before [] outer (.ok (a, d)) :=
  ⟨fun _ => ⟨a, d, rfl, (List.append_nil before).symm ▸ h⟩, fun _ _ h => by cases h⟩

/-- An occurrence with which nothing is wrong may stand in front. -/
theorem cons (hno : ∀ kind, ¬o.Violates before kind)
    (h : Ends (before ++ [o]) os outer result) : Ends before (o :: os) outer result := by
  refine ⟨fun hall => ?_, fun o' kind hfirst => ?_⟩
  · obtain ⟨a, d, he, hr⟩ := h.enters hall.2
    rw [List.append_assoc] at hr
    exact ⟨a, d, he, hr⟩
  · cases hfirst with
    | here hv => exact absurd hv (hno kind)
    | later _ hrest => exact h.refuses o' kind hrest

/-- The one thing that is wrong with an occurrence ends it all. -/
theorem violated {kind : FaultKind} {frames : List String} (hv : o.Violates before kind)
    (hone : ∀ kind', o.Violates before kind' → kind' = kind) (hframes : o.frames = frames ++ outer)
    (he : result = .error (.within kind frames)) : Ends before (o :: os) outer result := by
  refine ⟨fun hall => absurd hv (hall.1 kind), fun o' kind' hfirst => ?_⟩
  cases hfirst with
  | here hv' =>
    obtain rfl := hone kind' hv'
    exact ⟨frames, hframes, he⟩
  | later hs _ => exact absurd hv (hs kind)

theorem bind (h : Ends before os outer result) {f : α × Draft → Except Fault (β × Draft)}
    (hf : ∀ a d, result = .ok (a, d) → d.Reflects (before ++ os) →
      Ends (before ++ os) os' outer (f (a, d))) :
    Ends before (os ++ os') outer (result >>= f) := by
  refine ⟨fun hall => ?_, fun o kind hfirst => ?_⟩
  · obtain ⟨hfirst, hrest⟩ := faultless_append.1 hall
    obtain ⟨a, d, rfl, hr⟩ := h.enters hfirst
    obtain ⟨b, d', he, hr'⟩ := (hf a d rfl hr).enters hrest
    exact ⟨b, d', he, by rwa [List.append_assoc] at hr'⟩
  · rcases firstFault_append.1 hfirst with hfirst | ⟨hall, hfirst⟩
    · obtain ⟨frames, hframes, rfl⟩ := h.refuses o kind hfirst
      exact ⟨frames, hframes, rfl⟩
    · obtain ⟨a, d, rfl, hr⟩ := h.enters hall
      exact (hf a d rfl hr).refuses o kind hfirst

/-- What is done at the end meets no further occurrence. -/
theorem map (h : Ends before os outer result) {f : α × Draft → Except Fault (β × Draft)}
    (hf : ∀ a d, result = .ok (a, d) → d.Reflects (before ++ os) →
      ∃ b d', f (a, d) = .ok (b, d') ∧ d'.Reflects (before ++ os)) :
    Ends before os outer (result >>= f) := by
  rw [← List.append_nil os]
  refine h.bind (fun a d he hr => ?_)
  obtain ⟨b, d', hf, hr'⟩ := hf a d he hr
  rw [hf]
  exact .nil hr'

/-- The next definition outward is added to the fault. -/
theorem mapError (h : Ends before os (name :: outer) result) :
    Ends before os outer (result.mapError (·.enclosedBy name)) := by
  refine ⟨fun hall => ?_, fun o kind hfirst => ?_⟩
  · obtain ⟨a, d, rfl, hr⟩ := h.enters hall
    exact ⟨a, d, rfl, hr⟩
  · obtain ⟨frames, hframes, rfl⟩ := h.refuses o kind hfirst
    refine ⟨frames ++ [name], by rw [hframes, List.append_assoc, List.singleton_append], ?_⟩
    exact congrArg Except.error (Fault.enclosedBy_within kind frames name)

end Ends

/-! ### One element after the other -/

theorem Reflects.reference (h : d.Reflects before) (ho : o.element = .reference name) :
    d.Reflects (before ++ [o]) := by
  have hdefines (name : String) (isClass : Bool) : ¬o.Defines name isClass :=
    Occurrence.not_defines_of_reference ho
  have hgives (text execClass : String) : ¬o.Gives text execClass :=
    Occurrence.not_gives_of_reference ho
  constructor
  · intro name isClass
    simp [h.defines, hdefines]
  · intro text execClass
    simp [h.gives, hgives]

theorem Reflects.pushDefinition (h : d.Reflects before) {kind : DefinitionKind}
    {cases : List (List CaseElement)} (ho : o.element = .definition (.mk name kind cases)) :
    (d.push name (execClassOf kind) (nodeKindOf kind)).Reflects (before ++ [o]) := by
  have hsymbol : (⟨d.nodes.size, name, execClassOf kind, nodeKindOf kind⟩ : Node).symbol? =
      some (.named name) := by cases kind <;> rfl
  have hclass : (⟨d.nodes.size, name, execClassOf kind, nodeKindOf kind⟩ : Node).isClass =
      isClassKind kind := by cases kind <;> rfl
  have hgives (text execClass : String) : ¬o.Gives text execClass :=
    Occurrence.not_gives_of_definition ho
  constructor
  · intro other isClass
    rw [has_push, h.defines, DefinesNode, hsymbol, hclass]
    simp [Occurrence.defines_iff ho, Definition.name, Definition.kind, or_and_right, exists_or]
  · intro text execClass
    rw [has_push, h.gives, GivesNode, hsymbol]
    simp [hgives]

theorem Reflects.setCases (h : d.Reflects before) (id : NodeId) (cases : List (List NodeId)) :
    (d.setCases id cases).Reflects before := by
  have hsymbol (f : MediumData → MediumData) (n : Node) :
      (onMedium f n).symbol? = n.symbol? ∧ (onMedium f n).isClass = n.isClass ∧
        (onMedium f n).execClass = n.execClass := by
    obtain ⟨id, name, execClass, kind⟩ := n
    cases kind <;> exact ⟨rfl, rfl, rfl⟩
  have hget := getElem?_modifyMedium d id (fun data => { data with cases := cases })
  constructor
  · intro name isClass
    refine (has_of_getElem? hget (fun n => ?_)).trans (h.defines name isClass)
    rw [DefinesNode, DefinesNode, (hsymbol _ n).1, (hsymbol _ n).2.1]
  · intro text execClass
    refine (has_of_getElem? hget (fun n => ?_)).trans (h.gives text execClass)
    rw [GivesNode, GivesNode, (hsymbol _ n).1, (hsymbol _ n).2.2]

/-! ### Terminals -/

/-- A node that is joined with a further occurrence of its terminal. -/
def joined (spec : TerminalSpec) (listed : Bool) (n : Node) : Node :=
  match n.kind with
  | .terminal data =>
    { n with
      execClass := spec.execClass <|> n.execClass
      kind := .terminal { data with isListed := data.isListed || listed } }
  | _ => n

theorem getElem?_joinTerminal (d : Draft) (id : NodeId) (spec : TerminalSpec) (listed : Bool)
    (i : NodeId) : (d.joinTerminal id spec listed).nodes[i]? =
      if i = id then d.nodes[i]?.map (joined spec listed) else d.nodes[i]? := by
  change (d.nodes.modify id (joined spec listed))[i]? = _
  rw [Array.getElem?_modify]
  by_cases hi : id = i <;> simp [hi, eq_comm]

theorem symbol?_joined (spec : TerminalSpec) (listed : Bool) (n : Node) :
    (joined spec listed n).symbol? = n.symbol? ∧ (joined spec listed n).isClass = n.isClass := by
  obtain ⟨id, name, execClass, kind⟩ := n
  cases kind <;> exact ⟨rfl, rfl⟩

theorem execClass_joined {spec : TerminalSpec} {listed : Bool} {n : Node}
    (h : n.symbol? = some (.terminal text)) :
    (joined spec listed n).execClass = (spec.execClass <|> n.execClass) := by
  obtain ⟨id, name, execClass, kind⟩ := n
  cases kind with
  | terminal data => rfl
  | _ => cases h

theorem has_definesNode_joinTerminal {spec : TerminalSpec} {listed isClass : Bool} :
    (d.joinTerminal id spec listed).Has (DefinesNode name isClass) ↔
      d.Has (DefinesNode name isClass) := by
  refine has_of_getElem? (getElem?_joinTerminal d id spec listed) (fun n => ?_)
  rw [DefinesNode, DefinesNode, (symbol?_joined spec listed n).1, (symbol?_joined spec listed n).2]

/-- Joining with an occurrence that agrees adds the execution class of the occurrence. -/
theorem has_givesNode_joinTerminal {spec : TerminalSpec} {n : Node} {execClass : String}
    (hn : d.nodes[id]? = some n) (hs : n.symbol? = some (.terminal spec.text))
    (hagrees : ∀ existing requested, n.execClass = some existing →
      spec.execClass = some requested → existing = requested) (listed : Bool) :
    (d.joinTerminal id spec listed).Has (GivesNode text execClass) ↔
      d.Has (GivesNode text execClass) ∨ spec.text = text ∧ spec.execClass = some execClass := by
  have hget := getElem?_joinTerminal d id spec listed
  have hself : (d.joinTerminal id spec listed).nodes[id]? = some (joined spec listed n) := by
    rw [hget, if_pos rfl, hn, Option.map_some]
  have hsymbol := (symbol?_joined spec listed n).1
  constructor
  · rintro ⟨i, m, hm, hms, he⟩
    by_cases hi : i = id
    · rw [hi, hself] at hm
      obtain rfl := Option.some.inj hm
      rw [hsymbol] at hms
      obtain rfl := Symbol.terminal.inj (Option.some.inj (hs.symm.trans hms))
      rw [execClass_joined hs] at he
      cases hspec : spec.execClass with
      | none => exact .inl ⟨id, n, hn, hs, by rwa [hspec] at he⟩
      | some requested => exact .inr ⟨rfl, by rwa [hspec] at he⟩
    · rw [hget, if_neg hi] at hm
      exact .inl ⟨i, m, hm, hms, he⟩
  · rintro (⟨i, m, hm, hms, he⟩ | ⟨rfl, he⟩)
    · by_cases hi : i = id
      · rw [hi, hn] at hm
        obtain rfl := Option.some.inj hm
        refine ⟨id, joined spec listed n, hself, hsymbol.trans hms, ?_⟩
        rw [execClass_joined hs, he]
        cases hspec : spec.execClass with
        | none => rfl
        | some requested => exact congrArg some (hagrees _ _ he hspec).symm
      · exact ⟨i, m, by rw [hget, if_neg hi, hm], hms, he⟩
    · refine ⟨id, joined spec listed n, hself, hsymbol.trans hs, ?_⟩
      rw [execClass_joined hs, he]
      rfl

theorem Reflects.joinTerminal (h : d.Reflects before) {spec : TerminalSpec} {n : Node}
    (ho : o.element = .terminal spec) (hn : d.nodes[id]? = some n)
    (hs : n.symbol? = some (.terminal spec.text)) (hagrees : ∀ existing requested,
      n.execClass = some existing → spec.execClass = some requested → existing = requested)
    (listed : Bool) : (d.joinTerminal id spec listed).Reflects (before ++ [o]) := by
  have hnone (name : String) (isClass : Bool) : ¬o.Defines name isClass :=
    Occurrence.not_defines_of_terminal ho
  constructor
  · intro name isClass
    rw [has_definesNode_joinTerminal, h.defines]
    simp [hnone]
  · intro text execClass
    rw [has_givesNode_joinTerminal hn hs hagrees, h.gives]
    simp [Occurrence.gives_iff ho, or_and_right, exists_or]

theorem Reflects.pushTerminal (h : d.Reflects before) {spec : TerminalSpec} {data : TerminalData}
    (ho : o.element = .terminal spec) :
    (d.push spec.text spec.execClass (.terminal data)).Reflects (before ++ [o]) := by
  have hnone (name : String) (isClass : Bool) : ¬o.Defines name isClass :=
    Occurrence.not_defines_of_terminal ho
  constructor
  · intro name isClass
    rw [has_push, h.defines, DefinesNode]
    simp [hnone, Node.symbol?]
  · intro text execClass
    rw [has_push, h.gives, GivesNode]
    simp [Occurrence.gives_iff ho, Node.symbol?, or_and_right, exists_or]

/-- A terminal is refused if another execution class was given to its text. -/
theorem addTerminal_ends (hd : d.Proper) (h : d.Reflects before) {spec : TerminalSpec}
    (ho : o.element = .terminal spec) (hframes : o.frames = outer) :
    Ends before [o] outer (addTerminal options inside spec d) := by
  unfold addTerminal
  dsimp only
  split
  next hnone =>
    refine .cons (fun kind hv => ?_) (.nil (h.pushTerminal ho))
    obtain ⟨existing, _, -, -, hgiven, -⟩ := hv.of_terminal ho
    exact h.not_gives hnone hgiven
  next id hsome =>
    obtain ⟨n, hn, hs⟩ := exists_node_of_terminal? hsome
    have hexec : d.nodes[id]?.bind (·.execClass) = n.execClass := by rw [hn, Option.bind_some]
    have hgiven {existing : String} : n.execClass = some existing ↔
        ∃ s ∈ before, s.Gives spec.text existing := h.execClass_iff hd hn hs
    -- an occurrence that agrees with the node is joined with it
    have hjoin (hagrees : ∀ existing requested, n.execClass = some existing →
        spec.execClass = some requested → existing = requested) (listed : Bool) :
        Ends before [o] outer (.ok (id, d.joinTerminal id spec listed)) := by
      refine .cons (fun kind hv => ?_) (.nil (h.joinTerminal ho hn hs hagrees listed))
      obtain ⟨existing, requested, -, hrequested, hbefore, hne⟩ := hv.of_terminal ho
      exact hne (hagrees existing requested (hgiven.2 hbefore) hrequested)
    rw [hexec]
    split
    next requested existing hrequested hexisting =>
      split
      next he =>
        refine hjoin (fun existing' requested' he' hr' => ?_) _
        rw [hexisting] at he'
        rw [hrequested] at hr'
        rw [← Option.some.inj he', ← Option.some.inj hr', he]
      next hne =>
        have hv : o.Violates before (.conflictingExecClass spec.text existing requested) :=
          .conflict ((Occurrence.gives_iff ho).2 ⟨rfl, hrequested⟩) (hgiven.1 hexisting) hne
        refine .violated hv (fun kind hv' => ?_) (List.nil_append outer ▸ hframes) rfl
        obtain ⟨existing', requested', rfl, hr', hbefore, -⟩ := hv'.of_terminal ho
        rw [hrequested] at hr'
        have he' := hgiven.2 hbefore
        rw [hexisting] at he'
        rw [Option.some.inj hr', Option.some.inj he']
    next hnot =>
      exact hjoin (fun existing requested he hr => absurd he (hnot requested existing hr)) _

/-! ### References and classes -/

theorem checkClassUse_eq {n : Node} (hn : d.nodes[id]? = some n) : checkClassUse inside id d =
    if !inside && n.isClass then .error (.malformed (.classOutsideToken n.name)) else .ok () := by
  rw [checkClassUse, nameOf, hn]
  rfl

theorem name_of_symbol? {n : Node} (h : n.symbol? = some (.named name)) : n.name = name :=
  (symbol?_eq_named_iff.1 h).2

variable {owner : String}

/-- A reference is refused if its name has no definition before it, or that of a class where no token
is around. -/
theorem addReference_ends (hd : d.Proper) (h : d.Reflects before) :
    Ends before [⟨.reference name, inside, owner :: outer⟩] outer
      (addElement options inside owner (.reference name) d) := by
  have hframes : owner :: outer = [owner] ++ outer := rfl
  unfold addElement
  split
  next id hsome =>
    obtain ⟨n, hn, hs⟩ := exists_node_of_nonterminal? hsome
    have hclass {isClass : Bool} : n.isClass = isClass ↔ ∃ s ∈ before, s.Defines name isClass :=
      h.isClass_iff hd hn hs
    have hdefined : ∃ s ∈ before, s.Defines name n.isClass := hclass.1 rfl
    rw [checkClassUse_eq hn, name_of_symbol? hs]
    split
    next hout =>
      rw [Bool.and_eq_true, Bool.not_eq_true'] at hout
      have hv : (⟨.reference name, inside, owner :: outer⟩ : Occurrence).Violates before
          (.malformedGrammar (.classOutsideToken name)) := .classUsed rfl hout.1 (hclass.1 hout.2)
      refine .violated hv (fun kind hv' => ?_) hframes
        (congrArg Except.error (Fault.enclosedBy_within _ [] owner))
      rcases hv'.of_reference rfl with ⟨-, hnone⟩ | ⟨rfl, -⟩
      · obtain ⟨s, hs, hdef⟩ := hdefined
        exact absurd hdef (hnone s hs _)
      · rfl
    next hin =>
      refine .cons (fun kind hv => ?_) (.nil (h.reference rfl))
      rcases hv.of_reference rfl with ⟨-, hnone⟩ | ⟨-, hout, hdef⟩
      · obtain ⟨s, hs, hdef⟩ := hdefined
        exact hnone s hs _ hdef
      · rw [Bool.and_eq_true, Bool.not_eq_true'] at hin
        exact hin ⟨hout, hclass.2 hdef⟩
  next hnone =>
    have hnew := h.not_defines hnone
    have hv : (⟨.reference name, inside, owner :: outer⟩ : Occurrence).Violates before
        (.undefinedReference name) := .notDefined rfl hnew
    refine .violated hv (fun kind hv' => ?_) hframes
      (congrArg Except.error (Fault.enclosedBy_within _ [] owner))
    rcases hv'.of_reference rfl with ⟨rfl, -⟩ | ⟨-, -, s, hs, hdef⟩
    · rfl
    · exact absurd hdef (hnew s hs _)

/-- The name of a definition is refused if it was defined. -/
theorem violates_of_isSome (hd : d.Proper) (h : d.Reflects before) (definition : Definition)
    (hsome : (d.nonterminal? definition.name).isSome) (ho : o.element = .definition definition) :
    o.Violates before (.malformedGrammar (.duplicateDefinition definition.name)) ∧
      ∀ kind, o.Violates before kind →
        kind = .malformedGrammar (.duplicateDefinition definition.name) := by
  obtain ⟨id, hid⟩ := Option.isSome_iff_exists.1 hsome
  obtain ⟨n, hn, hs⟩ := exists_node_of_nonterminal? hid
  obtain ⟨s, hmem, hdef⟩ := (h.isClass_iff hd hn hs).1 rfl
  refine ⟨.givenAgain ((Occurrence.defines_iff ho).2 ⟨rfl, rfl⟩) ⟨s, hmem, hdef⟩, fun kind hv => ?_⟩
  cases hv with
  | givenAgain hhere _ => rw [((Occurrence.defines_iff ho).1 hhere).1]
  | classDefined hhere _ hnew =>
    rw [((Occurrence.defines_iff ho).1 hhere).1] at hdef
    exact absurd hdef (hnew s hmem _)
  | notDefined hhere _ => cases ho.symm.trans hhere
  | classUsed hhere _ _ => cases ho.symm.trans hhere
  | conflict hhere _ _ => exact absurd hhere (Occurrence.not_gives_of_definition ho)

/-- A class is refused where no token is around. -/
theorem addClass_ends (hd : d.Proper) (h : d.Reflects before) {kind : DefinitionKind}
    {cases : List (List CaseElement)} (hk : isClassKind kind) :
    Ends before [⟨.definition (.mk name kind cases), inside, owner :: outer⟩] outer
      (addElement options inside owner (.definition (.mk name kind cases)) d) := by
  have hframes : owner :: outer = [owner] ++ outer := rfl
  unfold addElement addDefinition
  by_cases hsome : (d.nonterminal? name).isSome
  · obtain ⟨hv, hone⟩ := violates_of_isSome hd h (.mk name kind cases) hsome
      (o := ⟨.definition (.mk name kind cases), inside, owner :: outer⟩) rfl
    rw [if_pos hsome]
    exact .violated hv hone hframes (congrArg Except.error (Fault.enclosedBy_within _ [] owner))
  · rw [if_neg hsome, if_pos hk]
    have hnew := h.not_defines (Option.not_isSome_iff_eq_none.1 hsome)
    have hreflects : (d.push name (execClassOf kind) (nodeKindOf kind)).Reflects (before ++
        [⟨.definition (.mk name kind cases), inside, owner :: outer⟩]) := h.pushDefinition rfl
    have hn : (d.push name (execClassOf kind) (nodeKindOf kind)).nodes[d.nextId]? =
        some ⟨d.nodes.size, name, execClassOf kind, nodeKindOf kind⟩ := by
      rw [getElem?_push, nextId, if_pos rfl]
    have hclass : (⟨d.nodes.size, name, execClassOf kind, nodeKindOf kind⟩ : Node).isClass := by
      cases kind <;> first | rfl | cases hk
    change Ends _ _ _ ((checkClassUse inside d.nextId
      (d.push name (execClassOf kind) (nodeKindOf kind))).mapError (·.enclosedBy owner) >>=
        fun _ => .ok (d.nextId, d.push name (execClassOf kind) (nodeKindOf kind)))
    rw [checkClassUse_eq hn, hclass, Bool.and_true]
    cases inside with
    | true =>
      refine .cons (fun kind' hv => ?_) (.nil hreflects)
      rcases hv.of_definition rfl with ⟨-, s, hs, isClass, hdef⟩ | ⟨-, hout, -⟩
      · exact hnew s hs isClass hdef
      · cases hout
    | false =>
      have hv : (⟨.definition (.mk name kind cases), false, owner :: outer⟩ : Occurrence).Violates
          before (.malformedGrammar (.classOutsideToken name)) :=
        .classDefined ⟨.mk name kind cases, rfl, rfl, hk⟩ rfl hnew
      refine .violated hv (fun kind' hv' => ?_) hframes
        (congrArg Except.error (Fault.enclosedBy_within _ [] owner))
      rcases hv'.of_definition rfl with ⟨-, s, hs, isClass, hdef⟩ | ⟨rfl, -⟩
      · exact absurd hdef (hnew s hs isClass)
      · rfl

/-! ### Whole descriptions -/

/-- The node of a definition that was entered is a medium unless it is a class. -/
theorem isMedium_of_addDefinition (hd : d.Proper) {definition : Definition}
    (h : addDefinition options inside definition d = .ok (id, d')) :
    (d'.shape? id).any (·.isMedium) = !isClassKind definition.kind := by
  obtain ⟨hproper, hadded, hsymbol⟩ := addDefinition_added hd h
  have hself : definition ∈ definition.all := by
    obtain ⟨name, kind, cases⟩ := definition
    unfold Definition.all
    exact List.mem_cons_self
  obtain ⟨i, -, hholds⟩ := hadded.holds definition hself
  obtain rfl : i = id := hproper.symbol_inj i id _ hholds.symbol hsymbol
  exact hholds.medium

theorem checkClassUse_of_isMedium (h : (d.shape? id).any (·.isMedium)) :
    checkClassUse inside id d = .ok () := by
  rw [shape?] at h
  cases hn : d.nodes[id]? with
  | none => rw [hn] at h; cases h
  | some n =>
    rw [hn] at h
    have hclass : n.isClass = false := by
      obtain ⟨_, _, _, kind⟩ := n
      cases kind <;> first | rfl | cases h
    rw [checkClassUse_eq hn, hclass, Bool.and_false]
    rfl

mutual

theorem addDefinition_ends {d : Draft} {before : List Occurrence} (hd : d.Proper)
    (h : d.Reflects before) (options : GrammarOptions) (inside : Bool) (outer : List String)
    (definition : Definition) (hk : isClassKind definition.kind = false) :
    Ends before (definition.occurrences inside outer) outer
      (addDefinition options inside definition d) := by
  obtain ⟨name, kind, cases⟩ := definition
  have hk : isClassKind kind = false := hk
  unfold Definition.occurrences
  rw [if_neg (Bool.eq_false_iff.1 hk)]
  by_cases hsome : (d.nonterminal? name).isSome
  · obtain ⟨hv, hone⟩ := violates_of_isSome hd h (.mk name kind cases) hsome
      (o := ⟨.definition (.mk name kind cases), inside, outer⟩) rfl
    unfold addDefinition
    rw [if_pos hsome]
    exact .violated hv hone (List.nil_append outer).symm rfl
  · have hnone : d.nonterminal? name = none := Option.not_isSome_iff_eq_none.1 hsome
    have hnew := h.not_defines hnone
    refine .cons (fun kind' hv => ?_) ?_
    · rcases hv.of_definition rfl with ⟨-, s, hs, isClass, hdef⟩ | ⟨-, -, hclass⟩
      · exact hnew s hs isClass hdef
      · cases hk.symm.trans hclass
    · unfold addDefinition
      rw [if_neg hsome, if_neg (Bool.eq_false_iff.1 hk)]
      exact (addCases_ends (hd.pushDefinition kind hnone) (h.pushDefinition rfl) options
        (inside || isTokenKind kind) name outer cases).map
        (fun ids d' _ hr => ⟨_, _, rfl, hr.setCases _ ids⟩)

theorem addElement_ends {d : Draft} {before : List Occurrence} (hd : d.Proper)
    (h : d.Reflects before) (options : GrammarOptions) (inside : Bool) (owner : String)
    (outer : List String) (element : CaseElement) :
    Ends before (occurrencesInElement inside (owner :: outer) element) outer
      (addElement options inside owner element d) := by
  cases element with
  | reference name => exact addReference_ends hd h
  | terminal spec =>
    unfold addElement
    exact (addTerminal_ends hd h rfl rfl).mapError
  | definition definition =>
    obtain ⟨name, kind, cases⟩ := definition
    unfold occurrencesInElement
    by_cases hk : isClassKind kind
    · unfold Definition.occurrences
      rw [if_pos hk]
      exact addClass_ends hd h hk
    · have hk : isClassKind kind = false := Bool.eq_false_iff.2 hk
      have hinner := (addDefinition_ends hd h options inside (owner :: outer)
        (.mk name kind cases) hk).mapError
      unfold addElement
      refine hinner.map (fun id d' he hr => ?_)
      have hmedium := isMedium_of_addDefinition hd (Fault.mapError_eq_ok_iff.1 he)
      rw [Definition.kind, hk] at hmedium
      have hcheck : checkClassUse inside id d' = .ok () := checkClassUse_of_isMedium hmedium
      refine ⟨id, d', ?_, hr⟩
      dsimp only
      rw [hcheck]
      rfl

theorem addCase_ends {d : Draft} {before : List Occurrence} (hd : d.Proper)
    (h : d.Reflects before) (options : GrammarOptions) (inside : Bool) (owner : String)
    (outer : List String) (case : List CaseElement) :
    Ends before (occurrencesInCase inside (owner :: outer) case) outer
      (addCase options inside owner case d) := by
  cases case with
  | nil => exact .nil h
  | cons element rest =>
    unfold occurrencesInCase addCase
    refine (addElement_ends hd h options inside owner outer element).bind (fun id d' he hr => ?_)
    exact (addCase_ends (addElement_added hd he).1 hr options inside owner outer rest).map
      (fun ids d'' _ hr' => ⟨_, _, rfl, hr'⟩)

theorem addCases_ends {d : Draft} {before : List Occurrence} (hd : d.Proper)
    (h : d.Reflects before) (options : GrammarOptions) (inside : Bool) (owner : String)
    (outer : List String) (cases : List (List CaseElement)) :
    Ends before (occurrencesInCases inside (owner :: outer) cases) outer
      (addCases options inside owner cases d) := by
  cases cases with
  | nil => exact .nil h
  | cons case rest =>
    unfold occurrencesInCases addCases
    refine (addCase_ends hd h options inside owner outer case).bind (fun ids d' he hr => ?_)
    exact (addCases_ends (addCase_added hd he).1 hr options inside owner outer rest).map
      (fun more d'' _ hr' => ⟨_, _, rfl, hr'⟩)

end

end Draft

end Syntagma
