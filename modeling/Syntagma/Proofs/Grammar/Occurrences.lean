import Mathlib.Data.List.Nodup
import Mathlib.Data.List.Pairwise
import Syntagma.Proofs.Grammar.Entry

/-! The elements of a description in the order in which they are written, and what can be wrong with
one of them: by itself, or together with those before it. Nothing is wrong with any of them exactly if
names are given once and used behind their definition, classes stay inside of tokens, and the
execution classes of a terminal agree. -/

namespace Syntagma

/-- An element of a description, or its outermost definition, at its place: whether a token is around
it, and the names of all definitions around it, the innermost first. -/
structure Occurrence where
  element : CaseElement
  insideToken : Bool
  frames : List String

mutual

/-- A definition and all elements inside its cases. What stands inside the cases of a class is not
part of the grammar. -/
def Definition.occurrences (inside : Bool) (frames : List String) :
    Definition → List Occurrence
  | .mk name kind cases => ⟨.definition (.mk name kind cases), inside, frames⟩ ::
    if Draft.isClassKind kind then []
    else occurrencesInCases (inside || Draft.isTokenKind kind) (name :: frames) cases

def occurrencesInElement (inside : Bool) (frames : List String) : CaseElement → List Occurrence
  | .reference name => [⟨.reference name, inside, frames⟩]
  | .terminal spec => [⟨.terminal spec, inside, frames⟩]
  | .definition definition => definition.occurrences inside frames

def occurrencesInCase (inside : Bool) (frames : List String) : List CaseElement → List Occurrence
  | [] => []
  | e :: rest => occurrencesInElement inside frames e ++ occurrencesInCase inside frames rest

def occurrencesInCases (inside : Bool) (frames : List String) :
    List (List CaseElement) → List Occurrence
  | [] => []
  | c :: rest => occurrencesInCase inside frames c ++ occurrencesInCases inside frames rest

end

namespace Occurrence

def definition? (o : Occurrence) : Option Definition :=
  match o.element with
  | .definition definition => some definition
  | _ => none

/-- A definition of that name stands there, of a class or of a medium. -/
def Defines (o : Occurrence) (name : String) (isClass : Bool) : Prop :=
  ∃ definition, o.definition? = some definition ∧ definition.name = name ∧
    Draft.isClassKind definition.kind = isClass

/-- A terminal stands there and gives its text an execution class. -/
def Gives (o : Occurrence) (text execClass : String) : Prop :=
  ∃ spec, o.element = .terminal spec ∧ spec.text = text ∧ spec.execClass = some execClass

/-- Two occurrences give no text two execution classes. -/
def Agrees (o o' : Occurrence) : Prop :=
  ∀ text execClass execClass', o.Gives text execClass → o'.Gives text execClass' →
    execClass = execClass'

theorem definition?_eq_some_iff {o : Occurrence} {definition : Definition} :
    o.definition? = some definition ↔ o.element = .definition definition := by
  obtain ⟨element, inside, frames⟩ := o
  cases element <;> simp [definition?]

theorem defines_iff {o : Occurrence} {definition : Definition} {name : String} {isClass : Bool}
    (h : o.element = .definition definition) : o.Defines name isClass ↔
      definition.name = name ∧ Draft.isClassKind definition.kind = isClass := by
  rw [Defines, definition?_eq_some_iff.2 h]
  simp

theorem gives_iff {o : Occurrence} {spec : TerminalSpec} {text execClass : String}
    (h : o.element = .terminal spec) :
    o.Gives text execClass ↔ spec.text = text ∧ spec.execClass = some execClass := by
  rw [Gives, h]
  simp

section Elements

variable {o : Occurrence} {spec : TerminalSpec} {definition : Definition}
  {used name text execClass : String} {isClass : Bool}

/-- Only a definition defines a name. -/
theorem not_defines (h : o.definition? = none) : ¬o.Defines name isClass := by
  rintro ⟨definition, hd, -⟩
  rw [h] at hd
  cases hd

theorem not_defines_of_reference (h : o.element = .reference used) : ¬o.Defines name isClass :=
  not_defines (by rw [definition?, h])

theorem not_defines_of_terminal (h : o.element = .terminal spec) : ¬o.Defines name isClass :=
  not_defines (by rw [definition?, h])

/-- Only a terminal gives an execution class. -/
theorem not_gives_of_reference (h : o.element = .reference used) : ¬o.Gives text execClass := by
  rintro ⟨spec, hspec, -⟩
  cases h.symm.trans hspec

theorem not_gives_of_definition (h : o.element = .definition definition) :
    ¬o.Gives text execClass := by
  rintro ⟨spec, hspec, -⟩
  cases h.symm.trans hspec

end Elements

/-- What is wrong with an occurrence that stands behind others. A name that is given again is wrong
whatever is defined by it. -/
inductive Violates (before : List Occurrence) (o : Occurrence) : FaultKind → Prop where
  | givenAgain {name : String} {isClass isClass' : Bool} (hhere : o.Defines name isClass)
    (hbefore : ∃ s ∈ before, s.Defines name isClass') :
    Violates before o (.malformedGrammar (.duplicateDefinition name))
  | classDefined {name : String} (hhere : o.Defines name true) (hout : o.insideToken = false)
    (hnew : ∀ s ∈ before, ∀ isClass, ¬s.Defines name isClass) :
    Violates before o (.malformedGrammar (.classOutsideToken name))
  | notDefined {name : String} (hhere : o.element = .reference name)
    (hnone : ∀ s ∈ before, ∀ isClass, ¬s.Defines name isClass) :
    Violates before o (.undefinedReference name)
  | classUsed {name : String} (hhere : o.element = .reference name) (hout : o.insideToken = false)
    (hbefore : ∃ s ∈ before, s.Defines name true) :
    Violates before o (.malformedGrammar (.classOutsideToken name))
  | conflict {text existing requested : String} (hhere : o.Gives text requested)
    (hbefore : ∃ s ∈ before, s.Gives text existing) (hne : existing ≠ requested) :
    Violates before o (.conflictingExecClass text existing requested)

section Inversion

variable {before : List Occurrence} {o : Occurrence} {kind : FaultKind}

theorem Violates.of_definition {definition : Definition} (hv : o.Violates before kind)
    (ho : o.element = .definition definition) :
    (kind = .malformedGrammar (.duplicateDefinition definition.name) ∧
      ∃ s ∈ before, ∃ isClass, s.Defines definition.name isClass) ∨
    (kind = .malformedGrammar (.classOutsideToken definition.name) ∧ o.insideToken = false ∧
      Draft.isClassKind definition.kind) := by
  cases hv with
  | givenAgain hhere hbefore =>
    obtain ⟨rfl, -⟩ := (defines_iff ho).1 hhere
    obtain ⟨s, hs, hdef⟩ := hbefore
    exact .inl ⟨rfl, s, hs, _, hdef⟩
  | classDefined hhere hout _ =>
    obtain ⟨rfl, hclass⟩ := (defines_iff ho).1 hhere
    exact .inr ⟨rfl, hout, hclass⟩
  | notDefined hhere _ => cases ho.symm.trans hhere
  | classUsed hhere _ _ => cases ho.symm.trans hhere
  | conflict hhere _ _ => exact absurd hhere (not_gives_of_definition ho)

theorem Violates.of_reference {name : String} (hv : o.Violates before kind)
    (ho : o.element = .reference name) :
    (kind = .undefinedReference name ∧ ∀ s ∈ before, ∀ isClass, ¬s.Defines name isClass) ∨
    (kind = .malformedGrammar (.classOutsideToken name) ∧ o.insideToken = false ∧
      ∃ s ∈ before, s.Defines name true) := by
  cases hv with
  | givenAgain hhere _ => exact absurd hhere (not_defines_of_reference ho)
  | classDefined hhere _ _ => exact absurd hhere (not_defines_of_reference ho)
  | notDefined hhere hall =>
    obtain rfl := CaseElement.reference.inj (ho.symm.trans hhere)
    exact .inl ⟨rfl, hall⟩
  | classUsed hhere hout hbefore =>
    obtain rfl := CaseElement.reference.inj (ho.symm.trans hhere)
    exact .inr ⟨rfl, hout, hbefore⟩
  | conflict hhere _ _ => exact absurd hhere (not_gives_of_reference ho)

theorem Violates.of_terminal {spec : TerminalSpec} (hv : o.Violates before kind)
    (ho : o.element = .terminal spec) : ∃ existing requested,
    kind = .conflictingExecClass spec.text existing requested ∧ spec.execClass = some requested ∧
      (∃ s ∈ before, s.Gives spec.text existing) ∧ existing ≠ requested := by
  cases hv with
  | givenAgain hhere _ => exact absurd hhere (not_defines_of_terminal ho)
  | classDefined hhere _ _ => exact absurd hhere (not_defines_of_terminal ho)
  | notDefined hhere _ => cases ho.symm.trans hhere
  | classUsed hhere _ _ => cases ho.symm.trans hhere
  | conflict hhere hbefore hne =>
    obtain ⟨rfl, hrequested⟩ := (gives_iff ho).1 hhere
    exact ⟨_, _, rfl, hrequested, hbefore, hne⟩

end Inversion

end Occurrence

/-- Nothing is wrong with any of the occurrences that stand behind those before. -/
def Faultless (before : List Occurrence) : List Occurrence → Prop
  | [] => True
  | o :: rest => (∀ kind, ¬o.Violates before kind) ∧ Faultless (before ++ [o]) rest

/-- The first of the occurrences with which something is wrong, and what that is. -/
inductive FirstFault : List Occurrence → List Occurrence → Occurrence → FaultKind → Prop where
  | here {before rest : List Occurrence} {o : Occurrence} {kind : FaultKind}
    (h : o.Violates before kind) : FirstFault before (o :: rest) o kind
  | later {before rest : List Occurrence} {s o : Occurrence} {kind : FaultKind}
    (hs : ∀ kind, ¬s.Violates before kind) (h : FirstFault (before ++ [s]) rest o kind) :
    FirstFault before (s :: rest) o kind

variable {before os os' : List Occurrence} {o : Occurrence} {kind : FaultKind}

theorem faultless_append :
    Faultless before (os ++ os') ↔ Faultless before os ∧ Faultless (before ++ os) os' := by
  induction os generalizing before with
  | nil => simp [Faultless]
  | cons o os ih =>
    rw [List.cons_append, Faultless, Faultless, ih, and_assoc, List.append_assoc]
    rfl

theorem firstFault_append : FirstFault before (os ++ os') o kind ↔
    FirstFault before os o kind ∨ Faultless before os ∧ FirstFault (before ++ os) os' o kind := by
  constructor
  · intro h
    induction os generalizing before with
    | nil =>
      rw [List.append_nil]
      exact .inr ⟨trivial, h⟩
    | cons s os ih =>
      cases h with
      | here h => exact .inl (.here h)
      | later hs h =>
        refine (ih h).imp (.later hs) (fun ⟨hrest, hbehind⟩ => ⟨⟨hs, hrest⟩, ?_⟩)
        rwa [List.append_assoc] at hbehind
  · rintro (h | ⟨hrest, h⟩)
    · induction h with
      | here h => exact .here h
      | later hs _ ih => exact .later hs ih
    · induction os generalizing before with
      | nil => rwa [List.append_nil] at h
      | cons s os ih =>
        refine .later hrest.1 (ih hrest.2 ?_)
        rwa [List.append_assoc]

/-- With the first fault the occurrences are not faultless. -/
theorem FirstFault.not_faultless (h : FirstFault before os o kind) : ¬Faultless before os := by
  induction h with
  | here h => exact fun hall => hall.1 _ h
  | later _ _ ih => exact fun hall => ih hall.2

theorem FirstFault.mem (h : FirstFault before os o kind) : o ∈ os := by
  induction h with
  | here _ => exact List.mem_cons_self
  | later _ _ ih => exact List.mem_cons_of_mem _ ih

/-- Where something is wrong there is a first fault. -/
theorem exists_firstFault (h : ¬Faultless before os) : ∃ o kind, FirstFault before os o kind := by
  induction os generalizing before with
  | nil => exact absurd trivial h
  | cons s os ih =>
    by_cases hs : ∀ kind, ¬s.Violates before kind
    · obtain ⟨o, kind, hrest⟩ := ih (fun hrest => h ⟨hs, hrest⟩)
      exact ⟨o, kind, .later hs hrest⟩
    · obtain ⟨kind, hkind⟩ := Classical.not_forall.1 hs
      exact ⟨s, kind, .here (Classical.not_not.1 hkind)⟩

theorem faultless_iff : Faultless before os ↔
    ∀ seen o rest, os = seen ++ o :: rest → ∀ kind, ¬o.Violates (before ++ seen) kind := by
  constructor
  · rintro h seen o rest rfl
    exact (faultless_append.1 h).2.1
  · intro h
    induction os generalizing before with
    | nil => trivial
    | cons o os ih =>
      refine ⟨fun kind => ?_, ih (fun seen s rest he kind => ?_)⟩
      · have hfirst := h [] o os rfl kind
        rwa [List.append_nil] at hfirst
      · have hrest := h (o :: seen) s rest (congrArg (o :: ·) he) kind
        rwa [List.append_assoc, List.singleton_append]

/-! ### Where occurrences stand -/

mutual

/-- The definitions of a description are those that occur in it, in the same order. -/
theorem filterMap_occurrences (inside : Bool) (frames : List String) (definition : Definition) :
    (definition.occurrences inside frames).filterMap (·.definition?) = definition.all := by
  obtain ⟨name, kind, cases⟩ := definition
  have hself : (⟨.definition (.mk name kind cases), inside, frames⟩ : Occurrence).definition? =
      some (.mk name kind cases) := rfl
  unfold Definition.occurrences Definition.all
  rw [List.filterMap_cons_some hself]
  congr 1
  split
  · rfl
  · exact filterMap_occurrencesInCases _ _ cases

theorem filterMap_occurrencesInElement (inside : Bool) (frames : List String)
    (element : CaseElement) :
    (occurrencesInElement inside frames element).filterMap (·.definition?) =
      definitionsInElement element := by
  cases element with
  | reference name => rfl
  | terminal spec => rfl
  | definition definition => exact filterMap_occurrences inside frames definition

theorem filterMap_occurrencesInCase (inside : Bool) (frames : List String)
    (case : List CaseElement) :
    (occurrencesInCase inside frames case).filterMap (·.definition?) = definitionsInCase case := by
  cases case with
  | nil => rfl
  | cons element rest =>
    unfold occurrencesInCase definitionsInCase
    rw [List.filterMap_append, filterMap_occurrencesInElement inside frames element,
      filterMap_occurrencesInCase inside frames rest]

theorem filterMap_occurrencesInCases (inside : Bool) (frames : List String)
    (cases : List (List CaseElement)) :
    (occurrencesInCases inside frames cases).filterMap (·.definition?) =
      definitionsInCases cases := by
  cases cases with
  | nil => rfl
  | cons case rest =>
    unfold occurrencesInCases definitionsInCases
    rw [List.filterMap_append, filterMap_occurrencesInCase inside frames case,
      filterMap_occurrencesInCases inside frames rest]

end

mutual

/-- The definitions around a definition are around all that stands in it. -/
theorem suffix_of_mem_occurrences {inside : Bool} {frames : List String} {definition : Definition}
    {o : Occurrence} (h : o ∈ definition.occurrences inside frames) : frames <:+ o.frames := by
  obtain ⟨name, kind, cases⟩ := definition
  unfold Definition.occurrences at h
  rcases List.mem_cons.1 h with rfl | h
  · exact List.suffix_refl frames
  · split at h
    · cases h
    · exact (List.suffix_cons name frames).trans (suffix_of_mem_occurrencesInCases h)

theorem suffix_of_mem_occurrencesInElement {inside : Bool} {frames : List String}
    {element : CaseElement} {o : Occurrence} (h : o ∈ occurrencesInElement inside frames element) :
    frames <:+ o.frames := by
  cases element with
  | reference name =>
    obtain rfl := List.mem_singleton.1 h
    exact List.suffix_refl frames
  | terminal spec =>
    obtain rfl := List.mem_singleton.1 h
    exact List.suffix_refl frames
  | definition definition => exact suffix_of_mem_occurrences h

theorem suffix_of_mem_occurrencesInCase {inside : Bool} {frames : List String}
    {case : List CaseElement} {o : Occurrence} (h : o ∈ occurrencesInCase inside frames case) :
    frames <:+ o.frames := by
  cases case with
  | nil => cases h
  | cons element rest =>
    unfold occurrencesInCase at h
    rcases List.mem_append.1 h with h | h
    · exact suffix_of_mem_occurrencesInElement h
    · exact suffix_of_mem_occurrencesInCase h

theorem suffix_of_mem_occurrencesInCases {inside : Bool} {frames : List String}
    {cases : List (List CaseElement)} {o : Occurrence}
    (h : o ∈ occurrencesInCases inside frames cases) : frames <:+ o.frames := by
  cases cases with
  | nil => cases h
  | cons case rest =>
    unfold occurrencesInCases at h
    rcases List.mem_append.1 h with h | h
    · exact suffix_of_mem_occurrencesInCase h
    · exact suffix_of_mem_occurrencesInCases h

end

/-- What is wrong first with a description stands inside of it, so the outermost definition is the
last one around it. -/
theorem FirstFault.getLast?_frames {definition : Definition}
    (hk : Draft.isClassKind definition.kind = false)
    (h : FirstFault [] (definition.occurrences false []) o kind) :
    o.frames.getLast? = some definition.name := by
  obtain ⟨name, defined, cases⟩ := definition
  have hk : Draft.isClassKind defined = false := hk
  unfold Definition.occurrences at h
  rw [if_neg (Bool.eq_false_iff.1 hk)] at h
  cases h with
  | here hv =>
    rcases hv.of_definition rfl with ⟨-, s, hs, -⟩ | ⟨-, -, hclass⟩
    · cases hs
    · cases hk.symm.trans hclass
  | later _ h =>
    obtain ⟨inner, hinner⟩ := suffix_of_mem_occurrencesInCases h.mem
    rw [← hinner, List.getLast?_append]
    rfl

/-! ### What a description keeps to -/

/-- What is asked of the elements of a description. -/
structure Definition.Consistent (definition : Definition) : Prop where
  /-- No name is given twice. -/
  names : (definition.all.map (·.name)).Nodup
  /-- A name is used behind the place where its definition begins, so also inside of it. -/
  defined (before : List Occurrence) (o : Occurrence) (after : List Occurrence) :
    definition.occurrences false [] = before ++ o :: after →
    ∀ name, o.element = .reference name → ∃ s ∈ before, ∃ isClass, s.Defines name isClass
  /-- Outside of tokens no element is a class, be it defined there or used by its name. -/
  classes (o : Occurrence) : o ∈ definition.occurrences false [] → o.insideToken = false →
    ∀ c ∈ definition.all, Draft.isClassKind c.kind → o.element.symbol ≠ .named c.name
  /-- All execution classes given to a text are the same. -/
  agrees (o : Occurrence) : o ∈ definition.occurrences false [] →
    ∀ s ∈ definition.occurrences false [], o.Agrees s

namespace Occurrence

instance : Std.Symm Agrees := ⟨fun _ _ h text e e' hg hg' => (h text e' e hg' hg).symm⟩

theorem agrees_self (o : Occurrence) : o.Agrees o := by
  rintro text e e' ⟨spec, he, -, hc⟩ ⟨spec', he', -, hc'⟩
  obtain rfl := CaseElement.terminal.inj (he.symm.trans he')
  exact Option.some.inj (hc.symm.trans hc')

/-- Two occurrences that do not give the same name, nor a text two execution classes. -/
def Compatible (s o : Occurrence) : Prop :=
  (∀ definition, s.definition? = some definition → ∀ definition', o.definition? = some definition' →
    definition.name ≠ definition'.name) ∧ s.Agrees o

theorem compatible_of_not_violates {s : Occurrence} (hs : s ∈ before)
    (h : ∀ kind, ¬o.Violates before kind) : s.Compatible o := by
  refine ⟨fun d hd d' hd' he => ?_, fun text e e' hg hg' => ?_⟩
  · exact h _ (.givenAgain ⟨d', hd', rfl, rfl⟩ ⟨s, hs, d, hd, he, rfl⟩)
  · exact Classical.byContradiction (fun hne => h _ (.conflict hg' ⟨s, hs, hg⟩ hne))

end Occurrence

theorem Faultless.pairwise (h : Faultless before os) :
    os.Pairwise Occurrence.Compatible ∧ ∀ s ∈ before, ∀ o ∈ os, s.Compatible o := by
  induction os generalizing before with
  | nil => exact ⟨.nil, fun _ _ _ ho => absurd ho List.not_mem_nil⟩
  | cons o os ih =>
    obtain ⟨hpairs, hbefore⟩ := ih h.2
    refine ⟨.cons (hbefore o (by simp)) hpairs, fun s hs x hx => ?_⟩
    rcases List.mem_cons.1 hx with rfl | hx
    · exact Occurrence.compatible_of_not_violates hs h.1
    · exact hbefore s (List.mem_append_left _ hs) x hx

namespace Definition

variable {definition : Definition}

theorem mem_all_iff {d : Definition} :
    d ∈ definition.all ↔ ∃ o ∈ definition.occurrences false [], o.definition? = some d := by
  rw [← filterMap_occurrences false [] definition, List.mem_filterMap]

/-- Where names are given once a name stands for one definition. -/
theorem eq_of_name_eq (h : (definition.all.map (·.name)).Nodup) {d d' : Definition}
    (hd : d ∈ definition.all) (hd' : d' ∈ definition.all) (he : d.name = d'.name) : d = d' :=
  List.inj_on_of_nodup_map h hd hd' he

theorem consistent_of_faultless (h : Faultless [] (definition.occurrences false [])) :
    definition.Consistent := by
  have hsplit := faultless_iff.1 h
  have hpairs := h.pairwise.1
  have hnames : (definition.all.map (·.name)).Nodup := by
    rw [← filterMap_occurrences false [] definition, List.Nodup, List.pairwise_map,
      List.pairwise_filterMap]
    exact hpairs.imp (fun hc d hd d' hd' => hc.1 d hd d' hd')
  refine ⟨hnames, fun before o after he name hname => ?_, fun o ho hout c hc hclass hs => ?_, ?_⟩
  · refine Classical.byContradiction (fun hnone => ?_)
    refine hsplit before o after he _ (.notDefined hname (fun s hs isClass hdef => ?_))
    exact hnone ⟨s, hs, isClass, hdef⟩
  · obtain ⟨before, after, he⟩ := List.append_of_mem ho
    have hno := hsplit before o after he
    cases helement : o.element with
    | terminal spec =>
      rw [helement] at hs
      cases hs
    | definition d =>
      rw [helement] at hs
      have hname : d.name = c.name := Symbol.named.inj hs
      have hd : o.definition? = some d := Occurrence.definition?_eq_some_iff.2 helement
      obtain rfl := eq_of_name_eq hnames (mem_all_iff.2 ⟨o, ho, hd⟩) hc hname
      refine hno _ (.classDefined ⟨d, hd, rfl, hclass⟩ hout (fun s hs isClass hdef => ?_))
      exact hno _ (.givenAgain ⟨d, hd, rfl, rfl⟩ ⟨s, hs, hdef⟩)
    | reference name =>
      rw [helement] at hs
      obtain rfl := Symbol.named.inj hs
      refine hno _ (.notDefined helement (fun s hbefore isClass hdef => ?_))
      obtain ⟨d, hd, hname, -⟩ := hdef
      have hmem : s ∈ definition.occurrences false [] := he ▸ List.mem_append_left _ hbefore
      obtain rfl := eq_of_name_eq hnames (mem_all_iff.2 ⟨s, hmem, hd⟩) hc hname
      exact hno _ (.classUsed helement hout ⟨s, hbefore, d, hd, rfl, hclass⟩)
  · have hagree : (definition.occurrences false []).Pairwise Occurrence.Agrees :=
      hpairs.imp (fun hc => hc.2)
    exact fun o ho s hs => hagree.forall_of_forall (fun o _ => o.agrees_self) ho hs

theorem Consistent.faultless (h : definition.Consistent) :
    Faultless [] (definition.occurrences false []) := by
  refine faultless_iff.2 (fun before o after he kind hv => ?_)
  rw [List.nil_append] at hv
  have ho : o ∈ definition.occurrences false [] := he ▸ by simp
  have hbefore {s : Occurrence} (hs : s ∈ before) : s ∈ definition.occurrences false [] :=
    he ▸ List.mem_append_left _ hs
  have hall {s : Occurrence} {d : Definition} (hs : s ∈ definition.occurrences false [])
      (hd : s.definition? = some d) : d ∈ definition.all := mem_all_iff.2 ⟨s, hs, hd⟩
  cases hv with
  | givenAgain hhere hagain =>
    obtain ⟨d, hd, rfl, -⟩ := hhere
    obtain ⟨s, hs, d', hd', hname, -⟩ := hagain
    have hnames := h.names
    rw [← filterMap_occurrences false [] definition, he, List.filterMap_append,
      List.filterMap_cons_some hd, List.map_append, List.map_cons] at hnames
    refine (List.nodup_append.1 hnames).2.2 d.name ?_ d.name List.mem_cons_self rfl
    exact List.mem_map.2 ⟨d', List.mem_filterMap.2 ⟨s, hs, hd'⟩, hname⟩
  | classDefined hhere hout _ =>
    obtain ⟨d, hd, rfl, hclass⟩ := hhere
    refine h.classes o ho hout d (hall ho hd) hclass ?_
    rw [Occurrence.definition?_eq_some_iff.1 hd, CaseElement.symbol]
  | notDefined hhere hnone =>
    obtain ⟨s, hs, isClass, hdef⟩ := h.defined before o after he _ hhere
    exact hnone s hs isClass hdef
  | classUsed hhere hout hdef =>
    obtain ⟨s, hs, d, hd, rfl, hclass⟩ := hdef
    refine h.classes o ho hout d (hall (hbefore hs) hd) hclass ?_
    rw [hhere, CaseElement.symbol]
  | conflict hhere hgiven hne =>
    obtain ⟨s, hs, hg⟩ := hgiven
    exact hne (h.agrees s (hbefore hs) o ho _ _ _ hg hhere)

/-- Nothing is wrong with any element exactly if the description keeps to what is asked. -/
theorem faultless_iff_consistent :
    Faultless [] (definition.occurrences false []) ↔ definition.Consistent :=
  ⟨consistent_of_faultless, Consistent.faultless⟩

end Definition

end Syntagma
