import Syntagma.Description
import Syntagma.Fault
import Syntagma.Grammar.Node
import Syntagma.Options

/-! The nodes of a grammar in the course of compilation, numbered in order of creation. A
description is entered depth first: a definition gets its node before its cases are entered, so
it may refer to itself. -/

namespace Syntagma

structure Draft where
  nodes : Array Node
deriving Inhabited

namespace Draft

def empty : Draft := ⟨#[]⟩

/-- The number of the next node. -/
def nextId (d : Draft) : NodeId := d.nodes.size

def push (d : Draft) (name : String) (execClass : Option String) (kind : NodeKind) : Draft :=
  ⟨d.nodes.push ⟨d.nextId, name, execClass, kind⟩⟩

def nonterminal? (d : Draft) (name : String) : Option NodeId :=
  d.nodes.findIdx? (fun n => n.isNonterminal && n.name == name)

def terminal? (d : Draft) (text : String) : Option NodeId :=
  d.nodes.findIdx? (fun n => n.isTerminal && n.name == text)

def mediumIds (d : Draft) : List NodeId := (d.nodes.toList.filter (·.isMedium)).map (·.id)

/-- The name of a node, empty for a number out of range. -/
def nameOf (d : Draft) (id : NodeId) : String := (d.nodes[id]?.map (·.name)).getD ""

/-- The alternatives of a medium; none for any other node. -/
def casesOf (d : Draft) (id : NodeId) : List (List NodeId) :=
  ((d.nodes[id]?.bind (·.medium?)).map (·.cases)).getD []

def modifyMedium (d : Draft) (id : NodeId) (f : MediumData → MediumData) : Draft :=
  ⟨d.nodes.modify id (fun n => match n.kind with
    | .medium data => { n with kind := .medium (f data) }
    | _ => n)⟩

def setCases (d : Draft) (id : NodeId) (cases : List (List NodeId)) : Draft :=
  d.modifyMedium id (fun data => { data with cases := cases })

/-! ### Entering a description -/

def bareMedium : MediumData := ⟨[], .empty, none, false⟩

/-- The node that a definition gets before its cases are entered. -/
def nodeKindOf : DefinitionKind → NodeKind
  | .symbolClass key symbols => .symbolClass ⟨key, symbols⟩
  | .token className _ => .medium { bareMedium with token := some ⟨className, .unclassified⟩ }
  | .medium => .medium bareMedium

def execClassOf : DefinitionKind → Option String
  | .token _ execClass => execClass
  | _ => none

def isTokenKind : DefinitionKind → Bool
  | .token _ _ => true
  | _ => false

def isClassKind : DefinitionKind → Bool
  | .symbolClass _ _ => true
  | _ => false

/-- Joins a further occurrence of a terminal with the node made at the first one. -/
def joinTerminal (d : Draft) (id : NodeId) (spec : TerminalSpec) (listed : Bool) : Draft :=
  ⟨d.nodes.modify id (fun n => match n.kind with
    | .terminal data =>
      { n with
        execClass := spec.execClass <|> n.execClass
        kind := .terminal { data with isListed := data.isListed || listed } }
    | _ => n)⟩

/-- Enters an occurrence of a terminal. All execution classes given to one text must agree; the
other data are those of the first occurrence. -/
def addTerminal (options : GrammarOptions) (insideToken : Bool) (spec : TerminalSpec) (d : Draft) :
    Except Fault (NodeId × Draft) :=
  let listed := !insideToken || options.includeTokenTerminals
  match d.terminal? spec.text with
  | none =>
    .ok (d.nextId, d.push spec.text spec.execClass (.terminal
      ⟨false, listed, .unclassified, spec.streamers, spec.breakers, spec.streamMaxCount,
        spec.operatorPriority⟩))
  | some id =>
    match spec.execClass, d.nodes[id]?.bind (·.execClass) with
    | some requested, some existing =>
      if existing = requested then .ok (id, d.joinTerminal id spec listed)
      else .error (.of (.conflictingExecClass spec.text existing requested))
    | _, _ => .ok (id, d.joinTerminal id spec listed)

/-- Classes take part in lexing only: outside a defined token an element must not be one. -/
def checkClassUse (insideToken : Bool) (id : NodeId) (d : Draft) : Except Fault Unit :=
  if !insideToken && d.nodes[id]?.any (·.isClass)
  then .error (.malformed (.classOutsideToken (d.nameOf id)))
  else .ok ()

mutual

/-- Enters a definition. The cases of a class stand for nothing and are passed over. -/
def addDefinition (options : GrammarOptions) (insideToken : Bool) :
    Definition → Draft → Except Fault (NodeId × Draft)
  | .mk name kind cases, d =>
    if (d.nonterminal? name).isSome then .error (.malformed (.duplicateDefinition name))
    else
      let id := d.nextId
      let entered := d.push name (execClassOf kind) (nodeKindOf kind)
      if isClassKind kind then .ok (id, entered)
      else do
        let (ids, d) ← addCases options (insideToken || isTokenKind kind) name cases entered
        return (id, d.setCases id ids)

/-- Enters an element of a case of the definition `owner`. -/
def addElement (options : GrammarOptions) (insideToken : Bool) (owner : String) :
    CaseElement → Draft → Except Fault (NodeId × Draft)
  | .reference name, d =>
    match d.nonterminal? name with
    | some id => do
      (checkClassUse insideToken id d).mapError (·.enclosedBy owner)
      return (id, d)
    | none => .error ((Fault.of (.undefinedReference name)).enclosedBy owner)
  | .terminal spec, d => (addTerminal options insideToken spec d).mapError (·.enclosedBy owner)
  | .definition definition, d => do
    let (id, d) ← (addDefinition options insideToken definition d).mapError (·.enclosedBy owner)
    (checkClassUse insideToken id d).mapError (·.enclosedBy owner)
    return (id, d)

def addCase (options : GrammarOptions) (insideToken : Bool) (owner : String) :
    List CaseElement → Draft → Except Fault (List NodeId × Draft)
  | [], d => .ok ([], d)
  | e :: rest, d => do
    let (id, d) ← addElement options insideToken owner e d
    let (ids, d) ← addCase options insideToken owner rest d
    return (id :: ids, d)

def addCases (options : GrammarOptions) (insideToken : Bool) (owner : String) :
    List (List CaseElement) → Draft → Except Fault (List (List NodeId) × Draft)
  | [], d => .ok ([], d)
  | c :: rest, d => do
    let (ids, d) ← addCase options insideToken owner c d
    let (cases, d) ← addCases options insideToken owner rest d
    return (ids :: cases, d)

end

end Draft

end Syntagma
