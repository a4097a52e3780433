import Syntagma.Symbol.ClassTable

/-! The automaton that tokenization runs: states linked by symbol classes. -/

namespace Syntagma

/-- What is recognized where the automaton stops: a defined token with the name of its class, or
a terminal with the unclassified class. -/
structure AcceptToken where
  name : String
  className : String
deriving DecidableEq, Inhabited, Repr, Hashable

/-- Where each symbol class leads from a state. -/
abbrev Links := Dictionary String StateId

/-- A published state; one without links has no map at all. -/
structure FiniteState where
  links : Option Links
  token : Option AcceptToken
deriving DecidableEq, Inhabited

namespace FiniteState

def link? (s : FiniteState) (className : String) : Option StateId :=
  s.links.bind (·.get? className)

/-- The links in the order of their classes. -/
def linkList (s : FiniteState) : List (String × StateId) :=
  match s.links with
  | some links => links.entries
  | none => []

def targets (s : FiniteState) : List StateId := s.linkList.map (·.2)

def mapTargets (f : StateId → StateId) (s : FiniteState) : FiniteState :=
  { s with links := s.links.map (·.mapValues f) }

end FiniteState

structure FiniteAutomaton where
  states : Array FiniteState
  start : StateId
  /-- The class table after narrowing; the links refer to it. -/
  classTable : ClassTable
  /-- The characters taken out of each class. -/
  narrowed : Dictionary String (List Char)
deriving DecidableEq, Inhabited

namespace FiniteAutomaton

def state? (a : FiniteAutomaton) (id : StateId) : Option FiniteState := a.states[id]?

/-- Where a character leads from a state. -/
def step? (a : FiniteAutomaton) (state : StateId) (c : Char) : Option StateId :=
  (a.classTable.symbolInfo c).className?.bind (fun name =>
    (a.state? state).bind (·.link? name))

/-- What is recognized in a state. -/
def accepted? (a : FiniteAutomaton) (state : StateId) : Option AcceptToken :=
  (a.state? state).bind (·.token)

/-- An automaton whose class table was not narrowed. -/
def ofStates (states : List FiniteState) (start : StateId) (classTable : ClassTable) :
    FiniteAutomaton :=
  ⟨states.toArray, start, classTable, .empty⟩

def stateText (id : StateId) (s : FiniteState) : String :=
  let token := match s.token with
    | some t => " [" ++ t.name ++ ":" ++ t.className ++ "]"
    | none => ""
  let links := s.linkList.map (fun e => " " ++ e.1 ++ "->" ++ StateId.text e.2)
  StateId.text id ++ token ++ String.join links ++ "\n"

/-- One state to a line. -/
def text (a : FiniteAutomaton) : String :=
  String.join (a.states.toList.mapIdx stateText)

end FiniteAutomaton

end Syntagma
