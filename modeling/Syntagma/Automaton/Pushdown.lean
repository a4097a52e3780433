import Syntagma.Automaton.Discovery
import Syntagma.Fault
import Syntagma.Grammar.Basic

/-! The table that the analysis can run instead of the grammar. Every medium and factor reached
from the axiom is a state: its token cases are direct links, and its other cases are dives that
enter a state and later resume at another. -/

namespace Syntagma

/-- Where a case leads: the state entered, if the derivation does not end, and for a dive the
state resumed once the entered one has finished. -/
structure PushdownLink where
  enter : Option StateId
  resume : Option StateId
deriving DecidableEq, Inhabited, Repr

structure PushdownState where
  /-- The node this state stands for. -/
  origin : NodeId
  links : Dictionary NodeId PushdownLink
  dives : List (NodeId × PushdownLink)
  interruptable : Bool
  recursion : Option StateId
deriving DecidableEq, Inhabited

structure PushdownAutomaton where
  states : Array PushdownState
  start : StateId
  tokenNames : Dictionary NodeId String
deriving DecidableEq, Inhabited

namespace PushdownAutomaton

def state? (p : PushdownAutomaton) (id : StateId) : Option PushdownState := p.states[id]?

def tokenName? (p : PushdownAutomaton) (id : NodeId) : Option String := p.tokenNames.get? id

/-- Whether a head of a case is entered when it is met. -/
def isEntered (g : Grammar) (head : NodeId) : Bool := !g.isTokenKey head && (g.trie? head).isSome

/-- The nodes a trie leads to: for each case what continues it and then the head, if it is
entered; and last the loop. -/
def successors (g : Grammar) (trie : Trie) : List NodeId :=
  trie.cases.flatMap (fun e => e.2.toList ++ (if isEntered g e.1 then [e.1] else [])) ++
    trie.recursion.toList

/-- The nodes that become states, in the order of their numbers. -/
def origins (g : Grammar) : Array NodeId :=
  discover (fun id => ((g.trie? id).map (successors g)).getD []) g.nodes.size g.axiomId

/-- The state of a node. Of several cases with one token the first counts. -/
def stateOf (g : Grammar) (stateId : NodeId → StateId) (origin : NodeId) (trie : Trie) :
    PushdownState where
  origin := origin
  links := trie.cases.foldl (fun links e =>
    if g.isTokenKey e.1 && !links.contains e.1 then links.insert e.1 ⟨e.2.map stateId, none⟩
    else links) .empty
  dives := (trie.cases.filter (fun e => isEntered g e.1)).map
    (fun e => (e.1, ⟨some (stateId e.1), e.2.map stateId⟩))
  interruptable := trie.interruptable
  recursion := trie.recursion.map stateId

/-- The tokens at the heads of a trie with their names. -/
def namedTokens (g : Grammar) (trie : Trie) : List (NodeId × String) :=
  (trie.cases.filter (fun e => g.isTokenKey e.1)).map (fun e => (e.1, g.nameOf e.1))

def ofGrammar (g : Grammar) : Except Fault PushdownAutomaton := do
  let origins := origins g
  let stateId := fun id => (origins.idxOf? id).getD 0
  let tries ← origins.toList.mapM (fun id =>
    match g.trie? id with
    | some trie => .ok (id, trie)
    | none => .error (.of (.internal (g.textOf id ++ " has no trie"))))
  return {
    states := (tries.map (fun e => stateOf g stateId e.1 e.2)).toArray
    start := 0
    tokenNames := .ofList (tries.flatMap (fun e => namedTokens g e.2)) }

def targetText : Option StateId → String
  | some id => StateId.text id
  | none => "end"

def stateText (p : PushdownAutomaton) (id : StateId) (s : PushdownState) : String :=
  let links := s.links.entries.map (fun e =>
    " " ++ (p.tokenName? e.1).getD "?" ++ "->" ++ targetText e.2.enter)
  let dives := s.dives.map (fun e =>
    " " ++ NodeId.text e.1 ++ "=>" ++ targetText e.2.enter ++ "/" ++ targetText e.2.resume)
  let loop := match s.recursion with
    | some id => " loop " ++ StateId.text id
    | none => ""
  StateId.text id ++ " " ++ NodeId.text s.origin ++ (if s.interruptable then " ^" else "") ++
    String.join links ++ String.join dives ++ loop ++ "\n"

/-- One state to a line. -/
def text (p : PushdownAutomaton) : String := String.join (p.states.toList.mapIdx p.stateText)

end PushdownAutomaton

end Syntagma
