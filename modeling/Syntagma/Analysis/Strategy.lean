import Syntagma.Analysis.Search
import Syntagma.Automaton.Pushdown

/-! The two ways to walk a grammar: over its tries, or over the table compiled from them. -/

namespace Syntagma

namespace Grammar

def tokenNamesOf (g : Grammar) (trie : Trie) : List String :=
  (trie.cases.filter (fun e => g.isTokenKey e.1)).map (fun e => g.nameOf e.1)

/-- Whether a head of a case is entered when it is met. -/
def entered? (g : Grammar) (head : NodeId) : Option Trie :=
  if g.isTokenKey head then none else g.trie? head

/-- Positions are the mediums and factors themselves. -/
def cursor (g : Grammar) : Cursor NodeId where
  start := g.axiomId
  interruptable at_ := (g.trie? at_).any (·.interruptable)
  recursion at_ := (g.trie? at_).bind (·.recursion)
  step at_ token :=
    if g.isTokenKey token then (g.trie? at_).bind (·.continuation? token) else none
  dives at_ := match g.trie? at_ with
    | some trie => (trie.cases.filter (fun e => (g.entered? e.1).isSome)).map
        (fun e => ⟨e.1, e.1, e.2⟩)
    | none => []
  expected at_ := match g.trie? at_ with
    | some trie => g.tokenNamesOf trie ++ (trie.cases.filterMap (fun e => g.entered? e.1)).flatMap
        g.tokenNamesOf
    | none => []

end Grammar

namespace PushdownAutomaton

def tokenNamesOf (p : PushdownAutomaton) (s : PushdownState) : List String :=
  s.links.keys.filterMap p.tokenName?

/-- Positions are the states of the table. -/
def cursor (p : PushdownAutomaton) : Cursor StateId where
  start := p.start
  interruptable at_ := (p.state? at_).any (·.interruptable)
  recursion at_ := (p.state? at_).bind (·.recursion)
  step at_ token := ((p.state? at_).bind (·.links.get? token)).map (·.enter)
  dives at_ := match p.state? at_ with
    | some s =>
      s.dives.filterMap (fun e => e.2.enter.map (fun entered => ⟨e.1, entered, e.2.resume⟩))
    | none => []
  expected at_ := match p.state? at_ with
    | some s => p.tokenNamesOf s ++
        (s.dives.filterMap (fun e => e.2.enter.bind p.state?)).flatMap p.tokenNamesOf
    | none => []

end PushdownAutomaton

/-- Analyzes tokens with the strategy that the options ask for. -/
def analyze (g : Grammar) (p : PushdownAutomaton) (options : AnalysisOptions)
    (tokens : List Token) : Except Fault Outcome × List TraceEvent :=
  match options.strategy with
  | .descent => g.cursor.analyze options tokens
  | .table => p.cursor.analyze options tokens

end Syntagma
