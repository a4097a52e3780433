import Syntagma.Grammar.Node
import Syntagma.Symbol.ClassTable

/-! The compiled grammar and the questions asked of it. -/

namespace Syntagma

structure Grammar where
  nodes : Array Node
  axiomId : NodeId
  /-- The tables as declared, before narrowing. -/
  classTable : ClassTable
  /-- Terminals outside every declared class that overlap another one or have several
  characters. -/
  unclassifiedTerminals : List String
  /-- Whether left recursion was kept as loops. -/
  hasLeftRecursion : Bool
  /-- Nonterminals in order of definition, then the tails of removed recursion by name. -/
  definitionOrder : List NodeId
  terminalIndex : Dictionary String NodeId
  tokenIndex : Dictionary String NodeId
deriving DecidableEq, Inhabited

namespace Grammar

def node? (g : Grammar) (id : NodeId) : Option Node := g.nodes[id]?

def nodeList (g : Grammar) : List Node := g.nodes.toList

def trie? (g : Grammar) (id : NodeId) : Option Trie := (g.node? id).bind (·.trie?)

def isTokenKey (g : Grammar) (id : NodeId) : Bool := (g.node? id).any (·.isTokenKey)

/-- The name of a node, empty for a number out of range. -/
def nameOf (g : Grammar) (id : NodeId) : String := ((g.node? id).map (·.name)).getD ""

/-- How a node is written, empty for a number out of range. -/
def textOf (g : Grammar) (id : NodeId) : String := ((g.node? id).map (·.text)).getD ""

def definitions (g : Grammar) : List Node := g.definitionOrder.filterMap g.node?

def terminals (g : Grammar) : List Node := g.nodeList.filter (·.isTerminal)

/-- The terminals that are tokens of their own, by name. -/
def listedTerminals (g : Grammar) : List Node := g.terminalIndex.values.filterMap g.node?

def nonterminals (g : Grammar) : List Node := g.nodeList.filter (·.isNonterminal)

def tokens (g : Grammar) : List Node := g.nodeList.filter (·.isDefinedToken)

def mediums (g : Grammar) : List Node := g.nodeList.filter (·.isMedium)

def classes (g : Grammar) : List Node := g.nodeList.filter (·.isClass)

def factors (g : Grammar) : List Node := g.nodeList.filter (·.isFactor)

def terminalByName? (g : Grammar) (name : String) : Option NodeId := g.terminalIndex.get? name

def tokenByName? (g : Grammar) (name : String) : Option NodeId := g.tokenIndex.get? name

/-- The names of the listed terminals. -/
def keywords (g : Grammar) : List String := g.listedTerminals.map (·.name)

/-- A grammar with the indexes its nodes give rise to. -/
def ofNodes (nodes : List Node) (axiomId : NodeId) (classTable : ClassTable)
    (unclassifiedTerminals : List String) (hasLeftRecursion : Bool)
    (definitionOrder : List NodeId) : Grammar where
  nodes := nodes.toArray
  axiomId := axiomId
  classTable := classTable
  unclassifiedTerminals := unclassifiedTerminals
  hasLeftRecursion := hasLeftRecursion
  definitionOrder := definitionOrder
  terminalIndex := .ofList ((nodes.filter (·.isListedTerminal)).map (fun n => (n.name, n.id)))
  tokenIndex := .ofList ((nodes.filter (·.isDefinedToken)).map (fun n => (n.name, n.id)))

end Grammar

end Syntagma
