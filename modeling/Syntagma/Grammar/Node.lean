import Syntagma.Token

/-! The nodes of a compiled grammar. Nodes refer to one another by number, so cycles need no
care. -/

namespace Syntagma

/-- Alternatives merged by their first symbols. -/
structure Trie where
  /-- Each first symbol, in order of first appearance, with the factor that continues it, or
  nothing if the derivation ends after it. -/
  cases : List (NodeId × Option NodeId)
  /-- Whether some alternative ends here. -/
  interruptable : Bool
  /-- The loop factor that repeats a left-recursive tail kept as written. -/
  recursion : Option NodeId
deriving DecidableEq, Inhabited, Repr

namespace Trie

def empty : Trie := ⟨[], false, none⟩

/-- The continuation after `head`, if `head` has a case. -/
def continuation? (t : Trie) (head : NodeId) : Option (Option NodeId) :=
  (t.cases.find? (fun e => e.1 == head)).map (·.2)

/-- Whether nothing can be matched here. -/
def isBottom (t : Trie) : Bool := t.cases.isEmpty && t.recursion.isNone

def mapIds (f : NodeId → NodeId) (t : Trie) : Trie where
  cases := t.cases.map (fun e => (f e.1, e.2.map f))
  interruptable := t.interruptable
  recursion := t.recursion.map f

end Trie

structure TerminalData where
  /-- Not inside one declared symbol class. -/
  isControl : Bool
  /-- A token of its own, not only a part of defined tokens. -/
  isListed : Bool
  classId : TokenClassId
  streamers : List String
  breakers : List String
  streamMaxCount : Option UInt32
  operatorPriority : Option UInt32
deriving DecidableEq, Inhabited, Repr

structure ClassData where
  key : String
  symbols : String
deriving DecidableEq, Inhabited, Repr

/-- The token class of a defined token. -/
structure TokenTag where
  className : String
  classId : TokenClassId
deriving DecidableEq, Inhabited, Repr

structure MediumData where
  cases : List (List NodeId)
  trie : Trie
  token : Option TokenTag
  /-- Made by the removal of left recursion. -/
  isSynthetic : Bool
deriving DecidableEq, Inhabited, Repr

inductive NodeKind where
  | terminal (data : TerminalData)
  | symbolClass (data : ClassData)
  | medium (data : MediumData)
  | factor (trie : Trie)
deriving DecidableEq, Inhabited, Repr

structure Node where
  id : NodeId
  name : String
  execClass : Option String
  kind : NodeKind
deriving DecidableEq, Inhabited, Repr

namespace Node

def terminal? (n : Node) : Option TerminalData :=
  match n.kind with
  | .terminal data => some data
  | _ => none

def class? (n : Node) : Option ClassData :=
  match n.kind with
  | .symbolClass data => some data
  | _ => none

def medium? (n : Node) : Option MediumData :=
  match n.kind with
  | .medium data => some data
  | _ => none

def isTerminal (n : Node) : Bool := n.terminal?.isSome

def isClass (n : Node) : Bool := n.class?.isSome

def isMedium (n : Node) : Bool := n.medium?.isSome

def isFactor (n : Node) : Bool :=
  match n.kind with
  | .factor _ => true
  | _ => false

/-- A class or a medium. -/
def isNonterminal (n : Node) : Bool := n.isClass || n.isMedium

def tokenTag? (n : Node) : Option TokenTag := n.medium?.bind (·.token)

def isDefinedToken (n : Node) : Bool := n.tokenTag?.isSome

def isListedTerminal (n : Node) : Bool := n.terminal?.any (·.isListed)

def isSynthetic (n : Node) : Bool := n.medium?.any (·.isSynthetic)

/-- Whether a token of a script can carry the number of this node. -/
def isTokenKey (n : Node) : Bool := n.isTerminal || n.isDefinedToken

def trie? (n : Node) : Option Trie :=
  match n.kind with
  | .medium data => some data.trie
  | .factor trie => some trie
  | _ => none

/-- Renumbers the node, its own number and those it refers to. -/
def mapIds (f : NodeId → NodeId) (n : Node) : Node where
  id := f n.id
  name := n.name
  execClass := n.execClass
  kind := match n.kind with
    | .terminal data => .terminal data
    | .symbolClass data => .symbolClass data
    | .medium data =>
      .medium { data with cases := data.cases.map (·.map f), trie := data.trie.mapIds f }
    | .factor trie => .factor (trie.mapIds f)

/-- A terminal as it is, any other node in angle brackets. -/
def text (n : Node) : String := if n.isTerminal then n.name else "<" ++ n.name ++ ">"

end Node

end Syntagma
