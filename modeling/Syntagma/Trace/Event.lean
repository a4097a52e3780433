import Syntagma.Token

/-! What can happen while a grammar is compiled and scripts are checked. -/

namespace Syntagma

/-- The stage an event belongs to. -/
inductive Channel where
  | grammar
  | automata
  | lexing
  | parsing
deriving DecidableEq, Inhabited, Repr

namespace Channel

/-- Every channel, in the order of the stages. -/
def all : List Channel := [.grammar, .automata, .lexing, .parsing]

def text : Channel → String
  | .grammar => "grammar"
  | .automata => "automaton"
  | .lexing => "lexer"
  | .parsing => "syntax"

def ofText? (s : String) : Option Channel := all.find? (fun c => c.text == s)

def unknownText (s : String) : String := "unknown trace channel '" ++ s ++ "'"

theorem mem_all (c : Channel) : c ∈ all := by cases c <;> simp [all]

theorem ofText?_text (c : Channel) : ofText? c.text = some c := by cases c <;> decide

end Channel

inductive TraceEvent where
  | grammarCompiled (nodes factors : Nat) (leftRecursion : Bool)
  | finiteBuilt (states : Nat)
  | pushdownCompiled (states : Nat)
  /-- A character was read, or ended the token before it if there is no target. -/
  | lexerStep (symbol : Char) (source : StateId) (target : Option StateId)
  | tokenEmitted (token : Token)
  /-- The search entered a nonterminal. -/
  | dive (tokenIndex : Nat) (node : NodeId)
  /-- The search gave up a branch. -/
  | backtrack (tokenIndex : Nat)
  | accepted (steps : Nat)
  | rejected (position : Nat) (message : String)
  | note (channel : Channel) (message : String)
deriving DecidableEq, Inhabited, Repr

namespace TraceEvent

def typeName : TraceEvent → String
  | .grammarCompiled _ _ _ => "grammar-compiled"
  | .finiteBuilt _ => "finite-automaton-built"
  | .pushdownCompiled _ => "pushdown-compiled"
  | .lexerStep _ _ _ => "lexer-step"
  | .tokenEmitted _ => "token-emitted"
  | .dive _ _ => "syntax-dive"
  | .backtrack _ => "syntax-backtrack"
  | .accepted _ => "syntax-success"
  | .rejected _ _ => "syntax-error"
  | .note _ _ => "custom"

def channel : TraceEvent → Channel
  | .grammarCompiled _ _ _ => .grammar
  | .finiteBuilt _ => .automata
  | .pushdownCompiled _ => .automata
  | .lexerStep _ _ _ => .lexing
  | .tokenEmitted _ => .lexing
  | .dive _ _ => .parsing
  | .backtrack _ => .parsing
  | .accepted _ => .parsing
  | .rejected _ _ => .parsing
  | .note channel _ => channel

/-- Whether the event ends an analysis. -/
def isVerdict : TraceEvent → Bool
  | .accepted _ => true
  | .rejected _ _ => true
  | _ => false

end TraceEvent

end Syntagma
