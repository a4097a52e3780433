/-! Choices that steer compilation, tokenization and analysis. -/

namespace Syntagma

structure GrammarOptions where
  /-- Whether terminals inside defined tokens are tokens of their own as well. -/
  includeTokenTerminals : Bool := false
  /-- Whether left recursion is turned into right recursion or kept as loops. -/
  removeLeftRecursion : Bool := true
deriving DecidableEq, Inhabited, Repr

structure LexerOptions where
  /-- Columns that a tab advances. -/
  tabWidth : Nat := 4
deriving DecidableEq, Inhabited, Repr

/-- What the analysis walks: the factorized grammar or the table compiled from it. -/
inductive Strategy where
  | descent
  | table
deriving DecidableEq, Inhabited, Repr

namespace Strategy

def text : Strategy → String
  | .descent => "recursive"
  | .table => "pushdown"

def ofText? (s : String) : Option Strategy :=
  if s = "recursive" ∨ s = "recursive-descent" then some .descent
  else if s = "pushdown" ∨ s = "pushdown-table" then some .table
  else none

def unknownText (s : String) : String := "unknown syntax strategy: " ++ s

theorem ofText?_text (s : Strategy) : ofText? s.text = some s := by
  cases s <;> decide

end Strategy

structure AnalysisOptions where
  strategy : Strategy := .table
  /-- Whether undefined tokens are dropped before the analysis instead of ending it. -/
  ignoreUndefined : Bool := false
  /-- The greatest continuation stack, and the longest run of moves without a token. -/
  maxDepth : Nat := 10000
deriving DecidableEq, Inhabited, Repr

structure Options where
  grammar : GrammarOptions := {}
  lexer : LexerOptions := {}
  analysis : AnalysisOptions := {}
deriving DecidableEq, Inhabited, Repr

/-- The choices that suit the writing of a grammar: recursion stays as written and unknown
tokens are passed over. -/
def Options.authoring : Options where
  grammar := { removeLeftRecursion := false }
  analysis := { strategy := .descent, ignoreUndefined := true }

end Syntagma
