import Syntagma.Automaton.Build
import Syntagma.Automaton.Pushdown
import Syntagma.Lexer

/-! Everything compiled from a grammar that is needed to check scripts against it. -/

namespace Syntagma

structure Artifacts where
  grammar : Grammar
  /-- The class table after narrowing. -/
  classTable : ClassTable
  finite : FiniteAutomaton
  pushdown : PushdownAutomaton
deriving DecidableEq, Inhabited

namespace Artifacts

def ofGrammar (g : Grammar) : Except Fault Artifacts := do
  let finite ← FiniteAutomaton.ofGrammar g
  let pushdown ← PushdownAutomaton.ofGrammar g
  return ⟨g, finite.classTable, finite, pushdown⟩

def lexer (a : Artifacts) (options : LexerOptions) : Lexer := ⟨a.grammar, a.finite, options⟩

end Artifacts

end Syntagma
