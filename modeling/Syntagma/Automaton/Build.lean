import Syntagma.Automaton.Minimal
import Syntagma.Automaton.Synthesis

/-! The lexer automaton of a grammar: synthesized, then minimized. -/

namespace Syntagma.FiniteAutomaton

def ofGrammar (g : Grammar) : Except Fault FiniteAutomaton := do
  let s ← Synthesis.ofGrammar g
  return ⟨minimize s.arena Arena.root, 0, s.narrowing.table, s.narrowing.removed⟩

end Syntagma.FiniteAutomaton
