import Syntagma.Diagnostic
import Syntagma.Trace.Event

/-! How the analysis of a script ends. -/

namespace Syntagma

/-- The verdict on a script. -/
inductive Outcome where
  | accepted (steps : Nat)
  | rejected (diagnostic : Diagnostic)
deriving DecidableEq, Inhabited, Repr

namespace Outcome

def isAccepted : Outcome → Bool
  | .accepted _ => true
  | .rejected _ => false

def diagnostic? : Outcome → Option Diagnostic
  | .accepted _ => none
  | .rejected diagnostic => some diagnostic

def event : Outcome → TraceEvent
  | .accepted steps => .accepted steps
  | .rejected diagnostic => .rejected diagnostic.position diagnostic.message

end Outcome

end Syntagma
