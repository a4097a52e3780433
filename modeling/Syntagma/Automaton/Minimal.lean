import Syntagma.Automaton.Arena
import Syntagma.Automaton.Discovery

/-! Minimization. States equal in token and links are merged into the first of them until no two
are equal; then the states that can be reached are numbered breadth first from the start. -/

namespace Syntagma

namespace Minimal

/-- An arena with its states in published form; a state merged into another is dead. -/
structure Stage where
  states : Array FiniteState
  dead : Array Bool
deriving Inhabited

def publish (s : DraftState) : FiniteState :=
  ⟨if s.links.isEmpty then none else some s.links, s.token⟩

def Stage.ofArena (a : Arena) : Stage := ⟨a.map publish, Array.replicate a.size false⟩

def Stage.isLive (g : Stage) (id : StateId) : Bool := g.dead[id]? == some false

/-- The first live state equal to the state `id`, if it stands before it, else `id` itself. -/
def Stage.representative (g : Stage) (id : StateId) : StateId :=
  ((List.range id).find? (fun j => g.isLive j && decide (g.states[j]? = g.states[id]?))).getD id

/-- Where each state is sent in one round; a dead state is sent nowhere. -/
def Stage.redirection (g : Stage) : Array StateId :=
  (Array.range g.states.size).map (fun id => if g.isLive id then g.representative id else id)

/-- One round of merging, and whether it merged anything. -/
def Stage.round (g : Stage) : Stage × Bool :=
  let sent := g.redirection
  let changed := (List.range g.states.size).any (fun id => sent[id]? != some id)
  let states := g.states.map (·.mapTargets (fun t => sent[t]?.getD t))
  let dead := g.dead.mapIdx (fun id d => d || sent[id]? != some id)
  (⟨states, dead⟩, changed)

/-- Merges until a round changes nothing; each round but the last ends the life of a state. -/
def Stage.settle : Nat → Stage → Stage
  | 0, g => g
  | rounds + 1, g =>
    let (g', changed) := g.round
    if changed then settle rounds g' else g

def targetsOf (states : Array FiniteState) (id : StateId) : List StateId :=
  (states[id]?.map (·.targets)).getD []

/-- The states reached from the start, numbered in the order of discovery. -/
def renumber (states : Array FiniteState) (start : StateId) : Array FiniteState :=
  let order := discover (targetsOf states) states.size start
  let newId := fun id => (order.idxOf? id).getD 0
  order.map (fun id => (states[id]?.getD default).mapTargets newId)

end Minimal

/-- The published states of an arena. The start is the first of them. -/
def minimize (a : Arena) (start : StateId) : Array FiniteState :=
  Minimal.renumber ((Minimal.Stage.ofArena a).settle (a.size + 1)).states start

end Syntagma
