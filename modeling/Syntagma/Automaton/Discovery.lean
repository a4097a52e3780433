/-! Breadth-first discovery: the numbers that can be reached from a first one, in the order in
which they are met. -/

namespace Syntagma

namespace Discovery

/-- Adds the numbers that were not met before. -/
def meet (order : Array Nat) (found : List Nat) : Array Nat :=
  found.foldl (fun order id => if order.contains id then order else order.push id) order

/-- Looks at the numbers met so far from place `i` on, at most `steps` of them. -/
def run (next : Nat → List Nat) : Nat → Nat → Array Nat → Array Nat
  | 0, _, order => order
  | steps + 1, i, order =>
    match order[i]? with
    | some id => run next steps (i + 1) (meet order (next id))
    | none => order

end Discovery

/-- All numbers reached from `first`. There are no more steps than numbers below `bound`. -/
def discover (next : Nat → List Nat) (bound : Nat) (first : Nat) : Array Nat :=
  Discovery.run next (bound + 1) 0 #[first]

end Syntagma
