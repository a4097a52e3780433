import Syntagma.Grammar.Draft

/-! Left recursion. A medium `A ::= A a | b` becomes `A ::= b | b T`, `T ::= a T | a`,
with one tail medium `T` for each alternative that does not start with `A`. -/

namespace Syntagma.Draft

/-- Whether a case starts with the medium it belongs to. -/
def startsWith (id : NodeId) (case : List NodeId) : Bool := case.head? == some id

def recursiveCases (d : Draft) (id : NodeId) : List (List NodeId) :=
  (d.casesOf id).filter (startsWith id)

def baseCases (d : Draft) (id : NodeId) : List (List NodeId) :=
  (d.casesOf id).filter (fun case => !startsWith id case)

/-- The tails behind the leading recursion, each with the tail medium again and alone. -/
def tailCases (tails : List (List NodeId)) (tail : NodeId) : List (List NodeId) :=
  tails.flatMap (fun a => [a ++ [tail], a])

def pushTail (name : String) (tails : List (List NodeId)) (d : Draft) (index : Nat) : Draft :=
  d.push (name ++ "(" ++ toString index ++ ")") none
    (.medium ⟨tailCases tails d.nextId, .empty, none, true⟩)

/-- Removes left recursion from one medium. The tail for the alternative at place `i` is the
`i`-th new node. -/
def removeFromMedium (d : Draft) (id : NodeId) : Except Fault Draft :=
  let recursive := d.recursiveCases id
  let base := d.baseCases id
  if recursive.isEmpty then .ok d
  else if base.isEmpty then .error (.of (.noBaseCase (d.nameOf id)))
  else
    let tails := recursive.map (·.drop 1)
    let withTails := base.mapIdx (fun i case => case ++ [d.nextId + i])
    .ok (((List.range base.length).foldl (pushTail (d.nameOf id) tails) d).setCases id
      (base ++ withTails))

def removeLeftRecursion (d : Draft) (mediums : List NodeId) : Except Fault Draft :=
  mediums.foldlM removeFromMedium d

end Syntagma.Draft
