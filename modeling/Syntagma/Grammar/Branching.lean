import Syntagma.Grammar.LeftRecursion

/-! Factorization: alternatives are merged by their first symbols, and so again behind each
first symbol. The result is a tree; its inner nodes become the factors of the grammar, each
numbered after the factors inside it. -/

namespace Syntagma

/-- Alternatives merged by their first symbols: each first symbol with what may follow it, if
anything, and whether some alternative is empty. -/
inductive Branching where
  | mk (branches : List (NodeId × Option Branching)) (ends : Bool)

namespace Branching

def branches : Branching → List (NodeId × Option Branching)
  | .mk branches _ => branches

def ends : Branching → Bool
  | .mk _ ends => ends

/-- The first symbols of the non-empty cases, in order of first appearance. -/
def heads (cases : List (List NodeId)) : List NodeId := (cases.filterMap List.head?).eraseDups

/-- What follows `head` in the cases that start with it. -/
def tailsOf (head : NodeId) : List (List NodeId) → List (List NodeId)
  | [] => []
  | [] :: rest => tailsOf head rest
  | (h :: t) :: rest => if h = head then t :: tailsOf head rest else tailsOf head rest

/-- Whether a case stands there more than once as this single symbol. -/
def endsTwiceAfter (cases : List (List NodeId)) (head : NodeId) : Bool :=
  let tails := tailsOf head cases
  decide (1 < tails.length) && tails.all (·.isEmpty)

/-- Merges cases of at most `depth` symbols; nothing if there are cases and all are empty. -/
def ofCasesWithin : Nat → List (List NodeId) → Option Branching
  | 0, cases => if cases.isEmpty then some (.mk [] false) else none
  | depth + 1, cases =>
    if !cases.isEmpty && cases.all (·.isEmpty) then none
    else
      some (.mk ((heads cases).map (fun h => (h, ofCasesWithin depth (tailsOf h cases))))
        (cases.any (·.isEmpty) || (heads cases).any (endsTwiceAfter cases)))

def longest (cases : List (List NodeId)) : Nat := cases.foldl (fun n c => max n c.length) 0

def ofCases (cases : List (List NodeId)) : Option Branching := ofCasesWithin (longest cases) cases

end Branching

namespace Draft

def factorCount (d : Draft) : Nat := (d.nodes.toList.filter (·.isFactor)).length

/-- A new factor, named by the medium it belongs to and its place among all factors. -/
def pushFactor (d : Draft) (owner : String) (trie : Trie) : Draft :=
  d.push (owner ++ "'" ++ toString (d.factorCount + 1)) none (.factor trie)

mutual

/-- Makes the factors inside a tree and gives the trie at its root. -/
def plant (owner : String) : Branching → Draft → Trie × Draft
  | .mk branches ends, d =>
    let (cases, d) := plantBranches owner branches d
    (⟨cases, ends, none⟩, d)

def plantBranches (owner : String) :
    List (NodeId × Option Branching) → Draft → List (NodeId × Option NodeId) × Draft
  | [], d => ([], d)
  | (head, none) :: rest, d =>
    let (cases, d) := plantBranches owner rest d
    ((head, none) :: cases, d)
  | (head, some b) :: rest, d =>
    let (trie, d) := plant owner b d
    let factor := d.nextId
    let (cases, d) := plantBranches owner rest (d.pushFactor owner trie)
    ((head, some factor) :: cases, d)

end

/-- The trie of the cases; with nothing but empty cases it is the empty trie. -/
def factorize (d : Draft) (owner : String) (cases : List (List NodeId)) : Trie × Draft :=
  match Branching.ofCases cases with
  | some b => plant owner b d
  | none => (.empty, d)

/-- Makes the loop factor for left-recursive tails: it may end at once, or enter the tails and
come back to itself. There is none if all tails are empty. -/
def plantLoop (d : Draft) (owner : String) (tails : List (List NodeId)) : Option NodeId × Draft :=
  match Branching.ofCases tails with
  | some b =>
    let (trie, d) := plant owner b d
    let tail := d.nextId
    let d := d.pushFactor owner trie
    let loop := d.nextId
    (some loop, d.pushFactor owner ⟨[(tail, some loop)], true, none⟩)
  | none => (none, d)

def setTrie (d : Draft) (id : NodeId) (trie : Trie) : Draft :=
  d.modifyMedium id (fun data => { data with trie := trie })

/-- Factorizes a medium whose cases are all taken as they are. -/
def factorizeMedium (d : Draft) (id : NodeId) : Draft :=
  let (trie, d) := d.factorize (d.nameOf id) (d.casesOf id)
  d.setTrie id trie

/-- Factorizes a medium and keeps its left-recursive cases as a loop. -/
def factorizeKeeping (d : Draft) (id : NodeId) : Except Fault Draft :=
  let recursive := d.recursiveCases id
  let base := d.baseCases id
  let owner := d.nameOf id
  if !recursive.isEmpty && base.isEmpty then .error (.of (.noBaseCase owner))
  else
    let (trie, d) := d.factorize owner base
    if recursive.isEmpty then .ok (d.setTrie id trie)
    else
      let (loop, d) := d.plantLoop owner (recursive.map (·.drop 1))
      .ok (d.setTrie id { trie with recursion := loop })

end Draft

end Syntagma
