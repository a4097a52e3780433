import Syntagma.Symbol.ClassTable

/-! Narrowing: the characters of literal terminals are taken out of the larger classes one by
one, so that a path of classes spells a terminal exactly. -/

namespace Syntagma

/-- A class table in the course of narrowing. -/
structure Narrowing where
  table : ClassTable
  /-- What each class has lost, in the order of loss. -/
  removed : Dictionary String (List Char)
  /-- The characters that got a class of their own out of a larger one and were not yet
  collected. -/
  promoted : List Char
deriving DecidableEq, Inhabited

namespace Narrowing

def ofTable (table : ClassTable) : Narrowing := ⟨table, .empty, []⟩

/-- Moves the character out of the class `name` with these symbols into one of its own. -/
def promote (n : Narrowing) (name : String) (symbols : List Char) (c : Char) : Narrowing where
  table := (n.table.setClass name (symbols.filter (· != c))).setSingleton c
  removed := n.removed.insert name ((n.removed.get? name).getD [] ++ [c])
  promoted := n.promoted ++ [c]

/-- The class that stands for a character of a literal; none for a white delimiter. -/
def key (n : Narrowing) (c : Char) : Option String × Narrowing :=
  match n.table.symbolInfo c with
  | .classified name =>
    let symbols := (n.table.classSymbols? name).getD []
    if 1 < symbols.length then (some (String.singleton c), n.promote name symbols c)
    else (some name, n)
  | .undefined => (some (String.singleton c), { n with table := n.table.setSingleton c })
  | .whiteDelimiter => (none, n)

/-- The classes that spell a literal, white delimiters left out. -/
def keys (n : Narrowing) : List Char → List String × Narrowing
  | [] => ([], n)
  | c :: rest =>
    let (key, n) := n.key c
    let (keys, n) := n.keys rest
    (key.toList ++ keys, n)

/-- The characters promoted since the last collection. -/
def takePromoted (n : Narrowing) : List Char × Narrowing := (n.promoted, { n with promoted := [] })

end Narrowing

end Syntagma
