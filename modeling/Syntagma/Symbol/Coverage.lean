import Syntagma.Symbol.ClassTable

/-! How the terminals of a grammar relate to its declared symbol classes. A terminal inside one
class is read by that class. Any other terminal needs characters of its own, and the classes for
them are made here. -/

namespace Syntagma

/-- The class that gathers the one-character delimiters. -/
def singleDelimiterName : String := "singleDelimiter"

/-- The terminals outside every declared class, and those among them that contain, or are
contained in, another one. -/
structure Coverage where
  unclassified : List String
  intersected : List String
deriving DecidableEq, Inhabited, Repr

namespace Coverage

/-- The class to which every character of a non-empty text belongs, if there is one. -/
def coveringClass? (declared : List SymbolClass) : List Char → Option String
  | [] => none
  | c :: rest =>
    match SymbolClass.firstWith declared c with
    | none => none
    | some k =>
      if rest.all (fun d => (SymbolClass.firstWith declared d).map (·.name) == some k.name)
      then some k.name else none

/-- Whether one list of characters stands inside another. -/
def isInside (s : List Char) : List Char → Bool
  | [] => s.isEmpty
  | c :: rest => s.isPrefixOf (c :: rest) || isInside s rest

theorem isInside_iff (s t : List Char) : isInside s t = true ↔ s <:+: t := by
  induction t with
  | nil => simp [isInside]
  | cons c rest ih => simp [isInside, ih, List.infix_cons_iff]

/-- Whether one of two different texts stands inside the other. -/
def overlap (s t : String) : Bool :=
  s != t && (isInside s.toList t.toList || isInside t.toList s.toList)

def ofTerminals (declared : List SymbolClass) (terminals : List String) : Coverage :=
  let unclassified :=
    (terminals.filter (fun t => (coveringClass? declared t.toList).isNone)).eraseDups
  ⟨unclassified, unclassified.filter (fun t => unclassified.any (overlap t))⟩

/-- The characters of the one-character terminals that overlap no other. -/
def singleDelimiters (c : Coverage) : List Char :=
  c.unclassified.flatMap (fun t =>
    if !c.intersected.contains t && t.length == 1 then t.toList else [])

/-- Registers the declared classes, the class of single delimiters, and a class for each other
character of an overlapping terminal. -/
def register (c : Coverage) (declared : List SymbolClass) (table : ClassTable) : ClassTable :=
  let table := declared.foldl (fun t k => t.setClass k.name k.symbols) table
  let table := table.setClass singleDelimiterName c.singleDelimiters
  (c.intersected.flatMap String.toList).foldl
    (fun t ch => if c.singleDelimiters.contains ch then t else t.setSingleton ch) table

end Coverage

end Syntagma
