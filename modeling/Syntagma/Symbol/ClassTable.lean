import Syntagma.Token.ClassMap

/-! Symbol classes, token classes and white delimiters: the tables that automaton synthesis and
tokenization share. -/

namespace Syntagma

/-- A named set of characters. -/
structure SymbolClass where
  name : String
  symbols : List Char
deriving DecidableEq, Inhabited, Repr

/-- How tokenization treats a character. -/
inductive SymbolInfo where
  | classified (name : String)
  | whiteDelimiter
  | undefined
deriving DecidableEq, Inhabited, Repr

namespace SymbolInfo

/-- The class of a classified character. -/
def className? : SymbolInfo → Option String
  | .classified name => some name
  | .whiteDelimiter => none
  | .undefined => none

end SymbolInfo

namespace SymbolClass

/-- Replaces the first class of that name where it stands, or adds a last one. -/
def replace (name : String) (symbols : List Char) : List SymbolClass → List SymbolClass
  | [] => [⟨name, symbols⟩]
  | c :: rest => if c.name = name then ⟨name, symbols⟩ :: rest else c :: replace name symbols rest

/-- The first class that has the character. -/
def firstWith (classes : List SymbolClass) (c : Char) : Option SymbolClass :=
  classes.find? (fun k => k.symbols.contains c)

end SymbolClass

structure ClassTable where
  symbolClasses : List SymbolClass
  tokenClasses : TokenClassMap
  whiteDelimiters : List Char
  unclassifiedName : String
  undefinedName : String
deriving DecidableEq, Inhabited

namespace ClassTable

/-- A table without symbol classes, with the two token classes every grammar has. -/
def ofNames (unclassifiedName undefinedName : String) (whiteDelimiters : List Char) :
    ClassTable where
  symbolClasses := []
  tokenClasses :=
    (TokenClassMap.empty.insert unclassifiedName .unclassified).insert undefinedName .undefined
  whiteDelimiters := whiteDelimiters
  unclassifiedName := unclassifiedName
  undefinedName := undefinedName

def classSymbols? (t : ClassTable) (name : String) : Option (List Char) :=
  (t.symbolClasses.find? (fun k => k.name == name)).map (·.symbols)

def setClass (t : ClassTable) (name : String) (symbols : List Char) : ClassTable :=
  { t with symbolClasses := SymbolClass.replace name symbols t.symbolClasses }

/-- Gives the character a class of its own, named by the character. -/
def setSingleton (t : ClassTable) (c : Char) : ClassTable := t.setClass (String.singleton c) [c]

/-- The first class with the character decides; a character in no class is a white delimiter or
undefined. -/
def symbolInfo (t : ClassTable) (c : Char) : SymbolInfo :=
  match SymbolClass.firstWith t.symbolClasses c with
  | some k => .classified k.name
  | none => if t.whiteDelimiters.contains c then .whiteDelimiter else .undefined

end ClassTable

end Syntagma
