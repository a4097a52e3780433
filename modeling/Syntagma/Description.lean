/-! Grammar descriptions: a tree of definitions as its author wrote it. -/

namespace Syntagma

/-- What a definition declares. -/
inductive DefinitionKind where
  /-- A symbol class with the key that tokenization uses and its characters. -/
  | symbolClass (key : String) (symbols : String)
  /-- A token, recognized by the lexer as a whole. -/
  | token (className : String) (execClass : Option String)
  | medium
deriving DecidableEq, Inhabited, Repr

/-- A literal with what later stages are told about it. -/
structure TerminalSpec where
  text : String
  execClass : Option String
  streamers : List String
  breakers : List String
  streamMaxCount : Option UInt32
  operatorPriority : Option UInt32
deriving DecidableEq, Inhabited, Repr

mutual

/-- A definition with its alternatives, each a sequence of elements. -/
inductive Definition where
  | mk (name : String) (kind : DefinitionKind) (cases : List (List CaseElement))

/-- What a case is made of. -/
inductive CaseElement where
  | reference (name : String)
  | terminal (spec : TerminalSpec)
  | definition (definition : Definition)

end

namespace Definition

def name : Definition → String
  | .mk name _ _ => name

def kind : Definition → DefinitionKind
  | .mk _ kind _ => kind

def cases : Definition → List (List CaseElement)
  | .mk _ _ cases => cases

end Definition

structure GrammarDescription where
  unclassifiedName : String
  undefinedName : String
  whiteDelimiters : List Char
  axiomDefinition : Definition

end Syntagma
