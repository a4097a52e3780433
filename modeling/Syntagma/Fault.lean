/-! The ways in which a grammar can be unusable, an analysis can give up, and stored artifacts
or files can fail to be read. -/

namespace Syntagma

/-- What is wrong with a grammar description. -/
inductive Malformation where
  | markup
  | rootElement (found : String)
  | missingAttribute (element name : String)
  | noDefinition
  | extraDefinition (found : String)
  | unsupportedElement (found : String)
  | classWithoutSymbols (name : String)
  | notANumber (name value : String)
  | duplicateDefinition (name : String)
  | classOutsideToken (name : String)
  | axiomNotMedium (name : String)
  | other (text : String)
deriving DecidableEq, Inhabited, Repr

def Malformation.message : Malformation → String
  | .markup => "invalid XML"
  | .rootElement found => "root element must be 'g', found '" ++ found ++ "'"
  | .missingAttribute element name =>
    "element '" ++ element ++ "' is missing attribute '" ++ name ++ "'"
  | .noDefinition => "grammar has no top-level definition"
  | .extraDefinition found =>
    "grammar must have exactly one top-level definition, found extra '" ++ found ++ "'"
  | .unsupportedElement found => "unsupported tag '" ++ found ++ "' was found in grammar"
  | .classWithoutSymbols name => "class '" ++ name ++ "' has no 'cta' element"
  | .notANumber name value =>
    "attribute '" ++ name ++ "' is not a number: '" ++ value ++ "'"
  | .duplicateDefinition name => "node '" ++ name ++ "' is defined more than once"
  | .classOutsideToken name => "class '" ++ name ++ "' is used outside a defined token"
  | .axiomNotMedium name => "axiom '" ++ name ++ "' must be a medium"
  | .other text => text

inductive FaultKind where
  | undefinedReference (name : String)
  | conflictingExecClass (terminal existing requested : String)
  | noBaseCase (medium : String)
  | leftRecursionInToken (token : String)
  | ambiguousState (existing requested : String)
  | nonRegularLoop (medium key : String)
  | selfInclusion (medium : String)
  | malformedGrammar (cause : Malformation)
  | depthExceeded (limit : Nat)
  | undecodable
  | serialization (problem : String)
  | io (problem : String)
  | internal (problem : String)
deriving DecidableEq, Inhabited, Repr

def FaultKind.message : FaultKind → String
  | .undefinedReference name => "node '" ++ name ++ "' is referenced before it is defined"
  | .conflictingExecClass terminal existing requested =>
    "terminal '" ++ terminal ++ "' has conflicting exec classes '" ++ existing ++ "' and '" ++
      requested ++ "'"
  | .noBaseCase medium =>
    "medium '" ++ medium ++ "' is left-recursive and has no non-recursive case"
  | .leftRecursionInToken token => "defined token '" ++ token ++ "' contains left recursion"
  | .ambiguousState existing requested =>
    "ambiguous state: '" ++ existing ++ "' and '" ++ requested ++ "' end at the same place"
  | .nonRegularLoop medium key =>
    "looped state already defines transition '" ++ key ++ "' (medium '" ++ medium ++ "')"
  | .selfInclusion medium =>
    "medium '" ++ medium ++ "' cannot be followed by other symbols inside a defined token"
  | .malformedGrammar cause => "malformed grammar: " ++ cause.message
  | .depthExceeded limit => "syntax analysis exceeded the maximum depth of " ++ toString limit
  | .undecodable => "serialization error"
  | .serialization problem => "serialization error: " ++ problem
  | .io problem => "I/O error: " ++ problem
  | .internal problem => "internal error: " ++ problem

/-- Where a fault arose: the file, and the definitions around the place, innermost first. -/
structure FaultContext where
  source : Option String
  frames : List String
deriving DecidableEq, Inhabited, Repr

namespace FaultContext

def empty : FaultContext := ⟨none, []⟩

/-- Adds the next definition outward. -/
def enclosedBy (c : FaultContext) (name : String) : FaultContext :=
  { c with frames := c.frames ++ [name] }

def text (c : FaultContext) : String :=
  let place := match c.source with
    | some source => "at " ++ source
    | none => ""
  if c.frames.isEmpty then place
  else place ++ "\n" ++ String.join (c.frames.map (fun frame => "  in " ++ frame ++ "\n"))

end FaultContext

structure Fault where
  kind : FaultKind
  context : Option FaultContext
deriving DecidableEq, Inhabited, Repr

namespace Fault

def of (kind : FaultKind) : Fault := ⟨kind, none⟩

def malformed (cause : Malformation) : Fault := of (.malformedGrammar cause)

def message (f : Fault) : String := f.kind.message

/-- Adds the next definition outward to the context, which is made if there is none. -/
def enclosedBy (f : Fault) (name : String) : Fault :=
  { f with context := some ((f.context.getD .empty).enclosedBy name) }

def fromSource (f : Fault) (path : String) : Fault :=
  { f with context := some { f.context.getD .empty with source := some path } }

end Fault

end Syntagma
