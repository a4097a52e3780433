import Syntagma.Description
import Syntagma.Fault
import Syntagma.Markup.Reader
import Syntagma.Text.Blank
import Syntagma.Text.Number

/-! Reading a grammar description from XML. The root is `g` and holds one definition. In a
definition `d` each `c` is a case; in a case `n` refers to a definition, `t` is a terminal and
`d` a definition of its own. -/

namespace Syntagma

open Markup (Content)

namespace Description

def required (e : Markup.Element) (name : String) : Except Fault String :=
  match e.attribute? name with
  | some value => .ok value
  | none => .error (.malformed (.missingAttribute e.name name))

/-- White delimiters may be written as `\t`, `\n` and `\r`. The three are replaced one after
another, each over the whole text. -/
def unescape (code result : Char) : List Char → List Char
  | '\\' :: c :: rest =>
    if c = code then result :: unescape code result rest
    else '\\' :: unescape code result (c :: rest)
  | c :: rest => c :: unescape code result rest
  | [] => []

def unescapeDelimiters (written : String) : List Char :=
  unescape 'r' '\r' (unescape 'n' '\n' (unescape 't' '\t' written.toList))

/-- The parts between the bars; no attribute has no parts, and an empty one has one. -/
def splitBars (value : Option String) : List String :=
  match value with
  | some text => (text.toList.splitOn '|').map String.ofList
  | none => []

/-- A number below 2 ^ 32, with white space around it ignored. -/
def number (e : Markup.Element) (name : String) : Except Fault (Option UInt32) :=
  match e.attribute? name with
  | none => .ok none
  | some value =>
    match Text.numberBelow? 0x100000000 (Text.trim value.toList) with
    | some n => .ok (some (UInt32.ofNat n))
    | none => .error (.malformed (.notANumber name value))

def terminalSpec (e : Markup.Element) : Except Fault TerminalSpec := do
  let streamMaxCount ← number e "stream-max-count"
  let operatorPriority ← number e "operator-priority"
  return {
    text := e.text?.getD ""
    execClass := (e.attribute? "exec-class").filter (· != "")
    streamers := splitBars (e.attribute? "streamers")
    breakers := splitBars (e.attribute? "breakers")
    streamMaxCount := streamMaxCount
    operatorPriority := operatorPriority }

/-- What the attributes of a definition make it. The characters of a class are the text of its
first `cta` element. -/
def definitionKind (e : Markup.Element) (name : String) : Except Fault DefinitionKind :=
  match e.attribute? "symbol-class", e.attribute? "token-class" with
  | some key, _ =>
    match (e.elements.find? (fun c => c.name == "cta")).bind (·.text?) with
    | some symbols => .ok (.symbolClass key symbols)
    | none => .error (.malformed (.classWithoutSymbols name))
  | none, some className => .ok (.token className (e.attribute? "exec-class"))
  | none, none => .ok .medium

/-- Reads a `d` element whose cases are read by `cases`, which is told the definition's name. -/
def definitionWith (e : Markup.Element) (cases : String → Except Fault (List (List CaseElement))) :
    Except Fault Definition := do
  let name ← required e "name"
  let kind ← definitionKind e name
  let cases ← cases name
  return .mk name kind cases

/-- Reads an element of a case that is no definition. -/
def leaf (e : Markup.Element) : Except Fault CaseElement :=
  if e.name = "n" then .ok (.reference (e.text?.getD ""))
  else if e.name = "t" then (terminalSpec e).map .terminal
  else .error (.malformed (.unsupportedElement e.name))

mutual

/-- Reads the `c` elements among the children of the definition `owner`. -/
def casesOf (owner : String) : List Content → Except Fault (List (List CaseElement))
  | [] => .ok []
  | .element name _ children :: rest =>
    if name = "c" then do
      let case ← sequence owner children
      let cases ← casesOf owner rest
      return case :: cases
    else casesOf owner rest
  | _ :: rest => casesOf owner rest
termination_by l => sizeOf l
decreasing_by
  all_goals simp only [List.cons.sizeOf_spec, Content.element.sizeOf_spec]
  all_goals omega

/-- Reads the elements of a case of the definition `owner`. -/
def sequence (owner : String) : List Content → Except Fault (List CaseElement)
  | [] => .ok []
  | .element name attributes children :: rest => do
    let e : Markup.Element := ⟨name, attributes, children⟩
    let first ← (if name = "d"
      then (definitionWith e (fun owner => casesOf owner children)).map .definition
      else leaf e).mapError (·.enclosedBy owner)
    let others ← sequence owner rest
    return first :: others
  | _ :: rest => sequence owner rest
termination_by l => sizeOf l
decreasing_by
  all_goals simp only [List.cons.sizeOf_spec, Content.element.sizeOf_spec]
  all_goals omega

end

def definition (e : Markup.Element) : Except Fault Definition :=
  definitionWith e (fun owner => casesOf owner e.children)

end Description

namespace GrammarDescription

open Description

def ofElement (root : Markup.Element) : Except Fault GrammarDescription := do
  if root.name != "g" then throw (.malformed (.rootElement root.name))
  let unclassifiedName ← required root "unclassified-token-class-name"
  let undefinedName ← required root "unsupported-token-class-name"
  match root.elements with
  | [] => throw (.malformed .noDefinition)
  | first :: others =>
    if first.name != "d" then throw (.malformed (.unsupportedElement first.name))
    match others with
    | extra :: _ => throw (.malformed (.extraDefinition extra.name))
    | [] =>
      let axiomDefinition ← definition first
      return {
        unclassifiedName := unclassifiedName
        undefinedName := undefinedName
        whiteDelimiters :=
          unescapeDelimiters ((root.attribute? "white-delimiters").getD " \\t\\n\\r")
        axiomDefinition := axiomDefinition }

/-- Reads a description from the text of an XML document. -/
def ofXml (text : String) : Except Fault GrammarDescription :=
  match Markup.document? text with
  | some root => ofElement root
  | none => .error (.malformed .markup)

end GrammarDescription

end Syntagma
