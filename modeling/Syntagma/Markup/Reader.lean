import Syntagma.Markup.Name
import Syntagma.Markup.Reference

/-! Reading an XML document without a document type. Reading fails on the first thing that is
not well formed; a run of text and the sections next to it are one text. -/

namespace Syntagma.Markup

def skipSpaces (l : List Char) : List Char := l.dropWhile isSpace

def startsWithSpace (l : List Char) : Bool := l.head?.any isSpace

/-- Drops a text that must come next. -/
def expect? (text : String) (l : List Char) : Option (List Char) :=
  if text.toList.isPrefixOf l then some (l.drop text.length) else none

/-- What stands before the next occurrence of `mark`, and what stands behind it. -/
def upTo? (mark : List Char) : List Char → Option (List Char × List Char)
  | [] => none
  | c :: rest =>
    if mark.isPrefixOf (c :: rest) then some ([], (c :: rest).drop mark.length)
    else if isDocumentChar c then (upTo? mark rest).map (fun e => (c :: e.1, e.2))
    else none

/-- Whether a list of characters stands somewhere inside another. -/
def occursIn (text : List Char) : List Char → Bool
  | [] => text.isEmpty
  | c :: rest => text.isPrefixOf (c :: rest) || occursIn text rest

/-! ### Attributes -/

/-- Reads an equals sign and a quoted value, and gives the value as written. -/
def quotedValue? (l : List Char) : Option (List Char × List Char) := do
  let l ← expect? "=" (skipSpaces l)
  match skipSpaces l with
  | quote :: l =>
    if quote != '"' && quote != '\x27' then none
    else
      let value := l.takeWhile (fun c => c != quote && c != '<' && isDocumentChar c)
      match l.drop value.length with
      | c :: rest => if c == quote then some (value, rest) else none
      | [] => none
  | [] => none

/-- How a tag ends. -/
inductive TagEnd where
  | opening
  | empty
deriving DecidableEq, Inhabited, Repr

/-- Reads at most `limit` attributes and the end of the tag. An attribute stands behind white
space. -/
def attributes? : Nat → List Char → Option (List RawAttribute × TagEnd × List Char)
  | 0, _ => none
  | limit + 1, l =>
    match skipSpaces l with
    | '/' :: '>' :: rest => some ([], .empty, rest)
    | '>' :: rest => some ([], .opening, rest)
    | c :: rest =>
      if !startsWithSpace l then none
      else do
        let (key, l) ← qualifiedName? (c :: rest)
        let (written, l) ← quotedValue? l
        let value ← valueOf? [] written
        let (more, tagEnd, l) ← attributes? limit l
        return (⟨key, value⟩ :: more, tagEnd, l)
    | [] => none

/-! ### Comments and instructions -/

/-- Reads a comment from behind its opening mark. -/
def comment? (l : List Char) : Option (List Char) := do
  let (text, rest) ← upTo? "-->".toList l
  if occursIn "--".toList text || text.getLast? == some '-' then none else some rest

/-- Reads a processing instruction from behind its opening mark. -/
def instruction? (l : List Char) : Option (List Char) :=
  if "xml ".toList.isPrefixOf l || !l.head?.any isNameStart then none
  else (upTo? "?>".toList (skipSpaces (l.dropWhile isNameChar))).map (·.2)

/-- Skips comments, processing instructions and white space between them, at most `limit`. -/
def asides? : Nat → List Char → Option (List Char)
  | 0, _ => none
  | limit + 1, l =>
    let l := skipSpaces l
    if "<!--".toList.isPrefixOf l then (comment? (l.drop 4)).bind (asides? limit)
    else if "<?".toList.isPrefixOf l then (instruction? (l.drop 2)).bind (asides? limit)
    else some l

/-- Reads one attribute of the declaration of the document, if it comes next. -/
def declarationItem? (name : String) (l : List Char) : Option (List Char) :=
  if name.toList.isPrefixOf l then do
    let (_, l) ← qualifiedName? l
    let (_, l) ← quotedValue? l
    return l
  else some l

/-- Skips the white space that must stand between the items of the declaration. -/
def betweenItems? (l : List Char) : Option (List Char) :=
  if startsWithSpace l then some (skipSpaces l)
  else if "?>".toList.isPrefixOf l || l.isEmpty then some l
  else none

/-- Skips the declaration of the document, if there is one. -/
def declaration? (l : List Char) : Option (List Char) :=
  if "<?xml ".toList.isPrefixOf l then do
    let l := skipSpaces (l.drop 5)
    if !"version".toList.isPrefixOf l then none
    else do
      let l ← (declarationItem? "version" l).bind betweenItems?
      let l ← if "encoding".toList.isPrefixOf l
        then (declarationItem? "encoding" l).bind betweenItems? else some l
      let l ← declarationItem? "standalone" l
      expect? "?>" (skipSpaces l)
  else some l

/-! ### Elements -/

/-- An element whose end tag was not read yet; its children are the latest first. -/
structure OpenElement where
  key : QualifiedName
  attributes : List Attribute
  scope : Scope
  children : List Content

namespace OpenElement

/-- Adds a child. Two texts next to each other are one. -/
def add (e : OpenElement) (c : Content) : OpenElement :=
  match c, e.children with
  | .text new, .text old :: earlier => { e with children := .text (old ++ new) :: earlier }
  | _, _ => { e with children := c :: e.children }

def toContent (e : OpenElement) : Content := .element e.key.name e.attributes e.children.reverse

end OpenElement

/-- Reads a start tag from behind its opening mark, inside the scope given. -/
def startTag? (scope : Scope) (l : List Char) : Option (OpenElement × TagEnd × List Char) := do
  let (key, l) ← qualifiedName? l
  let (attributes, tagEnd, l) ← attributes? (l.length + 1) l
  let own ← attributes.foldlM declare? []
  let scope := own ++ scope
  let resolved ← resolve? scope (attributes.filter (fun a => !a.isDeclaration))
  if elementSpaceKnown scope key.space then some (⟨key, resolved, scope, []⟩, tagEnd, l) else none

/-- Reads an end tag from behind its opening mark. -/
def endTag? (l : List Char) : Option (QualifiedName × List Char) := do
  let (key, l) ← qualifiedName? l
  let l ← expect? ">" (skipSpaces l)
  return (key, l)

/-- Reads a run of text up to the next tag. -/
def run? (l : List Char) : Option (Content × List Char) := do
  let written := l.takeWhile (· != '<')
  if !written.all isDocumentChar || occursIn "]]>".toList written then none
  else
    let text ← textOf? false [] written
    return (.text text, l.drop written.length)

/-- Reads what stands inside the element `current`, up to its end tag, in at most `limit` steps;
`outer` are the elements around it, innermost first. -/
def content? : Nat → OpenElement → List OpenElement → List Char → Option (Content × List Char)
  | 0, _, _, _ => none
  | limit + 1, current, outer, l =>
    if "<!--".toList.isPrefixOf l then do
      let l ← comment? (l.drop 4)
      content? limit (current.add .aside) outer l
    else if "<![CDATA[".toList.isPrefixOf l then do
      let (text, l) ← upTo? "]]>".toList (l.drop 9)
      content? limit (current.add (.text (sectionText text))) outer l
    else if "<?".toList.isPrefixOf l then do
      let l ← instruction? (l.drop 2)
      content? limit (current.add .aside) outer l
    else if "</".toList.isPrefixOf l then do
      let (key, l) ← endTag? (l.drop 2)
      if key != current.key then none
      else match outer with
        | [] => return (current.toContent, l)
        | parent :: outer => content? limit (parent.add current.toContent) outer l
    else if l.head? == some '<' then do
      let (e, tagEnd, l) ← startTag? current.scope (l.drop 1)
      match tagEnd with
      | .empty => content? limit (current.add e.toContent) outer l
      | .opening => content? limit e (current :: outer) l
    else if l.isEmpty then none
    else do
      let (text, l) ← run? l
      content? limit (current.add text) outer l

/-- Reads the one element of a document. -/
def rootElement? (l : List Char) : Option (Content × List Char) := do
  let l ← expect? "<" l
  let (e, tagEnd, l) ← startTag? [] l
  match tagEnd with
  | .empty => return (e.toContent, l)
  | .opening => content? (l.length + 1) e [] l

/-- Reads a document and gives its element. Each step of a loop takes at least one character, so
the length of the text bounds them all. -/
def document? (text : String) : Option Element := do
  let l := text.toList
  let l := if l.head? == some '\uFEFF' then l.drop 1 else l
  let l ← declaration? l
  let l ← asides? (l.length + 1) l
  let (content, l) ← rootElement? l
  let l ← asides? (l.length + 1) l
  if l.isEmpty then Element.ofContent? content else none

end Syntagma.Markup
