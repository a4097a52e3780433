import Syntagma.Markup.Character
import Syntagma.Markup.Content

/-! Names with a prefix, and the namespaces that prefixes stand for. -/

namespace Syntagma.Markup

/-- A name as written: the part before the colon, empty if there is none, and the part after. -/
structure QualifiedName where
  space : String
  name : String
deriving DecidableEq, Inhabited, Repr

def startsAsName (l : List Char) : Bool := l.head?.all isNameStart

/-- Reads a name with at most one colon. -/
def qualifiedName? (l : List Char) : Option (QualifiedName × List Char) :=
  let written := l.takeWhile isNameChar
  let (space, name) :=
    if written.contains ':' then
      (written.takeWhile (· != ':'), (written.dropWhile (· != ':')).drop 1)
    else ([], written)
  if name.isEmpty || name.contains ':' || !startsAsName space || !startsAsName name then none
  else some (⟨String.ofList space, String.ofList name⟩, l.dropWhile isNameChar)

/-- An attribute as written, with its value already normalized. -/
structure RawAttribute where
  key : QualifiedName
  value : String
deriving DecidableEq, Inhabited, Repr

/-- Namespaces in scope by prefix, the innermost first; the default one has no prefix. -/
abbrev Scope := List (Option String × String)

def xmlSpace : String := "http://www.w3.org/XML/1998/namespace"

def xmlnsSpace : String := "http://www.w3.org/2000/xmlns/"

/-- Whether an attribute declares a namespace. -/
def RawAttribute.isDeclaration (a : RawAttribute) : Bool :=
  a.key.space == "xmlns" || a.key.name == "xmlns"

/-- Adds what one attribute declares. The two namespaces that every document has are bound to no
other prefix, and no prefix is declared twice. -/
def declare? (own : Scope) (a : RawAttribute) : Option Scope :=
  if a.key.space = "xmlns" then
    if a.value = xmlnsSpace then none
    else if a.key.name = "xml" then (if a.value = xmlSpace then some own else none)
    else if a.value = xmlSpace then none
    else if own.any (fun e => e.1 == some a.key.name) then none
    else some (own ++ [(some a.key.name, a.value)])
  else if a.key.name = "xmlns" then
    if a.value = xmlSpace ∨ a.value = xmlnsSpace then none else some (own ++ [(none, a.value)])
  else some own

def Scope.find? (scope : Scope) (key : Option String) : Option String :=
  (List.find? (fun e => e.1 == key) scope).map (·.2)

/-- The namespace of an attribute: none without a prefix, and an unknown prefix fails. -/
def attributeSpace? (scope : Scope) (space : String) : Option (Option String) :=
  if space = "xml" then some (some xmlSpace)
  else if space = "" then some none
  else (scope.find? (some space)).map some

/-- Resolves the attributes in turn; no two may have one name in one namespace. -/
def resolve? (scope : Scope) (attributes : List RawAttribute) : Option (List Attribute) :=
  attributes.foldlM (fun resolved a => do
    let space ← attributeSpace? scope a.key.space
    if resolved.any (fun b => b.space == space && b.name == a.key.name) then none
    else some (resolved ++ [⟨space, a.key.name, a.value⟩])) []

/-- Whether an element may bear this prefix. -/
def elementSpaceKnown (scope : Scope) (space : String) : Bool :=
  space != "xmlns" && (space == "" || (scope.find? (some space)).isSome)

end Syntagma.Markup
