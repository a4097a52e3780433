/-! What an XML document holds. -/

namespace Syntagma.Markup

/-- An attribute with the namespace its prefix stands for; without a prefix it has none. -/
structure Attribute where
  space : Option String
  name : String
  value : String
deriving DecidableEq, Inhabited, Repr

/-- An element with its name less the prefix, a run of text, or a comment or processing
instruction, of which only the place matters. -/
inductive Content where
  | element (name : String) (attributes : List Attribute) (children : List Content)
  | text (text : String)
  | aside

instance : Inhabited Content := ⟨.aside⟩

/-- An element by itself. -/
structure Element where
  name : String
  attributes : List Attribute
  children : List Content
deriving Inhabited

namespace Element

def ofContent? : Content → Option Element
  | .element name attributes children => some ⟨name, attributes, children⟩
  | _ => none

def elements (e : Element) : List Element := e.children.filterMap ofContent?

/-- The value of the attribute of that name without a namespace. -/
def attribute? (e : Element) (name : String) : Option String :=
  (e.attributes.find? (fun a => a.space.isNone && a.name == name)).map (·.value)

/-- The text of an element is its first child, if that is text. -/
def text? (e : Element) : Option String :=
  match e.children with
  | .text text :: _ => some text
  | _ => none

end Element

end Syntagma.Markup
