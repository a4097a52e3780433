/-! Places in a script, and the tokens a script is cut into. -/

namespace Syntagma

/-- Number of a node in a compiled grammar. -/
abbrev NodeId := Nat

/-- Number of a state in an automaton. -/
abbrev StateId := Nat

/-- Number of a token class; the greatest 32-bit number is kept for unrecognized input. -/
abbrev TokenClassId := UInt32

namespace TokenClassId

/-- The class of terminals outside every defined token. -/
def unclassified : TokenClassId := 0

/-- The class of unrecognized input. -/
def undefined : TokenClassId := 4294967295

def isUndefined (id : TokenClassId) : Bool := id == undefined

def text (id : TokenClassId) : String :=
  if id.isUndefined then "undefined" else toString id.toNat

end TokenClassId

/-- The number with the name of its kind. -/
def TokenClassId.taggedText (id : TokenClassId) : String := "TokenClassId(" ++ id.text ++ ")"

def NodeId.text (id : NodeId) : String := "#" ++ toString id

/-- The number with the name of its kind. -/
def NodeId.taggedText (id : NodeId) : String := "NodeId(" ++ toString id ++ ")"

def StateId.text (id : StateId) : String := "s" ++ toString id

/-- The number with the name of its kind. -/
def StateId.taggedText (id : StateId) : String := "StateId(" ++ toString id ++ ")"

/-- A place in a script: its row, its column with tabs widened, and its character offset, all
counted from zero. -/
structure Position where
  row : Nat
  column : Nat
  offset : Nat
deriving DecidableEq, Inhabited, Repr

namespace Position

def start : Position := ⟨0, 0, 0⟩

/-- Places are counted in words of 64 bits: behind the greatest number comes zero. -/
def word (n : Nat) : Nat := n % 0x10000000000000000

theorem word_of_lt {n : Nat} (h : n < 0x10000000000000000) : word n = n := Nat.mod_eq_of_lt h

/-- The place `n` characters earlier in the same row, or its beginning. -/
def back (p : Position) (n : Nat) : Position := ⟨p.row, p.column - n, p.offset - n⟩

/-- Row and column counted from one. -/
def text (p : Position) : String :=
  toString (word (p.row + 1)) ++ ";" ++ toString (word (p.column + 1))

end Position

/-- A piece of a script. Its `id` is the listed terminal or defined token it matched, and is
missing when the piece was not recognized. -/
structure Token where
  name : String
  id : Option NodeId
  classId : TokenClassId
  position : Position
deriving DecidableEq, Inhabited, Repr

namespace Token

def undefined (name : String) (position : Position) : Token :=
  ⟨name, none, .undefined, position⟩

def isUndefined (t : Token) : Bool := t.id.isNone

/-- The character offset just past the token. -/
def endOffset (t : Token) : Nat := t.position.offset + t.name.length

def text (t : Token) : String := t.name ++ " at (" ++ t.position.text ++ ")"

end Token

end Syntagma
