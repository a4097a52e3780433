import Syntagma.Text.Ranges

/-! The character classes of XML documents. -/

namespace Syntagma.Markup

def isSpace (c : Char) : Bool := c == ' ' || c == '\t' || c == '\n' || c == '\r'

/-- The characters a document may hold. -/
def isDocumentChar (c : Char) : Bool :=
  if c.toNat < 0x20 then isSpace c else c.toNat != 0xFFFE && c.toNat != 0xFFFF

/-- The characters beyond ASCII with which a name may start. -/
def nameStartRanges : List (Nat × Nat) :=
  [(0xC0, 0xD6), (0xD8, 0xF6), (0xF8, 0x2FF), (0x370, 0x37D), (0x37F, 0x1FFF), (0x200C, 0x200D),
    (0x2070, 0x218F), (0x2C00, 0x2FEF), (0x3001, 0xD7FF), (0xF900, 0xFDCF), (0xFDF0, 0xFFFD),
    (0x10000, 0xEFFFF)]

/-- The further characters beyond ASCII that a name may hold. -/
def nameOnlyRanges : List (Nat × Nat) := [(0xB7, 0xB7), (0x300, 0x36F), (0x203F, 0x2040)]

def isNameStart (c : Char) : Bool :=
  if c.toNat < 0x80 then c.isAlpha || c == ':' || c == '_' else Text.inRanges nameStartRanges c

def isNameChar (c : Char) : Bool :=
  if c.toNat < 0x80 then c.isAlphanum || c == ':' || c == '_' || c == '-' || c == '.'
  else Text.inRanges nameStartRanges c || Text.inRanges nameOnlyRanges c

theorem isNameChar_of_isNameStart {c : Char} (h : isNameStart c = true) : isNameChar c = true := by
  unfold isNameStart at h
  unfold isNameChar
  split
  next hc =>
    simp only [hc, ↓reduceIte, Bool.or_eq_true] at h
    rcases h with (h | h) | h <;> simp [h, Char.isAlphanum]
  next hc =>
    simp only [hc, ↓reduceIte] at h
    simp [h]

end Syntagma.Markup
