import Syntagma.Text.Joining
import Syntagma.Text.Printable

/-! A character between apostrophes, as a programmer would write it. -/

namespace Syntagma.Text

/-- The number in lower-case hexadecimal digits. -/
def hexText (n : Nat) : String := String.ofList (Nat.toDigits 16 n)

/-- The half-width sound marks of kana join the character before them, but can be seen without
one. -/
def standsAlone (c : Char) : Bool := c.toNat == 0xFF9E || c.toNat == 0xFF9F

/-- Whether a character is seen between apostrophes. -/
def isShown (c : Char) : Bool := isPrintable c && (!isJoining c || standsAlone c)

/-- Control characters with a letter of their own, the apostrophe and the backslash are escaped;
a character that is not seen is written by its code point. -/
def escapedChar (c : Char) : String :=
  if c = '\x00' then "\\0"
  else if c = '\t' then "\\t"
  else if c = '\r' then "\\r"
  else if c = '\n' then "\\n"
  else if c = '\x27' then "\\'"
  else if c = '\\' then "\\\\"
  else if isShown c then String.singleton c
  else "\\u\x7b" ++ hexText c.toNat ++ "\x7d"

def quotedChar (c : Char) : String := "'" ++ escapedChar c ++ "'"

end Syntagma.Text
