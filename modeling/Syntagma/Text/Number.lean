/-! Decimal numbers as users write them: digits, with a plus sign in front if they like. -/

namespace Syntagma.Text

def decimalValue (digits : List Char) : Nat :=
  digits.foldl (fun n c => n * 10 + (c.toNat - 48)) 0

def unsigned? (digits : List Char) : Option Nat :=
  if digits.isEmpty || !digits.all (·.isDigit) then none else some (decimalValue digits)

/-- The number below `bound` that the text stands for. -/
def numberBelow? (bound : Nat) (text : List Char) : Option Nat :=
  let digits := match text with
    | '+' :: rest => rest
    | _ => text
  match unsigned? digits with
  | some n => if n < bound then some n else none
  | none => none

end Syntagma.Text
