/-! Numbers with a fixed count of decimal places. A quotient is first rounded to a binary number
of 53 digits and then to the places shown; both roundings are to the nearest, a half to the even
neighbour. -/

namespace Syntagma.Text

/-- The whole number nearest to a quotient; of two equally near ones the even one. -/
def roundedQuotient (num den : Nat) : Nat :=
  let q := num / den
  let r := num % den
  if den < 2 * r ∨ (den = 2 * r ∧ q % 2 = 1) then q + 1 else q

/-- The rounded quotient is at most half a unit away from the quotient. -/
theorem roundedQuotient_near {num den : Nat} (h : 0 < den) :
    2 * num ≤ 2 * den * roundedQuotient num den + den ∧
      2 * den * roundedQuotient num den ≤ 2 * num + den := by
  have hq := Nat.div_add_mod num den
  have hr := Nat.mod_lt num h
  unfold roundedQuotient
  simp only
  generalize num / den = q at *
  generalize num % den = r at *
  have hm : 2 * den * (q + 1) = 2 * (den * q) + 2 * den := by
    rw [Nat.mul_add, Nat.mul_one, Nat.mul_assoc]
  have hm' : 2 * den * q = 2 * (den * q) := Nat.mul_assoc _ _ _
  split
  · omega
  · omega

/-- The number of 53 binary digits nearest to a quotient that is at least one, as a quotient. -/
def binaryQuotient (num den : Nat) : Nat × Nat :=
  let excess := Nat.log2 (num / den)
  let up := Nat.pow 2 (52 - excess)
  let down := Nat.pow 2 (excess - 52)
  (roundedQuotient (num * up) (den * down) * down, up)

/-- Fills a text up on the left. -/
def padLeft (width : Nat) (fill : Char) (text : String) : String :=
  String.ofList (List.leftpad width fill text.toList)

/-- Fills a text up on the right. -/
def padRight (width : Nat) (fill : Char) (text : String) : String :=
  String.ofList (List.rightpad width fill text.toList)

theorem toList_padRight {width : Nat} {fill : Char} {text : String} :
    (padRight width fill text).toList =
      text.toList ++ List.replicate (width - text.toList.length) fill := by
  simp [padRight, List.rightpad]

/-- A number given in thousandths. -/
def thousandthsText (n : Nat) : String :=
  toString (n / 1000) ++ "." ++ padLeft 3 '0' (toString (n % 1000))

/-- The quotient of a whole number by `unit`, which is at most as large, with three places. -/
def quotientText (n unit : Nat) : String :=
  let (num, den) := binaryQuotient n 1
  let (num, den) := binaryQuotient num (den * unit)
  thousandthsText (roundedQuotient (1000 * num) den)

end Syntagma.Text
