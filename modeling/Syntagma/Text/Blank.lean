/-! White space in the sense of the Unicode property `White_Space`, and texts made of nothing
else. -/

namespace Syntagma.Text

/-- The characters with the property `White_Space`. -/
def isBlank (c : Char) : Bool :=
  let n := c.toNat
  (9 ≤ n && n ≤ 13) || n == 0x20 || n == 0x85 || n == 0xA0 || n == 0x1680 ||
    (0x2000 ≤ n && n ≤ 0x200A) || n == 0x2028 || n == 0x2029 || n == 0x202F || n == 0x205F ||
    n == 0x3000

theorem isBlank_of_isWhitespace {c : Char} (h : c.isWhitespace = true) : isBlank c = true := by
  simp only [Char.isWhitespace, Bool.or_eq_true, decide_eq_true_eq] at h
  rcases h with ((h | h) | h) | h <;> subst h <;> rfl

/-- Whether a text has no character but white space. -/
def isBlankText (s : String) : Bool := s.toList.all isBlank

/-- Drops the white space at both ends. -/
def trim (cs : List Char) : List Char :=
  ((cs.dropWhile isBlank).reverse.dropWhile isBlank).reverse

theorem trim_eq_nil_iff (cs : List Char) : trim cs = [] ↔ cs.all isBlank = true := by
  have h : ∀ l : List Char, l.dropWhile isBlank = [] ↔ l.all isBlank = true := by
    intro l
    induction l with
    | nil => simp
    | cons c r ih => by_cases hc : isBlank c = true <;> simp [hc, ih]
  rw [trim, List.reverse_eq_nil_iff, h, List.all_reverse, ← h, ← h]
  constructor
  · intro hd
    cases hl : cs.dropWhile isBlank with
    | nil => rfl
    | cons c r =>
      have hc := List.head_dropWhile_not isBlank (l := cs) (by simp [hl])
      simp only [hl, List.head_cons] at hc
      rw [hl, List.dropWhile_cons, hc] at hd
      simp at hd
  · intro hd
    rw [hd]
    rfl

def trimText (s : String) : String := String.ofList (trim s.toList)

end Syntagma.Text
