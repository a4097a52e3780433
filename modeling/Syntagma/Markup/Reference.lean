import Syntagma.Markup.Character

/-! Character references, line ends and the white space of attribute values. A document type is
never read, so the only entities are the five that every document has. -/

namespace Syntagma.Markup

/-- The value of a digit in a base up to sixteen. -/
def digitValue (c : Char) : Nat :=
  if c.isDigit then c.toNat - 48 else if c.isUpper then c.toNat - 55 else c.toNat - 87

def numberValue (base : Nat) (digits : List Char) : Nat :=
  digits.foldl (fun n c => n * base + digitValue c) 0

def isHexDigit (c : Char) : Bool :=
  c.isDigit || ('a' ≤ c && c ≤ 'f') || ('A' ≤ c && c ≤ 'F')

/-- The character with that code. A code below 2 ^ 32 that belongs to no character stands for
the replacement character. -/
def charOfCode? (base : Nat) (digits : List Char) : Option Char :=
  let n := numberValue base digits
  let c := if n.isValidChar then Char.ofNat n else Char.ofNat 0xFFFD
  if digits.isEmpty || 0x100000000 ≤ n || !isDocumentChar c then none else some c

def entity? (name : List Char) : Option Char :=
  if name = "quot".toList then some '"'
  else if name = "amp".toList then some '&'
  else if name = "apos".toList then some '\x27'
  else if name = "lt".toList then some '<'
  else if name = "gt".toList then some '>'
  else none

/-- Drops the semicolon that ends a reference. -/
def endReference (c : Option Char) : List Char → Option (Char × List Char)
  | ';' :: rest => c.map (fun c => (c, rest))
  | _ => none

/-- Reads a reference from just behind its ampersand. -/
def reference? : List Char → Option (Char × List Char)
  | '#' :: 'x' :: rest =>
    endReference (charOfCode? 16 (rest.takeWhile isHexDigit)) (rest.dropWhile isHexDigit)
  | '#' :: rest =>
    endReference (charOfCode? 10 (rest.takeWhile (·.isDigit))) (rest.dropWhile (·.isDigit))
  | c :: rest =>
    if isNameStart c then
      endReference (entity? (c :: rest.takeWhile isNameChar)) (rest.dropWhile isNameChar)
    else none
  | [] => none

theorem length_of_endReference {c : Option Char} {l : List Char} {e : Char × List Char}
    (h : endReference c l = some e) : e.2.length < l.length := by
  unfold endReference at h
  split at h
  · obtain ⟨d, _, rfl⟩ := Option.map_eq_some_iff.1 h
    simp
  · simp at h

theorem length_dropWhile_le (p : Char → Bool) (l : List Char) :
    (l.dropWhile p).length ≤ l.length :=
  (List.dropWhile_suffix p).length_le

theorem length_of_reference? {l : List Char} {e : Char × List Char} (h : reference? l = some e) :
    e.2.length < l.length := by
  unfold reference? at h
  split at h
  · exact Nat.lt_of_lt_of_le (length_of_endReference h)
      (Nat.le_succ_of_le (Nat.le_succ_of_le (length_dropWhile_le _ _)))
  · exact Nat.lt_of_lt_of_le (length_of_endReference h)
      (Nat.le_succ_of_le (length_dropWhile_le _ _))
  · split at h
    · exact Nat.lt_of_lt_of_le (length_of_endReference h)
        (Nat.le_succ_of_le (length_dropWhile_le _ _))
    · simp at h
  · simp at h

/-- Adds a character of running text, latest first. A carriage return that waits at the end of
what was read so far becomes a line feed, and a line feed behind it is dropped. -/
def addLineChar (read : List Char) (c : Char) (isLast : Bool) : List Char :=
  match read with
  | '\r' :: earlier =>
    if isLast && c == '\r' then '\n' :: '\n' :: earlier
    else if c == '\n' then '\n' :: earlier
    else c :: '\n' :: earlier
  | _ => if isLast && c == '\r' then '\n' :: read else c :: read

/-- Running text with its references resolved and its line ends normalized. What a reference
stands for, and the one character behind it, is taken as it is. -/
def textOf? (asIs : Bool) (read : List Char) (l : List Char) : Option String :=
  match l with
  | [] => some (String.ofList read.reverse)
  | '&' :: rest =>
    match _h : reference? rest with
    | some (c, rest) => textOf? true (c :: read) rest
    | none => none
  | c :: rest => textOf? false (if asIs then c :: read else addLineChar read c rest.isEmpty) rest
termination_by l.length
decreasing_by
  · exact Nat.lt_succ_of_lt (length_of_reference? ‹_›)
  · simp

/-- The text of a section in which references mean nothing. -/
def sectionText (l : List Char) : String :=
  let rec go (read : List Char) : List Char → String
    | [] => String.ofList read.reverse
    | c :: rest => go (addLineChar read c rest.isEmpty) rest
  go [] l

/-- An attribute value with its references resolved; every other white space character, and
every pair of carriage return and line feed, is one blank. -/
def valueOf? (read : List Char) (l : List Char) : Option String :=
  match l with
  | [] => some (String.ofList read.reverse)
  | '&' :: rest =>
    match _h : reference? rest with
    | some (c, rest) => valueOf? (c :: read) rest
    | none => none
  | '\r' :: '\n' :: rest => valueOf? (' ' :: read) rest
  | c :: rest => valueOf? ((if isSpace c then ' ' else c) :: read) rest
termination_by l.length
decreasing_by
  · exact Nat.lt_succ_of_lt (length_of_reference? ‹_›)
  · simp only [List.length_cons]
    omega
  · simp

end Syntagma.Markup
