import Mathlib.Data.Rat.Defs
import Mathlib.Algebra.Order.Field.Rat

/-! What JSON texts say. A text is read from the left: each piece of the grammar takes a part of it
and leaves the rest. White space is passed over as far as it goes, and numbers go on as long as they
can, so that no text can be read in two ways. No character of a text is a control character but the
white space between its pieces. -/

namespace Syntagma.Json

/-- What a text says. The members of an object are kept in their order, also where a name is given
more than once. -/
inductive Value where
  | null
  | bool (b : Bool)
  | number (q : Rat)
  | string (s : String)
  | array (items : List Value)
  | object (members : List (String × Value))

/-! ### White space and numbers -/

def isSpace (c : Char) : Bool := c == ' ' || c == '\t' || c == '\n' || c == '\r'

/-- The text behind white space. -/
def skip (text : List Char) : List Char := text.dropWhile isSpace

def digitsOf (text : List Char) : List Char := text.takeWhile (·.isDigit)

def behindDigits (text : List Char) : List Char := text.dropWhile (·.isDigit)

/-- A whole number has no zero in front of other digits. -/
def whole? (text : List Char) : Option (Rat × List Char) :=
  match digitsOf text with
  | [] => none
  | '0' :: _ :: _ => none
  | digits => some (Nat.ofDigitChars 10 digits 0, behindDigits text)

/-- The places behind a point, if there is one. -/
def fraction? : List Char → Option (Rat × List Char)
  | '.' :: text =>
    match digitsOf text with
    | [] => none
    | digits => some (Nat.ofDigitChars 10 digits 0 / 10 ^ digits.length, behindDigits text)
  | text => some (0, text)

/-- The sign of an exponent. -/
def sign : List Char → Int × List Char
  | '-' :: text => (-1, text)
  | '+' :: text => (1, text)
  | text => (1, text)

/-- The exponent of ten, if there is one. -/
def exponent? : List Char → Option (Int × List Char)
  | c :: text =>
    if c = 'e' ∨ c = 'E' then
      match digitsOf (sign text).2 with
      | [] => none
      | digits => some ((sign text).1 * Nat.ofDigitChars 10 digits 0, behindDigits (sign text).2)
    else some (0, c :: text)
  | [] => some (0, [])

/-- A number without its sign. -/
def unsigned? (text : List Char) : Option (Rat × List Char) := do
  let (n, text) ← whole? text
  let (places, text) ← fraction? text
  let (e, text) ← exponent? text
  return ((n + places) * 10 ^ e, text)

def number? : List Char → Option (Rat × List Char)
  | '-' :: text => (unsigned? text).map (fun (q, rest) => (-q, rest))
  | text => unsigned? text

/-! ### Strings -/

/-- A character that may stand for itself in a string. -/
def isPlain (c : Char) : Bool := 0x20 ≤ c.toNat && c != '"' && c != '\\'

/-- The letters that stand behind a backslash, and what for. -/
def letters : List (Char × Char) :=
  [('"', '"'), ('\\', '\\'), ('/', '/'), ('b', '\x08'), ('f', '\x0c'), ('n', '\n'), ('r', '\r'),
    ('t', '\t')]

def hexDigit? (c : Char) : Option Nat :=
  if c.isDigit then some (c.toNat - '0'.toNat)
  else if 'a' ≤ c ∧ c ≤ 'f' then some (c.toNat - 'a'.toNat + 10)
  else if 'A' ≤ c ∧ c ≤ 'F' then some (c.toNat - 'A'.toNat + 10)
  else none

/-- Four hexadecimal digits. -/
def unit? : List Char → Option (Nat × List Char)
  | a :: b :: c :: d :: text => do
    let a ← hexDigit? a
    let b ← hexDigit? b
    let c ← hexDigit? c
    let d ← hexDigit? d
    return (((a * 16 + b) * 16 + c) * 16 + d, text)
  | _ => none

def isHigh (n : Nat) : Bool := 0xD800 ≤ n && n < 0xDC00

def isLow (n : Nat) : Bool := 0xDC00 ≤ n && n < 0xE000

/-- What a string says, from behind its first quotation mark to behind its last one. A character is
given by itself, by a letter, by its code or, beyond the first plane, by two codes. -/
inductive Spells : List Char → List Char → List Char → Prop where
  | close (rest : List Char) : Spells ('"' :: rest) [] rest
  | plain {c : Char} {text s rest : List Char} (hc : isPlain c) (hs : Spells text s rest) :
    Spells (c :: text) (c :: s) rest
  | letter {l c : Char} {text s rest : List Char} (hl : (l, c) ∈ letters)
    (hs : Spells text s rest) : Spells ('\\' :: l :: text) (c :: s) rest
  | code {n : Nat} {text more s rest : List Char} (hn : unit? text = some (n, more))
    (hhigh : ¬isHigh n) (hlow : ¬isLow n) (hs : Spells more s rest) :
    Spells ('\\' :: 'u' :: text) (Char.ofNat n :: s) rest
  | codes {n m : Nat} {text more behind s rest : List Char}
    (hn : unit? text = some (n, '\\' :: 'u' :: more)) (hm : unit? more = some (m, behind))
    (hhigh : isHigh n) (hlow : isLow m) (hs : Spells behind s rest) :
    Spells ('\\' :: 'u' :: text)
      (Char.ofNat (0x10000 + (n - 0xD800) * 0x400 + (m - 0xDC00)) :: s) rest

/-! ### Values -/

/-- What is read: a value, the items of an array, or the members of an object. -/
inductive Part where
  | value
  | items
  | members

/-- A part of a text, what it says, and the text behind it. The items and members of a value that
has some are read up to its closing bracket. -/
inductive Reads : Part → List Char → Value → List Char → Prop where
  | null (rest : List Char) : Reads .value ('n' :: 'u' :: 'l' :: 'l' :: rest) .null rest
  | yes (rest : List Char) : Reads .value ('t' :: 'r' :: 'u' :: 'e' :: rest) (.bool true) rest
  | no (rest : List Char) :
    Reads .value ('f' :: 'a' :: 'l' :: 's' :: 'e' :: rest) (.bool false) rest
  | number {text rest : List Char} {q : Rat} (hq : number? text = some (q, rest)) :
    Reads .value text (.number q) rest
  | string {text s rest : List Char} (hs : Spells text s rest) :
    Reads .value ('"' :: text) (.string (String.ofList s)) rest
  | emptyArray {text rest : List Char} (hend : skip text = ']' :: rest) :
    Reads .value ('[' :: text) (.array []) rest
  | array {text rest : List Char} {v : Value} (hitems : Reads .items (skip text) v rest) :
    Reads .value ('[' :: text) v rest
  | emptyObject {text rest : List Char} (hend : skip text = '\x7d' :: rest) :
    Reads .value ('\x7b' :: text) (.object []) rest
  | object {text rest : List Char} {v : Value} (hmembers : Reads .members (skip text) v rest) :
    Reads .value ('\x7b' :: text) v rest
  | lastItem {text more rest : List Char} {v : Value} (hv : Reads .value text v more)
    (hend : skip more = ']' :: rest) : Reads .items text (.array [v]) rest
  | item {text more behind rest : List Char} {v : Value} {vs : List Value}
    (hv : Reads .value text v more) (hcomma : skip more = ',' :: behind)
    (hvs : Reads .items (skip behind) (.array vs) rest) :
    Reads .items text (.array (v :: vs)) rest
  | lastMember {text name colon more behind rest : List Char} {v : Value}
    (hname : Spells text name colon) (hcolon : skip colon = ':' :: more)
    (hv : Reads .value (skip more) v behind) (hend : skip behind = '\x7d' :: rest) :
    Reads .members ('"' :: text) (.object [(String.ofList name, v)]) rest
  | member {text name colon more behind next rest : List Char} {v : Value}
    {ms : List (String × Value)} (hname : Spells text name colon)
    (hcolon : skip colon = ':' :: more) (hv : Reads .value (skip more) v behind)
    (hcomma : skip behind = ',' :: next) (hms : Reads .members (skip next) (.object ms) rest) :
    Reads .members ('"' :: text) (.object ((String.ofList name, v) :: ms)) rest

/-- A text is a JSON text that says `v`: one value with nothing but white space around it. -/
def Says (text : List Char) (v : Value) : Prop :=
  ∃ rest, Reads .value (skip text) v rest ∧ skip rest = []

/-! ### A text says one thing -/

section Unique

variable {text text' s s' rest rest' : List Char} {c : Char} {q : Rat}

theorem not_mem_letters_u (c : Char) : ('u', c) ∉ letters := by
  simp [letters]

theorem eq_of_mem_letters {l c c' : Char} (h : (l, c) ∈ letters) (h' : (l, c') ∈ letters) :
    c = c' := by
  simp only [letters, List.mem_cons, Prod.mk.injEq, List.not_mem_nil, or_false] at h h'
  rcases h with ⟨rfl, rfl⟩ | ⟨rfl, rfl⟩ | ⟨rfl, rfl⟩ | ⟨rfl, rfl⟩ | ⟨rfl, rfl⟩ | ⟨rfl, rfl⟩ |
    ⟨rfl, rfl⟩ | ⟨rfl, rfl⟩ <;> simpa [eq_comm] using h'

theorem Spells.unique (h : Spells text s rest) (h' : Spells text s' rest') :
    s = s' ∧ rest = rest' := by
  induction h generalizing s' rest' with
  | close rest =>
    cases h' with
    | close => exact ⟨rfl, rfl⟩
    | plain hc _ => exact absurd hc (by decide)
  | plain hc _ ih =>
    cases h' with
    | close => exact absurd hc (by decide)
    | plain _ hs =>
      obtain ⟨rfl, rfl⟩ := ih hs
      exact ⟨rfl, rfl⟩
    | letter _ _ => exact absurd hc (by decide)
    | code _ _ _ _ => exact absurd hc (by decide)
    | codes _ _ _ _ _ => exact absurd hc (by decide)
  | letter hl _ ih =>
    cases h' with
    | plain hc _ => exact absurd hc (by decide)
    | letter hl' hs =>
      obtain rfl := eq_of_mem_letters hl hl'
      obtain ⟨rfl, rfl⟩ := ih hs
      exact ⟨rfl, rfl⟩
    | code _ _ _ _ => exact absurd hl (not_mem_letters_u _)
    | codes _ _ _ _ _ => exact absurd hl (not_mem_letters_u _)
  | code hn hhigh _ _ ih =>
    cases h' with
    | plain hc _ => exact absurd hc (by decide)
    | letter hl _ => exact absurd hl (not_mem_letters_u _)
    | code hn' _ _ hs =>
      cases hn.symm.trans hn'
      obtain ⟨rfl, rfl⟩ := ih hs
      exact ⟨rfl, rfl⟩
    | codes hn' _ hhigh' _ _ =>
      cases hn.symm.trans hn'
      exact absurd hhigh' hhigh
  | codes hn hm hhigh _ _ ih =>
    cases h' with
    | plain hc _ => exact absurd hc (by decide)
    | letter hl _ => exact absurd hl (not_mem_letters_u _)
    | code hn' hhigh' _ _ =>
      cases hn.symm.trans hn'
      exact absurd hhigh hhigh'
    | codes hn' hm' _ _ hs =>
      cases hn.symm.trans hn'
      cases hm.symm.trans hm'
      obtain ⟨rfl, rfl⟩ := ih hs
      exact ⟨rfl, rfl⟩

theorem exists_of_unsigned? (h : unsigned? text = some (q, rest)) :
    ∃ c more, text = c :: more ∧ c.isDigit := by
  obtain ⟨⟨n, more⟩, hn, -⟩ := Option.bind_eq_some_iff.1 h
  cases text with
  | nil => cases hn
  | cons c text =>
    refine ⟨c, text, rfl, ?_⟩
    unfold whole? digitsOf at hn
    by_cases hc : c.isDigit
    · exact hc
    · rw [List.takeWhile_cons_of_neg hc] at hn
      cases hn

/-- A number starts with a minus sign or a digit. -/
theorem exists_of_number? (h : number? text = some (q, rest)) :
    ∃ c more, text = c :: more ∧ (c = '-' ∨ c.isDigit) := by
  unfold number? at h
  split at h
  next more => exact ⟨_, _, rfl, .inl rfl⟩
  next =>
    obtain ⟨c, more, rfl, hc⟩ := exists_of_unsigned? h
    exact ⟨c, more, rfl, .inr hc⟩

theorem not_number? (hc : c ≠ '-') (hd : c.isDigit = false) :
    number? (c :: text) ≠ some (q, rest) := by
  intro h
  obtain ⟨c', more, he, rfl | ho⟩ := exists_of_number? h <;> cases he
  · exact hc rfl
  · exact Bool.false_ne_true (hd.symm.trans ho)

theorem isSpace_of_isDigit (hc : c.isDigit) : isSpace c = false := by
  refine Bool.eq_false_iff.2 (fun hs => ?_)
  simp only [isSpace, Bool.or_eq_true, beq_iff_eq] at hs
  rcases hs with ((rfl | rfl) | rfl) | rfl <;> exact absurd hc (by decide)

/-- What is read does not start with white space or a closing bracket. -/
theorem Reads.exists_head {part : Part} {v : Value} (h : Reads part text v rest) :
    ∃ c more, text = c :: more ∧ isSpace c = false ∧ c ≠ ']' ∧ c ≠ '\x7d' := by
  induction h with
  | number hq =>
    obtain ⟨c, more, rfl, rfl | hc⟩ := exists_of_number? hq
    · exact ⟨_, _, rfl, by decide⟩
    · refine ⟨_, _, rfl, isSpace_of_isDigit hc, ?_, ?_⟩ <;> rintro rfl <;> exact absurd hc (by decide)
  | lastItem _ _ ih => exact ih
  | item _ _ _ ih _ => exact ih
  | _ => exact ⟨_, _, rfl, by decide⟩

theorem Reads.ne_cons_bracket {part : Part} {v : Value} (h : Reads part text v rest) :
    (∀ more, text ≠ ']' :: more) ∧ ∀ more, text ≠ '\x7d' :: more := by
  obtain ⟨c, more, rfl, -, hsquare, hcurly⟩ := h.exists_head
  exact ⟨fun _ he => hsquare (List.cons.inj he).1, fun _ he => hcurly (List.cons.inj he).1⟩

theorem Reads.of_number? {v : Value} (h : Reads .value text v rest')
    (hq : number? text = some (q, rest)) : v = .number q ∧ rest' = rest := by
  cases h with
  | number hq' =>
    cases hq'.symm.trans hq
    exact ⟨rfl, rfl⟩
  | _ => exact absurd hq (not_number? (by decide) (by decide))

/-- What a part of a text says, and where the part ends, is settled by the text. -/
theorem Reads.unique {part : Part} {v v' : Value} (h : Reads part text v rest)
    (h' : Reads part text v' rest') : v = v' ∧ rest = rest' := by
  induction h generalizing v' rest' with
  | null =>
    cases h' with
    | null => exact ⟨rfl, rfl⟩
    | number hq => exact absurd hq (not_number? (by decide) (by decide))
  | yes =>
    cases h' with
    | yes => exact ⟨rfl, rfl⟩
    | number hq => exact absurd hq (not_number? (by decide) (by decide))
  | no =>
    cases h' with
    | no => exact ⟨rfl, rfl⟩
    | number hq => exact absurd hq (not_number? (by decide) (by decide))
  | number hq =>
    obtain ⟨rfl, rfl⟩ := h'.of_number? hq
    exact ⟨rfl, rfl⟩
  | string hs =>
    cases h' with
    | string hs' =>
      obtain ⟨rfl, rfl⟩ := hs.unique hs'
      exact ⟨rfl, rfl⟩
    | number hq => exact absurd hq (not_number? (by decide) (by decide))
  | emptyArray hend =>
    cases h' with
    | emptyArray hend' =>
      cases hend.symm.trans hend'
      exact ⟨rfl, rfl⟩
    | array hitems => exact absurd hend (hitems.ne_cons_bracket.1 _)
    | number hq => exact absurd hq (not_number? (by decide) (by decide))
  | array hitems ih =>
    cases h' with
    | emptyArray hend => exact absurd hend (hitems.ne_cons_bracket.1 _)
    | array hitems' => exact ih hitems'
    | number hq => exact absurd hq (not_number? (by decide) (by decide))
  | emptyObject hend =>
    cases h' with
    | emptyObject hend' =>
      cases hend.symm.trans hend'
      exact ⟨rfl, rfl⟩
    | object hmembers => exact absurd hend (hmembers.ne_cons_bracket.2 _)
    | number hq => exact absurd hq (not_number? (by decide) (by decide))
  | object hmembers ih =>
    cases h' with
    | emptyObject hend => exact absurd hend (hmembers.ne_cons_bracket.2 _)
    | object hmembers' => exact ih hmembers'
    | number hq => exact absurd hq (not_number? (by decide) (by decide))
  | lastItem _ hend ih =>
    cases h' with
    | lastItem hv hend' =>
      obtain ⟨rfl, rfl⟩ := ih hv
      cases hend.symm.trans hend'
      exact ⟨rfl, rfl⟩
    | item hv hcomma _ =>
      obtain ⟨rfl, rfl⟩ := ih hv
      cases hend.symm.trans hcomma
  | item _ hcomma _ ihv ihvs =>
    cases h' with
    | lastItem hv hend =>
      obtain ⟨rfl, rfl⟩ := ihv hv
      cases hcomma.symm.trans hend
    | item hv hcomma' hvs =>
      obtain ⟨rfl, rfl⟩ := ihv hv
      cases hcomma.symm.trans hcomma'
      obtain ⟨he, rfl⟩ := ihvs hvs
      cases he
      exact ⟨rfl, rfl⟩
  | lastMember hname hcolon _ hend ih =>
    cases h' with
    | lastMember hname' hcolon' hv hend' =>
      obtain ⟨rfl, rfl⟩ := hname.unique hname'
      cases hcolon.symm.trans hcolon'
      obtain ⟨rfl, rfl⟩ := ih hv
      cases hend.symm.trans hend'
      exact ⟨rfl, rfl⟩
    | member hname' hcolon' hv hcomma _ =>
      obtain ⟨rfl, rfl⟩ := hname.unique hname'
      cases hcolon.symm.trans hcolon'
      obtain ⟨rfl, rfl⟩ := ih hv
      cases hend.symm.trans hcomma
  | member hname hcolon _ hcomma _ ihv ihms =>
    cases h' with
    | lastMember hname' hcolon' hv hend =>
      obtain ⟨rfl, rfl⟩ := hname.unique hname'
      cases hcolon.symm.trans hcolon'
      obtain ⟨rfl, rfl⟩ := ihv hv
      cases hcomma.symm.trans hend
    | member hname' hcolon' hv hcomma' hms =>
      obtain ⟨rfl, rfl⟩ := hname.unique hname'
      cases hcolon.symm.trans hcolon'
      obtain ⟨rfl, rfl⟩ := ihv hv
      cases hcomma.symm.trans hcomma'
      obtain ⟨he, rfl⟩ := ihms hms
      cases he
      exact ⟨rfl, rfl⟩

/-- A text says one thing at most. -/
theorem Says.unique {v v' : Value} (h : Says text v) (h' : Says text v') : v = v' := by
  obtain ⟨_, hv, -⟩ := h
  obtain ⟨_, hv', -⟩ := h'
  exact (hv.unique hv').1

end Unique

/-! ### The characters of a text -/

section Characters

variable {text s rest : List Char} {c : Char}

/-- A character that a text may have. -/
def isAllowed (c : Char) : Bool := 0x20 ≤ c.toNat || isSpace c

/-- Every character in front of the rest may stand in a text. -/
def Allowed (text rest : List Char) : Prop := ∀ c ∈ text, c ∈ rest ∨ isAllowed c

theorem isAllowed_of_le (h : 0x20 ≤ c.toNat) : isAllowed c := by
  simp only [isAllowed, Bool.or_eq_true, decide_eq_true_eq]
  exact .inl h

theorem Allowed.refl (text : List Char) : Allowed text text := fun _ hc => .inl hc

theorem Allowed.trans {more : List Char} (h : Allowed text more) (h' : Allowed more rest) :
    Allowed text rest :=
  fun c hc => (h c hc).elim (h' c) .inr

theorem Allowed.cons (hc : isAllowed c) (h : Allowed text rest) : Allowed (c :: text) rest :=
  List.forall_mem_cons.2 ⟨.inr hc, h⟩

theorem allowed_dropWhile {p : Char → Bool} (hp : ∀ c, p c → isAllowed c) (text : List Char) :
    Allowed text (text.dropWhile p) := by
  intro c hc
  rw [← List.takeWhile_append_dropWhile (p := p) (l := text), List.mem_append] at hc
  exact hc.symm.imp_right (fun hm => hp c (List.all_eq_true.1 List.all_takeWhile c hm))

theorem allowed_skip (text : List Char) : Allowed text (skip text) :=
  allowed_dropWhile (fun c hc => by simp [isAllowed, hc]) text

theorem isAllowed_of_isDigit (hc : c.isDigit) : isAllowed c := by
  simp only [Char.isDigit, Bool.and_eq_true, decide_eq_true_eq] at hc
  have hle : 48 ≤ c.toNat := hc.1
  exact isAllowed_of_le (by omega)

theorem allowed_behindDigits (text : List Char) : Allowed text (behindDigits text) :=
  allowed_dropWhile (fun _ hc => isAllowed_of_isDigit hc) text

theorem allowed_of_whole? {q : Rat} (h : whole? text = some (q, rest)) : Allowed text rest := by
  unfold whole? at h
  split at h
  · cases h
  · cases h
  · cases h
    exact allowed_behindDigits text

theorem allowed_of_fraction? {q : Rat} (h : fraction? text = some (q, rest)) :
    Allowed text rest := by
  unfold fraction? at h
  split at h
  next more =>
    split at h
    · cases h
    · cases h
      exact .cons (by decide) (allowed_behindDigits more)
  next =>
    cases h
    exact .refl _

theorem allowed_sign (text : List Char) : Allowed text (sign text).2 := by
  unfold sign
  split
  · exact .cons (by decide) (.refl _)
  · exact .cons (by decide) (.refl _)
  · exact .refl _

theorem allowed_of_exponent? {e : Int} (h : exponent? text = some (e, rest)) :
    Allowed text rest := by
  unfold exponent? at h
  split at h
  next c more =>
    split at h
    next hc =>
      have hletter : isAllowed c := by rcases hc with rfl | rfl <;> decide
      split at h
      · cases h
      · cases h
        exact .cons hletter ((allowed_sign more).trans (allowed_behindDigits _))
    next =>
      cases h
      exact .refl _
  next =>
    cases h
    exact .refl _

theorem allowed_of_unsigned? {q : Rat} (h : unsigned? text = some (q, rest)) :
    Allowed text rest := by
  obtain ⟨⟨n, more⟩, hn, h⟩ := Option.bind_eq_some_iff.1 h
  obtain ⟨⟨places, behind⟩, hplaces, h⟩ := Option.bind_eq_some_iff.1 h
  obtain ⟨⟨e, last⟩, he, h⟩ := Option.bind_eq_some_iff.1 h
  cases h
  exact ((allowed_of_whole? hn).trans (allowed_of_fraction? hplaces)).trans (allowed_of_exponent? he)

theorem allowed_of_number? {q : Rat} (h : number? text = some (q, rest)) : Allowed text rest := by
  unfold number? at h
  split at h
  next more =>
    obtain ⟨⟨q', rest'⟩, hq, he⟩ := Option.map_eq_some_iff.1 h
    cases he
    exact .cons (by decide) (allowed_of_unsigned? hq)
  next => exact allowed_of_unsigned? h

theorem isAllowed_of_hexDigit? {n : Nat} (h : hexDigit? c = some n) : isAllowed c := by
  unfold hexDigit? at h
  split at h
  next hd => exact isAllowed_of_isDigit hd
  next =>
    split at h
    next hl =>
      have hle : 97 ≤ c.toNat := hl.1
      exact isAllowed_of_le (by omega)
    next =>
      split at h
      next hu =>
        have hle : 65 ≤ c.toNat := hu.1
        exact isAllowed_of_le (by omega)
      next => cases h

theorem allowed_of_unit? {n : Nat} (h : unit? text = some (n, rest)) : Allowed text rest := by
  unfold unit? at h
  split at h
  next a b c d more =>
    obtain ⟨_, ha, h⟩ := Option.bind_eq_some_iff.1 h
    obtain ⟨_, hb, h⟩ := Option.bind_eq_some_iff.1 h
    obtain ⟨_, hc, h⟩ := Option.bind_eq_some_iff.1 h
    obtain ⟨_, hd, h⟩ := Option.bind_eq_some_iff.1 h
    cases h
    exact .cons (isAllowed_of_hexDigit? ha) (.cons (isAllowed_of_hexDigit? hb)
      (.cons (isAllowed_of_hexDigit? hc) (.cons (isAllowed_of_hexDigit? hd) (.refl _))))
  next => cases h

theorem isAllowed_of_isPlain (h : isPlain c) : isAllowed c := by
  simp only [isPlain, Bool.and_eq_true, decide_eq_true_eq] at h
  exact isAllowed_of_le h.1.1

theorem isAllowed_of_mem_letters {l : Char} (h : (l, c) ∈ letters) : isAllowed l := by
  have hall : letters.all (fun p => isAllowed p.1) := by decide
  exact List.all_eq_true.1 hall _ h

theorem Spells.allowed (h : Spells text s rest) : Allowed text rest := by
  induction h with
  | close => exact .cons (by decide) (.refl _)
  | plain hc _ ih => exact .cons (isAllowed_of_isPlain hc) ih
  | letter hl _ ih => exact .cons (by decide) (.cons (isAllowed_of_mem_letters hl) ih)
  | code hn _ _ _ ih => exact .cons (by decide) (.cons (by decide) ((allowed_of_unit? hn).trans ih))
  | codes hn hm _ _ _ ih =>
    have hrest := (allowed_of_unit? hm).trans ih
    exact .cons (by decide) (.cons (by decide)
      ((allowed_of_unit? hn).trans (.cons (by decide) (.cons (by decide) hrest))))

/-- White space and then a sign. -/
theorem allowed_of_skip_eq {more : List Char} (h : skip text = c :: more) (hc : isAllowed c) :
    Allowed text more := by
  have hsign : Allowed (c :: more) more := .cons hc (.refl _)
  exact (allowed_skip text).trans (h ▸ hsign)

theorem Reads.allowed {part : Part} {v : Value} (h : Reads part text v rest) :
    Allowed text rest := by
  induction h with
  | null =>
    exact .cons (by decide) (.cons (by decide) (.cons (by decide) (.cons (by decide) (.refl _))))
  | yes =>
    exact .cons (by decide) (.cons (by decide) (.cons (by decide) (.cons (by decide) (.refl _))))
  | no =>
    exact .cons (by decide) (.cons (by decide) (.cons (by decide) (.cons (by decide)
      (.cons (by decide) (.refl _)))))
  | number hq => exact allowed_of_number? hq
  | string hs => exact .cons (by decide) hs.allowed
  | emptyArray hend => exact .cons (by decide) (allowed_of_skip_eq hend (by decide))
  | emptyObject hend => exact .cons (by decide) (allowed_of_skip_eq hend (by decide))
  | array _ ih => exact .cons (by decide) ((allowed_skip _).trans ih)
  | object _ ih => exact .cons (by decide) ((allowed_skip _).trans ih)
  | lastItem _ hend ih => exact ih.trans (allowed_of_skip_eq hend (by decide))
  | item _ hcomma _ ihv ihvs =>
    exact ihv.trans ((allowed_of_skip_eq hcomma (by decide)).trans ((allowed_skip _).trans ihvs))
  | lastMember hname hcolon _ hend ih =>
    have hvalue := (allowed_skip _).trans (ih.trans (allowed_of_skip_eq hend (by decide)))
    exact .cons (by decide)
      (hname.allowed.trans ((allowed_of_skip_eq hcolon (by decide)).trans hvalue))
  | member hname hcolon _ hcomma _ ihv ihms =>
    have hmore := (allowed_of_skip_eq hcomma (by decide)).trans ((allowed_skip _).trans ihms)
    have hvalue := (allowed_skip _).trans (ihv.trans hmore)
    exact .cons (by decide)
      (hname.allowed.trans ((allowed_of_skip_eq hcolon (by decide)).trans hvalue))

/-- A text has no control character but white space. -/
theorem Says.isAllowed {v : Value} (h : Says text v) (hc : c ∈ text) : isAllowed c := by
  obtain ⟨rest, hv, hrest⟩ := h
  have hend : Allowed rest [] := hrest ▸ allowed_skip rest
  exact (((allowed_skip text).trans (hv.allowed.trans hend)) c hc).resolve_left List.not_mem_nil

end Characters

end Syntagma.Json
