import Mathlib
import Syntagma.Proofs.Trace.JsonGrammar
import Syntagma.Trace.Json

/-! Traces are written as JSON. The text of a list of records is a JSON text exactly if no symbol,
token, message or note has a control character other than a tab, a line feed or a carriage return.
It says then one array, in which each record is an object with the record's number, run, time,
channel and type, and what the event tells, in the very words of the event. -/

namespace Syntagma.TraceJson

open Json

/-! ### What a record says -/

/-- What an event tells, by name. -/
def told : TraceEvent → List (String × Value)
  | .grammarCompiled nodes factors leftRecursion =>
    [("nodes", .number nodes), ("factors", .number factors), ("left_recursion", .bool leftRecursion)]
  | .finiteBuilt states => [("states", .number states)]
  | .pushdownCompiled states => [("states", .number states)]
  | .lexerStep symbol source target =>
    [("symbol", .string (String.singleton symbol)), ("from", .number source),
      ("to", target.elim .null (fun id => .number id))]
  | .tokenEmitted token =>
    [("name", .string token.name), ("id", token.id.elim .null (fun id => .number id)),
      ("class", .number token.classId.toNat), ("position", .number token.position.offset)]
  | .dive tokenIndex node => [("token_index", .number tokenIndex), ("node", .number node)]
  | .backtrack tokenIndex => [("token_index", .number tokenIndex)]
  | .accepted steps => [("steps", .number steps)]
  | .rejected position message => [("position", .number position), ("message", .string message)]
  | .note _ message => [("message", .string message)]

/-- What a record tells, by name. -/
def recordTold (r : TraceRecord) : List (String × Value) :=
  [("id", .number r.id), ("run", .number r.run), ("timestamp_ns", .number r.timestamp),
    ("channel", .string r.channel.text), ("type", .string r.event.typeName)] ++ told r.event

/-- The texts that an event has from a script, a grammar or a user. -/
def textsOf : TraceEvent → List String
  | .lexerStep symbol _ _ => [String.singleton symbol]
  | .tokenEmitted token => [token.name]
  | .rejected _ message => [message]
  | .note _ message => [message]
  | _ => []

/-- No text of the event has a control character that is no white space. -/
def isClean (e : TraceEvent) : Bool := (textsOf e).all (fun s => s.toList.all isAllowed)

/-! ### Values are written -/

/-- The text behind a value does not go on with it. -/
def Ends (rest : List Char) : Prop :=
  ∀ c ∈ rest.head?, c.isDigit = false ∧ c ≠ '.' ∧ c ≠ 'e' ∧ c ≠ 'E'

/-- A text says a value, whatever comes behind it. -/
def Writes (text : String) (v : Value) : Prop :=
  ∀ rest, Ends rest → Json.Reads .value (text.toList ++ rest) v rest

variable {rest text : List Char} {c : Char}

theorem ends_cons (hc : c.isDigit = false ∧ c ≠ '.' ∧ c ≠ 'e' ∧ c ≠ 'E') : Ends (c :: rest) := by
  intro d hd
  obtain rfl := Option.some.inj hd
  exact hc

theorem head?_toDigits_ne {n : Nat} (hn : n ≠ 0) : (Nat.toDigits 10 n).head? ≠ some '0' := by
  induction n using Nat.strong_induction_on with
  | _ n ih =>
    by_cases hlt : n < 10
    · rw [Nat.toDigits_of_lt_base hlt]
      interval_cases n <;> first | exact absurd rfl hn | decide
    · have hle : 10 ≤ n := Nat.le_of_not_lt hlt
      rw [Nat.toDigits_of_base_le (by decide) hle, List.head?_append_of_ne_nil _ Nat.toDigits_ne_nil]
      exact ih (n / 10) (by omega) (by omega)

theorem digitsOf_append (h : ∀ c ∈ text, c.isDigit) (hrest : Ends rest) :
    digitsOf (text ++ rest) = text ∧ behindDigits (text ++ rest) = rest := by
  unfold digitsOf behindDigits
  rw [List.takeWhile_append_of_pos h, List.dropWhile_append_of_pos h]
  cases rest with
  | nil => simp
  | cons c rest =>
    have hc := (hrest c rfl).1
    simp [hc]

theorem whole?_toDigits (n : Nat) (hrest : Ends rest) :
    whole? (Nat.toDigits 10 n ++ rest) = some ((n : Rat), rest) := by
  obtain ⟨hdigits, hbehind⟩ := digitsOf_append
    (fun c hc => Nat.isDigit_of_mem_toDigits (b := 10) (by decide) (by decide) hc) hrest
  unfold whole?
  rw [hdigits, hbehind]
  split
  next hnil => exact absurd hnil Nat.toDigits_ne_nil
  next hzero =>
    have hn : n ≠ 0 := by
      rintro rfl
      cases hzero
    exact absurd (congrArg List.head? hzero) (head?_toDigits_ne hn)
  next => rw [Nat.ofDigitChars_toDigits (by decide) (by decide)]

theorem fraction?_of_ends (h : Ends rest) : fraction? rest = some (0, rest) := by
  unfold fraction?
  split
  next => exact absurd rfl (h '.' rfl).2.1
  next => rfl

theorem exponent?_of_ends (h : Ends rest) : exponent? rest = some (0, rest) := by
  unfold exponent?
  split
  next c more =>
    rw [if_neg]
    exact not_or.2 (h c rfl).2.2
  next => rfl

theorem writes_natText (n : Nat) : Writes (natText n) (.number n) := by
  intro rest hrest
  have htext : (natText n).toList = Nat.toDigits 10 n := Nat.toList_repr
  have hunsigned : unsigned? (Nat.toDigits 10 n ++ rest) = some ((n : Rat), rest) := by
    simp [unsigned?, whole?_toDigits n hrest, fraction?_of_ends hrest, exponent?_of_ends hrest]
  refine .number ?_
  rw [htext]
  unfold number?
  split
  next more hminus =>
    obtain ⟨c, digits, hdigits⟩ := List.exists_cons_of_ne_nil (Nat.toDigits_ne_nil (b := 10) (n := n))
    have hdigit : c.isDigit := Nat.isDigit_of_mem_toDigits (b := 10) (n := n) (by decide) (by decide)
      (hdigits ▸ List.mem_cons_self)
    rw [hdigits, List.cons_append] at hminus
    rw [(List.cons.inj hminus).1] at hdigit
    exact absurd hdigit (by decide)
  next => exact hunsigned

theorem writes_optionText (n : Option Nat) :
    Writes (optionText n) (n.elim .null (fun id => .number id)) := by
  cases n with
  | none => exact fun rest _ => .null rest
  | some n => exact writes_natText n

theorem writes_boolText (b : Bool) : Writes (boolText b) (.bool b) := by
  cases b with
  | true => exact fun rest _ => .yes rest
  | false => exact fun rest _ => .no rest

/-! ### Strings are escaped -/

/-- A text with others in the place of a character. -/
def replaceChar (c : Char) (others text : List Char) : List Char :=
  text.flatMap (fun d => if d = c then others else [d])

theorem replaceChar_cons (c d : Char) (others text : List Char) :
    replaceChar c others (d :: text) = (if d = c then others else [d]) ++ replaceChar c others text :=
  List.flatMap_cons

theorem replaceChar_cons_of_ne {c d : Char} (h : d ≠ c) (others text : List Char) :
    replaceChar c others (d :: text) = d :: replaceChar c others text := by
  rw [replaceChar_cons, if_neg h, List.singleton_append]

/-- Escaping replaces one character after the other. Backslashes come first, so that none is replaced
that was put in front of another character. -/
theorem escaped_eq_replaceChar (text : List Char) : escaped text =
    replaceChar '\t' ['\\', 't'] (replaceChar '\r' ['\\', 'r'] (replaceChar '\n' ['\\', 'n']
      (replaceChar '"' ['\\', '"'] (replaceChar '\\' ['\\', '\\'] text)))) := by
  fun_induction escaped text with
  | case1 => rfl
  | case7 c text hslash hquote hfeed hreturn htab ih =>
    rw [ih, replaceChar_cons_of_ne hslash, replaceChar_cons_of_ne hquote,
      replaceChar_cons_of_ne hfeed, replaceChar_cons_of_ne hreturn, replaceChar_cons_of_ne htab]
  | _ text ih => simp [ih, replaceChar_cons]

theorem isPlain_of_isAllowed (h : isAllowed c) (hquote : c ≠ '"') (hslash : c ≠ '\\')
    (hfeed : c ≠ '\n') (hreturn : c ≠ '\r') (htab : c ≠ '\t') : isPlain c := by
  simp only [isAllowed, isSpace, Bool.or_eq_true, decide_eq_true_eq, beq_iff_eq] at h
  simp only [isPlain, Bool.and_eq_true, decide_eq_true_eq, bne_iff_ne]
  refine ⟨⟨?_, hquote⟩, hslash⟩
  rcases h with h | ((rfl | h) | h) | h
  · exact h
  · decide
  · exact absurd h htab
  · exact absurd h hfeed
  · exact absurd h hreturn

/-- An escaped text says the text. -/
theorem spells_escaped (h : ∀ c ∈ text, isAllowed c) (rest : List Char) :
    Json.Spells (escaped text ++ '"' :: rest) text rest := by
  fun_induction escaped text with
  | case1 => exact .close rest
  | case2 text ih => exact .letter (by decide) (ih (List.forall_mem_cons.1 h).2)
  | case3 text ih => exact .letter (by decide) (ih (List.forall_mem_cons.1 h).2)
  | case4 text ih => exact .letter (by decide) (ih (List.forall_mem_cons.1 h).2)
  | case5 text ih => exact .letter (by decide) (ih (List.forall_mem_cons.1 h).2)
  | case6 text ih => exact .letter (by decide) (ih (List.forall_mem_cons.1 h).2)
  | case7 c text hslash hquote hfeed hreturn htab ih =>
    obtain ⟨hc, htext⟩ := List.forall_mem_cons.1 h
    exact .plain (isPlain_of_isAllowed hc hquote hslash hfeed hreturn htab) (ih htext)

theorem writes_stringText {s : String} (h : s.toList.all isAllowed) :
    Writes (stringText s) (.string s) := by
  intro rest _
  have hs := Json.Reads.string (spells_escaped (List.all_eq_true.1 h) rest)
  rw [String.ofList_toList] at hs
  simpa [stringText] using hs

/-! ### Objects and arrays are written -/

/-- A field of an object with its name and the text of its value. -/
def WritesMember (field : String × String) (member : String × Value) : Prop :=
  field.1 = member.1 ∧ field.1.toList.all isPlain ∧ Writes field.2 member.2

theorem spells_of_isPlain (h : text.all isPlain) (rest : List Char) :
    Json.Spells (text ++ '"' :: rest) text rest := by
  induction text with
  | nil => exact .close rest
  | cons c text ih =>
    rw [List.all_cons, Bool.and_eq_true] at h
    exact .plain h.1 (ih h.2)

theorem skip_append (h : text.all isSpace) (rest : List Char) : skip (text ++ rest) = skip rest :=
  List.dropWhile_append_of_pos (List.all_eq_true.1 h)

theorem skip_of_reads {part : Part} {v : Value} (h : Json.Reads part text v rest) :
    skip text = text := by
  obtain ⟨c, more, rfl, hc, -⟩ := h.exists_head
  exact List.dropWhile_cons_of_neg (Bool.eq_false_iff.1 hc)

/-- Members with commas between them, up to the closing bracket. -/
theorem reads_members {fields : List (String × String)} {members : List (String × Value)}
    (h : List.Forall₂ WritesMember fields members) (hne : fields ≠ []) (rest : List Char) :
    Json.Reads .members (List.intercalate [','] (fields.map (fun f => (fieldText f).toList)) ++
      '\x7d' :: rest) (.object members) rest := by
  induction h with
  | nil => exact absurd rfl hne
  | @cons field member fields members hfield hfields ih =>
    obtain ⟨name, v⟩ := member
    obtain ⟨rfl, hplain, hv⟩ := hfield
    have hkey (more : List Char) : (fieldText field).toList ++ more =
        '"' :: (field.1.toList ++ '"' :: ':' :: (field.2.toList ++ more)) := by
      simp [fieldText]
    have hvalue (more : List Char) (hmore : Ends more) :
        Json.Reads .value (skip (field.2.toList ++ more)) v more := by
      have hreads := hv more hmore
      rwa [skip_of_reads hreads]
    have hcolon (more : List Char) : skip (':' :: more) = ':' :: more := rfl
    cases hfields with
    | nil =>
      have hlast := Json.Reads.lastMember (spells_of_isPlain hplain _) (hcolon _)
        (hvalue ('\x7d' :: rest) (ends_cons (by decide))) rfl
      rw [String.ofList_toList] at hlast
      rwa [List.map_singleton, List.intercalate_singleton, hkey]
    | @cons field' member' fields members hfield' hfields =>
      have hmore := ih (List.cons_ne_nil _ _)
      rw [List.map_cons] at hmore
      have hmember := Json.Reads.member (spells_of_isPlain hplain _) (hcolon _)
        (hvalue (',' :: _) (ends_cons (by decide))) rfl ((skip_of_reads hmore).symm ▸ hmore)
      rw [String.ofList_toList] at hmember
      rw [List.map_cons, List.map_cons, List.intercalate_cons_cons, List.append_assoc,
        List.append_assoc, hkey]
      exact hmember

theorem writes_objectText {fields : List (String × String)} {members : List (String × Value)}
    (h : List.Forall₂ WritesMember fields members) (hne : fields ≠ []) :
    Writes (objectText fields) (.object members) := by
  intro rest _
  have hmembers := reads_members h hne rest
  have htext : (objectText fields).toList ++ rest = '\x7b' ::
      (List.intercalate [','] (fields.map (fun f => (fieldText f).toList)) ++ '\x7d' :: rest) := by
    simp [objectText, String.toList_intercalate, List.map_map, Function.comp_def]
  rw [htext]
  exact .object ((skip_of_reads hmembers).symm ▸ hmembers)

/-- Items with commas and white space between them, up to the closing bracket. -/
theorem reads_items {texts : List String} {vs : List Value} {lead trail : List Char}
    (hlead : lead.all isSpace) (htrail : trail.all isSpace)
    (hends : ∀ rest, Ends (trail ++ ']' :: rest)) (h : List.Forall₂ Writes texts vs)
    (hne : texts ≠ []) (rest : List Char) :
    Json.Reads .items (List.intercalate (',' :: lead) (texts.map String.toList) ++
      (trail ++ ']' :: rest)) (.array vs) rest := by
  induction h with
  | nil => exact absurd rfl hne
  | @cons text v texts vs hv htexts ih =>
    cases htexts with
    | nil =>
      rw [List.map_singleton, List.intercalate_singleton]
      exact .lastItem (hv _ (hends rest)) (skip_append htrail _)
    | @cons text' v' texts vs hv' htexts =>
      have hmore := ih (List.cons_ne_nil _ _)
      rw [List.map_cons] at hmore
      rw [List.map_cons, List.map_cons, List.intercalate_cons_cons, List.append_assoc,
        List.append_assoc, List.cons_append]
      refine .item (hv _ (ends_cons (by decide))) rfl ?_
      rw [skip_append hlead, skip_of_reads hmore]
      exact hmore

/-! ### Traces are written -/

theorem writesMember {name text : String} {v : Value} (hname : name.toList.all isPlain)
    (hv : Writes text v) : WritesMember (name, text) (name, v) :=
  ⟨rfl, hname, hv⟩

theorem writesMember_fields {e : TraceEvent} (h : isClean e) :
    List.Forall₂ WritesMember (fields e) (told e) := by
  have hstring {s : String} (hs : s ∈ textsOf e) : Writes (stringText s) (.string s) :=
    writes_stringText (List.all_eq_true.1 h s hs)
  cases e with
  | grammarCompiled nodes factors leftRecursion =>
    exact .cons (writesMember (by decide) (writes_natText nodes))
      (.cons (writesMember (by decide) (writes_natText factors))
        (.cons (writesMember (by decide) (writes_boolText leftRecursion)) .nil))
  | finiteBuilt states => exact .cons (writesMember (by decide) (writes_natText states)) .nil
  | pushdownCompiled states => exact .cons (writesMember (by decide) (writes_natText states)) .nil
  | lexerStep symbol source target =>
    exact .cons (writesMember (by decide) (hstring List.mem_cons_self))
      (.cons (writesMember (by decide) (writes_natText source))
        (.cons (writesMember (by decide) (writes_optionText target)) .nil))
  | tokenEmitted token =>
    exact .cons (writesMember (by decide) (hstring List.mem_cons_self))
      (.cons (writesMember (by decide) (writes_optionText token.id))
        (.cons (writesMember (by decide) (writes_natText token.classId.toNat))
          (.cons (writesMember (by decide) (writes_natText token.position.offset)) .nil)))
  | dive tokenIndex node =>
    exact .cons (writesMember (by decide) (writes_natText tokenIndex))
      (.cons (writesMember (by decide) (writes_natText node)) .nil)
  | backtrack tokenIndex => exact .cons (writesMember (by decide) (writes_natText tokenIndex)) .nil
  | accepted steps => exact .cons (writesMember (by decide) (writes_natText steps)) .nil
  | rejected position message =>
    exact .cons (writesMember (by decide) (writes_natText position))
      (.cons (writesMember (by decide) (hstring List.mem_cons_self)) .nil)
  | note channel message =>
    exact .cons (writesMember (by decide) (hstring List.mem_cons_self)) .nil

theorem writes_recordText {r : TraceRecord} (h : isClean r.event) :
    Writes (recordText r) (.object (recordTold r)) := by
  have hchannel : r.channel.text.toList.all isAllowed := by
    cases r.channel <;> simp only [Channel.text] <;> decide
  have htype : r.event.typeName.toList.all isAllowed := by
    cases r.event <;> simp only [TraceEvent.typeName] <;> decide
  refine writes_objectText (List.rel_append ?_ (writesMember_fields h)) (by simp)
  exact .cons (writesMember (by decide) (writes_natText r.id))
    (.cons (writesMember (by decide) (writes_natText r.run))
      (.cons (writesMember (by decide) (writes_natText r.timestamp))
        (.cons (writesMember (by decide) (writes_stringText hchannel))
          (.cons (writesMember (by decide) (writes_stringText htype)) .nil))))

/-- White space behind the opening bracket and each comma, and in front of the closing bracket. -/
def lead (pretty : Bool) : List Char := if pretty then ['\n', ' ', ' '] else []

def trail (pretty : Bool) : List Char := if pretty then ['\n'] else []

theorem toList_text (pretty : Bool) (records : List TraceRecord) :
    (TraceJson.text pretty records).toList = '[' :: (lead pretty ++
      (List.intercalate (',' :: lead pretty) ((records.map recordText).map String.toList) ++
        (trail pretty ++ [']']))) := by
  cases pretty <;> simp [TraceJson.text, lead, trail, String.toList_intercalate]

theorem says_text {records : List TraceRecord} (pretty : Bool)
    (h : ∀ r ∈ records, isClean r.event) :
    Says (TraceJson.text pretty records).toList
      (.array (records.map (fun r => .object (recordTold r)))) := by
  have hlead : (lead pretty).all isSpace := by cases pretty <;> rfl
  have htrail : (trail pretty).all isSpace := by cases pretty <;> rfl
  have hends (rest : List Char) : Ends (trail pretty ++ ']' :: rest) := by
    cases pretty <;> exact ends_cons (by decide)
  refine ⟨[], ?_, rfl⟩
  rw [toList_text]
  have hopen (more : List Char) : skip ('[' :: more) = '[' :: more := rfl
  rw [hopen]
  cases records with
  | nil =>
    refine .emptyArray ?_
    rw [skip_append hlead]
    exact skip_append htrail [']']
  | cons r records =>
    have hwrites : List.Forall₂ Writes ((r :: records).map recordText)
        ((r :: records).map (fun r => .object (recordTold r))) :=
      List.forall₂_map_left_iff.2 (List.forall₂_map_right_iff.2
        (List.forall₂_same.2 (fun r hr => writes_recordText (h r hr))))
    have hitems := reads_items hlead htrail hends hwrites (by simp) []
    refine .array ?_
    rwa [skip_append hlead, skip_of_reads hitems]

/-! ### Other control characters -/

theorem mem_escaped (hc : c ∈ text) : c ∈ escaped text ∨ isAllowed c := by
  fun_induction escaped text with
  | case1 => cases hc
  | case7 d text _ _ _ _ _ ih =>
    rcases List.mem_cons.1 hc with rfl | hc
    · exact .inl List.mem_cons_self
    · exact (ih hc).imp_left (List.mem_cons_of_mem d)
  | _ text ih =>
    rcases List.mem_cons.1 hc with rfl | hc
    · exact .inr (by decide)
    · exact (ih hc).imp_left (fun hm => List.mem_cons_of_mem _ (List.mem_cons_of_mem _ hm))

theorem mem_intercalate {sep part : List Char} {parts : List (List Char)} (hpart : part ∈ parts)
    (hc : c ∈ part) : c ∈ List.intercalate sep parts := by
  induction parts with
  | nil => cases hpart
  | cons first parts ih =>
    cases parts with
    | nil =>
      rw [List.intercalate_singleton]
      exact List.mem_singleton.1 hpart ▸ hc
    | cons second parts =>
      rw [List.intercalate_cons_cons, List.mem_append]
      rcases List.mem_cons.1 hpart with rfl | hpart
      · exact .inl (List.mem_append_left _ hc)
      · exact .inr (ih hpart)

theorem exists_field {e : TraceEvent} {s : String} (hs : s ∈ textsOf e) :
    ∃ name, (name, stringText s) ∈ fields e := by
  cases e with
  | lexerStep symbol source target =>
    exact ⟨"symbol", List.mem_singleton.1 hs ▸ List.mem_cons_self⟩
  | tokenEmitted token => exact ⟨"name", List.mem_singleton.1 hs ▸ List.mem_cons_self⟩
  | rejected position message =>
    exact ⟨"message", List.mem_singleton.1 hs ▸ List.mem_cons_of_mem _ List.mem_cons_self⟩
  | note channel message => exact ⟨"message", List.mem_singleton.1 hs ▸ List.mem_cons_self⟩
  | _ => cases hs

/-- A text of an event is in the text of the trace, save for what is escaped. -/
theorem mem_text {records : List TraceRecord} {r : TraceRecord} {s : String} (pretty : Bool)
    (hr : r ∈ records) (hs : s ∈ textsOf r.event) (hc : c ∈ s.toList) :
    c ∈ (TraceJson.text pretty records).toList ∨ isAllowed c := by
  refine (mem_escaped hc).imp_left (fun hm => ?_)
  obtain ⟨name, hfield⟩ := exists_field hs
  have hstring : c ∈ (fieldText (name, stringText s)).toList := by simp [fieldText, stringText, hm]
  have hrecord : c ∈ (recordText r).toList := by
    unfold recordText objectText
    rw [String.toList_append, String.toList_append, String.toList_intercalate, List.mem_append,
      List.mem_append]
    refine .inl (.inr (mem_intercalate (List.mem_map_of_mem (List.mem_map_of_mem ?_)) hstring))
    exact List.mem_append_right _ hfield
  rw [toList_text, List.mem_cons, List.mem_append, List.mem_append]
  exact .inr (.inr (.inl (mem_intercalate (List.mem_map_of_mem (List.mem_map_of_mem hr)) hrecord)))

/-- The text of a trace is a JSON text exactly if the records are clean, and then it says the array
of what the records tell. -/
theorem says_text_iff (pretty : Bool) (records : List TraceRecord) (v : Value) :
    Says (TraceJson.text pretty records).toList v ↔
      (∀ r ∈ records, isClean r.event) ∧
        v = .array (records.map (fun r => .object (recordTold r))) := by
  constructor
  · intro h
    have hclean : ∀ r ∈ records, isClean r.event := by
      refine fun r hr => List.all_eq_true.2 (fun s hs => List.all_eq_true.2 (fun c hc => ?_))
      exact (mem_text pretty hr hs hc).elim h.isAllowed id
    exact ⟨hclean, h.unique (says_text pretty hclean)⟩
  · rintro ⟨hclean, rfl⟩
    exact says_text pretty hclean

/-- What the text of a trace says: nothing if a text of an event has a control character that is no
white space, and otherwise the array of what the records tell. The names in a record are distinct
unless it is of a token, the number of which has the name of that of the record. -/
theorem json_of_trace (pretty : Bool) (records : List TraceRecord) :
    (∀ v, Says (TraceJson.text pretty records).toList v ↔ (∀ r ∈ records, isClean r.event) ∧
      v = .array (records.map (fun r => .object (recordTold r)))) ∧
    ∀ r ∈ records, ((recordTold r).map (·.1)).Nodup ↔ ∀ token, r.event ≠ .tokenEmitted token := by
  refine ⟨says_text_iff pretty records, fun r _ => ?_⟩
  obtain ⟨id, run, timestamp, event⟩ := r
  cases event with
  | tokenEmitted token =>
    refine iff_of_false ?_ (fun h => h token rfl)
    simp only [recordTold, told, List.map_append, List.map_cons, List.map_nil]
    decide
  | _ =>
    refine iff_of_true ?_ (fun _ h => by cases h)
    simp only [recordTold, told, List.map_append, List.map_cons, List.map_nil]
    decide

/-- A control character of a script is written as it is, and the text of the trace is no JSON then.
The record of a token has two members of the name for its number. -/
theorem text_of_control_character :
    (∀ pretty v, ¬Says (TraceJson.text pretty [⟨0, 1, 0, .lexerStep '\x01' 0 none⟩]).toList v) ∧
    ((recordTold ⟨7, 1, 0, .tokenEmitted ⟨"a", some 3, 0, ⟨0, 0, 0⟩⟩⟩).map (·.1)).count "id" = 2 := by
  refine ⟨fun pretty v h => ?_, by decide⟩
  have hclean := ((says_text_iff pretty _ v).1 h).1 _ List.mem_cons_self
  exact absurd hclean (by decide)

end Syntagma.TraceJson
