import Syntagma.Trace.Ring

/-! Trace records as JSON. -/

namespace Syntagma.TraceJson

/-- A backslash stands before each backslash and quotation mark, and a letter with a backslash
for a line feed, a carriage return and a tab. -/
def escaped : List Char → List Char
  | [] => []
  | '\\' :: rest => '\\' :: '\\' :: escaped rest
  | '"' :: rest => '\\' :: '"' :: escaped rest
  | '\n' :: rest => '\\' :: 'n' :: escaped rest
  | '\r' :: rest => '\\' :: 'r' :: escaped rest
  | '\t' :: rest => '\\' :: 't' :: escaped rest
  | c :: rest => c :: escaped rest

def stringText (s : String) : String := "\"" ++ String.ofList (escaped s.toList) ++ "\""

def natText (n : Nat) : String := toString n

def optionText : Option Nat → String
  | some n => natText n
  | none => "null"

def boolText (b : Bool) : String := if b then "true" else "false"

/-- The values of an event by name. -/
def fields : TraceEvent → List (String × String)
  | .grammarCompiled nodes factors leftRecursion =>
    [("nodes", natText nodes), ("factors", natText factors),
      ("left_recursion", boolText leftRecursion)]
  | .finiteBuilt states => [("states", natText states)]
  | .pushdownCompiled states => [("states", natText states)]
  | .lexerStep symbol source target =>
    [("symbol", stringText (String.singleton symbol)), ("from", natText source),
      ("to", optionText target)]
  | .tokenEmitted token =>
    [("name", stringText token.name), ("id", optionText token.id),
      ("class", natText token.classId.toNat), ("position", natText token.position.offset)]
  | .dive tokenIndex node => [("token_index", natText tokenIndex), ("node", natText node)]
  | .backtrack tokenIndex => [("token_index", natText tokenIndex)]
  | .accepted steps => [("steps", natText steps)]
  | .rejected position message =>
    [("position", natText position), ("message", stringText message)]
  | .note _ message => [("message", stringText message)]

def fieldText (field : String × String) : String := "\"" ++ field.1 ++ "\":" ++ field.2

def objectText (fields : List (String × String)) : String :=
  "\x7b" ++ ",".intercalate (fields.map fieldText) ++ "\x7d"

/-- One object for a record: its number, run, time, channel and type, and then the event. -/
def recordText (r : TraceRecord) : String :=
  objectText ([("id", natText r.id), ("run", natText r.run), ("timestamp_ns", natText r.timestamp),
    ("channel", stringText r.channel.text), ("type", stringText r.event.typeName)] ++
    fields r.event)

/-- One array, on a single line or with a line for each record. -/
def text (pretty : Bool) (records : List TraceRecord) : String :=
  if pretty then "[\n  " ++ ",\n  ".intercalate (records.map recordText) ++ "\n]"
  else "[" ++ ",".intercalate (records.map recordText) ++ "]"

end Syntagma.TraceJson
