import Syntagma.Text.Decimal
import Syntagma.Text.Quoted
import Syntagma.Trace.Ring

/-! Trace records as lines for a reader. -/

namespace Syntagma

/-- What a line shows besides the event. -/
structure TraceListing where
  showIds : Bool := false
  showTimestamps : Bool := false
deriving DecidableEq, Inhabited, Repr

namespace TraceListing

/-- A time in whole microseconds, or in milliseconds or seconds with three places. -/
def timeText (nanoseconds : Nat) : String :=
  let n := nanoseconds / 1000
  if n ≥ 1000000 then Text.quotientText n 1000000 ++ "s"
  else if n ≥ 1000 then Text.quotientText n 1000 ++ "ms"
  else toString n ++ "us"

def eventText : TraceEvent → String
  | .grammarCompiled nodes factors leftRecursion =>
    "GRAMMAR " ++ toString nodes ++ " nodes, " ++ toString factors ++ " factors" ++
      (if leftRecursion then ", left recursion kept" else "")
  | .finiteBuilt states => "FINITE " ++ toString states ++ " states"
  | .pushdownCompiled states => "PUSHDOWN " ++ toString states ++ " states"
  | .lexerStep symbol source target =>
    let target := match target with
      | some id => StateId.text id
      | none => "emit"
    "  STEP " ++ Text.quotedChar symbol ++ " " ++ StateId.text source ++ " -> " ++ target
  | .tokenEmitted token =>
    let id := match token.id with
      | some id => NodeId.text id
      | none => "undefined"
    "  TOKEN " ++ token.text ++ " " ++ id
  | .dive tokenIndex node => "  DIVE " ++ NodeId.text node ++ " @" ++ toString tokenIndex
  | .backtrack tokenIndex => "  BACKTRACK @" ++ toString tokenIndex
  | .accepted steps => "ACCEPTED after " ++ toString steps ++ " steps"
  | .rejected position message => "REJECTED at " ++ toString position ++ ": " ++ message
  | .note _ message => "  NOTE " ++ message

/-- The line of a record: its number and time if they are shown, the run, the channel and the
event. -/
def line (l : TraceListing) (r : TraceRecord) : String :=
  (if l.showIds then "[" ++ Text.padLeft 6 '0' (toString r.id) ++ "] " else "") ++
    "R" ++ Text.padLeft 4 '0' (toString r.run) ++ " " ++
    Text.padRight 9 ' ' r.channel.text ++ " " ++
    (if l.showTimestamps then Text.padLeft 10 ' ' (timeText r.timestamp) ++ " " else "") ++
    eventText r.event

def text (l : TraceListing) (records : List TraceRecord) : String :=
  "\n".intercalate (records.map l.line)

end TraceListing

end Syntagma
