import Syntagma.Grammar.Text
import Syntagma.Session
import Syntagma.Text.Alphabetic
import Syntagma.Text.Erasure

/-! The interactive console. It is fed what the reader of its input delivers: lines, interrupts,
failures and the end of input. Lines that end in a backslash are joined with the next one. A
complete input is a command or a script to check. -/

namespace Syntagma

/-- What one attempt to read a line gives. -/
inductive ConsoleEvent where
  | line (text : String)
  | interrupt
  | failure (problem : String)
  | endOfInput
deriving DecidableEq, Inhabited, Repr

/-- Which prompt a line is read with. -/
inductive PromptKind where
  | first
  | continuation
deriving DecidableEq, Inhabited, Repr

structure Console where
  session : Session
  showTokens : Bool := false
  prompt : String := "> "
  continuationPrompt : String := ".. "
  /-- The lines of an unfinished input, joined, without the last backslash. -/
  pending : Option String := none
  finished : Bool := false
  /-- The inputs that were not blank, in order. -/
  history : List String := []
  /-- What has been written and not yet taken. -/
  out : String := ""
  err : String := ""
deriving Inhabited

namespace Console

def version : String := "0.1.0"

def helpText : String :=
  "Commands:\n" ++
  "  :help         show this help\n" ++
  "  :tokens       toggle the token listing after each script\n" ++
  "  :grammar      print the grammar definitions\n" ++
  "  :factorized   print the factorized grammar\n" ++
  "  :automaton    print the lexer automaton\n" ++
  "  :pushdown     print the syntax table\n" ++
  "  :trace        toggle tracing of each run\n" ++
  "  :quit         exit\n" ++
  "Anything else is checked as a script. End a line with \\ to continue it.\n"

def banner (c : Console) : String :=
  "translator " ++ version ++ " - " ++ c.session.options.analysis.strategy.text ++
    " strategy. Type :help for commands.\n"

/-! ### Evaluation -/

/-- A colon before a letter begins a command; scripts may begin with any other colon. -/
def isCommand : List Char → Bool
  | ':' :: c :: _ => Text.isAlphabetic c
  | _ => false

def switchText (on : Bool) : String := if on then "on\n" else "off\n"

def unknownCommand (text : String) : Fault :=
  .of (.internal ("unknown command '" ++ text ++ "', try :help"))

/-- Carries out a command and gives what it prints. -/
def command (c : Console) (text : String) : Except Fault String × Console :=
  let s := c.session
  if text = ":help" ∨ text = ":h" then (.ok helpText, c)
  else if text = ":tokens" then
    (.ok ("token listing " ++ switchText (!c.showTokens)), { c with showTokens := !c.showTokens })
  else if text = ":grammar" then (.ok s.grammar.text, c)
  else if text = ":factorized" then (.ok s.grammar.factorizedText, c)
  else if text = ":automaton" then (.ok (s.artifacts.finite.text ++ "\n"), c)
  else if text = ":pushdown" then (.ok (s.artifacts.pushdown.text ++ "\n"), c)
  else if text = ":trace" then
    let tracer := { s.tracer with enabled := !s.tracer.enabled }
    (.ok ("tracing " ++ switchText tracer.enabled), { c with session := s.setTracer tracer })
  else (.error (unknownCommand text), c)

/-- The records of the run, if it was traced. -/
def traceText (s : Session) : String :=
  if s.tracer.enabled then s.tracer.text s.runRecords ++ "\n" else ""

/-- Checks a script and gives what is printed about it. -/
def check (c : Console) (script : String) : Except Fault String × Console :=
  let (result, s) := c.session.run script
  (result.map (fun report => s.reportText report c.showTokens ++ traceText s),
    { c with session := s })

def eval (c : Console) (input : String) : Except Fault String × Console :=
  let trimmed := Text.trimText input
  if isCommand trimmed.toList then c.command trimmed else c.check input

/-! ### Reading -/

def write (c : Console) (text : String) : Console := { c with out := c.out ++ text }

def writeFault (c : Console) (fault : Fault) : Console :=
  { c with err := c.err ++ "Error: " ++ fault.message ++ "\n" }

/-- Passes on the lines that the tracer has handed out. -/
def relayTrace (c : Console) : Console :=
  let (lines, tracer) := c.session.tracer.takeEchoed
  { c with
    session := c.session.setTracer tracer
    err := c.err ++ String.join (lines.map (· ++ "\n")) }

def isQuit (trimmed : String) : Bool := trimmed == ":quit" || trimmed == ":q"

/-- Evaluates an input and prints what it gives. -/
def perform (c : Console) (input : String) : Console :=
  let (result, c) := c.eval input
  match result with
  | .ok text => c.relayTrace.write text
  | .error fault => c.relayTrace.writeFault fault

/-- Takes a complete input: a blank one is passed over, the others enter the history. -/
def accept (c : Console) (input : String) : Console :=
  let trimmed := Text.trimText input
  if trimmed.isEmpty then c
  else
    let c := { c with history := c.history ++ [input] }
    if isQuit trimmed then { c with finished := true } else c.perform input

/-- Adds a line to the unfinished input, which it completes unless it ends in a backslash. -/
def acceptLine (c : Console) (line : String) : Console :=
  let input := match c.pending with
    | some lines => lines ++ "\n" ++ line
    | none => line
  let c := { c with pending := none }
  match input.toList.reverse with
  | '\\' :: rest => { c with pending := some (String.ofList rest.reverse) }
  | _ => c.accept input

def unexpectedEnd : Fault := .of (.internal "unexpected EOF in multi-line input")

/-- Takes what one attempt to read gave. Interrupts, failures and the end of input drop an
unfinished input; without one the end of input finishes the console. -/
def feed (c : Console) (event : ConsoleEvent) : Console :=
  if c.finished then c
  else match event with
    | .line text => c.acceptLine text
    | .interrupt =>
      match c.pending with
      | some _ => { c with pending := none }.write "Input cancelled.\n"
      | none => c
    | .failure problem => { c with pending := none }.writeFault (.of (.internal problem))
    | .endOfInput =>
      match c.pending with
      | some _ => { c with pending := none }.writeFault unexpectedEnd
      | none => { c with finished := true }

/-- The prompt for the next line. -/
def nextPrompt (c : Console) : PromptKind × String :=
  if c.pending.isSome then (.continuation, c.continuationPrompt) else (.first, c.prompt)

/-- Takes what has been written so far. -/
def takeOutput (c : Console) : (String × String) × Console :=
  ((c.out, c.err), { c with out := "", err := "" })

/-- The prompts that a run asks with, in order. -/
def prompts (c : Console) : List ConsoleEvent → List (PromptKind × String)
  | [] => []
  | event :: rest =>
    if c.finished then [] else c.nextPrompt :: (c.feed event).prompts rest

/-- The attempts to read after which every console has finished: at the end of input the next
attempts give nothing but the end of input again, and two of them are enough. -/
def withEnd (events : List ConsoleEvent) : List ConsoleEvent := events ++ [.endOfInput, .endOfInput]

theorem feed_finished {c : Console} (h : c.finished = true) (event : ConsoleEvent) :
    c.feed event = c := by
  simp [feed, h]

theorem finished_feed_end_end (c : Console) :
    ((c.feed .endOfInput).feed .endOfInput).finished = true := by
  by_cases hf : c.finished = true
  · rw [feed_finished hf, feed_finished hf, hf]
  · cases hp : c.pending <;> simp [feed, hf, hp, writeFault]

/-- Runs to the end of input or to the command that quits; a last line break ends the output. -/
def run (c : Console) (events : List ConsoleEvent) : Console :=
  ((withEnd events).foldl feed c).write "\n"

/-- Every run finishes. -/
theorem finished_run (c : Console) (events : List ConsoleEvent) :
    (c.run events).finished = true := by
  simp only [run, withEnd, List.foldl_append, List.foldl_cons, List.foldl_nil]
  exact finished_feed_end_end _

/-! ### Lines of a text -/

/-- A line as read, without its line break. -/
def lineText (line : List Char) : String :=
  let line := match line.reverse with
    | '\r' :: rest => rest.reverse
    | _ => line
  String.ofList (Text.withoutBackspaces line)

/-- The lines of a text, the last of them with or without a line break. -/
def linesOf (text : List Char) : List ConsoleEvent :=
  go text []
where
  /-- Cuts off lines; the characters of the current one are kept with the latest first. -/
  go : List Char → List Char → List ConsoleEvent
    | [], [] => []
    | [], line => [.line (String.ofList (Text.withoutBackspaces line.reverse))]
    | '\n' :: rest, line => .line (lineText line.reverse) :: go rest []
    | c :: rest, line => go rest (c :: line)

end Console

end Syntagma
