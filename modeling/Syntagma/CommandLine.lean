import Syntagma.Console
import Syntagma.Host.FileTree
import Syntagma.Host.Store
import Syntagma.Invocation

/-! The command: it checks the scripts named on the command line, or starts the console if there
are none. -/

namespace Syntagma

namespace CommandLine

def bold (text : String) : String := "\x1b[1m" ++ text ++ "\x1b[0m"

def heading (text : String) : String := "\x1b[1;36m=== " ++ text ++ " ===\x1b[0m\n"

def failureText (problem : String) : String := "\x1b[31mError: " ++ problem ++ "\x1b[0m\n"

def helpText : String :=
  bold "translator" ++ " - Grammar-driven lexer and syntax checker\n\n" ++
  bold "USAGE:" ++ "\n" ++
  "    translator [OPTIONS] <GRAMMAR> [SCRIPTS...]\n\n" ++
  bold "ARGUMENTS:" ++ "\n" ++
  "    <GRAMMAR>     XML grammar, or a .msgpack file saved with --save-artifacts\n" ++
  "    [SCRIPTS...]  Scripts to check; without any, start the REPL\n\n" ++
  bold "OPTIONS:" ++ "\n" ++
  "    -h, --help                  Print help information\n" ++
  "    -V, --version               Print version information\n" ++
  "    --strategy NAME             Syntax strategy: pushdown (default) or recursive\n" ++
  "    --keep-left-recursion       Run left recursion as loops instead of rewriting it\n" ++
  "    --include-token-terminals   Keep terminals inside defined tokens in the lexer\n" ++
  "    --ignore-undefined          Skip undefined tokens during syntax analysis\n" ++
  "    --tab-width N               Columns per tab in reported positions\n" ++
  "    --save-artifacts PATH       Save the compiled grammar and automata\n\n" ++
  bold "DEBUG OPTIONS:" ++ "\n" ++
  "    --trace                     Trace every pipeline stage to stderr\n" ++
  "    --dump-grammar              Print the grammar definitions\n" ++
  "    --dump-factorized           Print the factorized grammar\n" ++
  "    --dump-tokens               List tokens for each script\n\n" ++
  bold "EXAMPLES:" ++ "\n" ++
  "    translator lang.xml                    Start the REPL for lang.xml\n" ++
  "    translator lang.xml a.txt b.txt        Check two scripts\n" ++
  "    translator --strategy recursive lang.xml a.txt\n" ++
  "    translator --save-artifacts lang.msgpack lang.xml\n\n" ++
  bold "REPL COMMANDS:" ++ "\n" ++
  "    :help                Show all commands\n" ++
  "    :tokens              Toggle the token listing\n" ++
  "    :grammar             Print the grammar\n" ++
  "    :quit                Exit (or Ctrl+D)\n"

/-- The name at the end of a path: the last segment that names something. -/
def fileName? (path : String) : Option String :=
  match ((path.splitOn "/").filter (fun s => s != "" && s != ".")).getLast? with
  | some ".." => none
  | name => name

/-- What stands behind the last dot of a name; a dot in front does not count. -/
def extension? (name : String) : Option String :=
  match (name.splitOn ".").reverse with
  | ext :: base :: rest => if base.isEmpty && rest.isEmpty then none else some ext
  | _ => none

/-- Whether a path names saved artifacts. -/
def namesArtifacts (path : String) : Bool :=
  ((fileName? path).bind extension?) == some "msgpack"

/-- How the command ends: with an exit status, or with a console that is to be run. -/
inductive Ending where
  | done (accepted : Bool)
  | console (c : Console)

variable {m : Type → Type} [Monad m] [Host m]

/-- Steps that can end with the text of a problem. -/
abbrev Attempt (m : Type → Type) := ExceptT String m

def attempt {α : Type} (step : m (Except Fault α)) : Attempt m α :=
  ExceptT.mk (do return (← step).mapError (·.message))

/-- Writes the lines that the tracer has handed out. -/
def relayTrace (tracer : Tracer) : m Tracer := do
  let (lines, tracer) := tracer.takeEchoed
  Host.err (String.join (lines.map (· ++ "\n")))
  return tracer

/-- Compiles the grammar, or reads what was compiled before. -/
def openSession (path : String) (options : Options) (tracer : Tracer) : Attempt m Session := do
  if namesArtifacts path then
    let artifacts ← attempt (Artifacts.load path)
    return (Session.ofArtifacts artifacts options).setTracer tracer
  else
    let (result, tracer) ← ExceptT.lift (Session.load path options tracer)
    let tracer ← ExceptT.lift (relayTrace tracer)
    let session ← attempt (pure result)
    return session.setTracer tracer

def dump (title text : String) : m Unit := Host.out (heading title ++ text ++ "\n")

def checkScript (showTokens : Bool) (s : Session) (path : String) : Attempt m (Bool × Session) := do
  match ← ExceptT.lift (Host.readText path) with
  | .error problem => throw ("failed to read '" ++ path ++ "': " ++ problem.text)
  | .ok script =>
    let (result, s) := s.run script
    let tracer ← ExceptT.lift (relayTrace s.tracer)
    let s := s.setTracer tracer
    let report ← attempt (pure result)
    ExceptT.lift (Host.out (bold path ++ "\n" ++ s.reportText report showTokens))
    return (report.isAccepted, s)

/-- Checks scripts in turn; whether all of them are accepted. -/
def checkScripts (showTokens : Bool) (s : Session) : List String → Attempt m Bool
  | [] => return true
  | path :: rest => do
    let (accepted, s) ← checkScript showTokens s path
    let others ← checkScripts showTokens s rest
    return accepted && others

/-- Works with the grammar at a path as the command line asks. -/
def work (i : Invocation) (path : String) : Attempt m Ending := do
  let session ← openSession path i.options (if i.trace then .toReader else .disabled)
  if i.dumpGrammar then
    ExceptT.lift (dump "Grammar" session.grammar.text)
  if i.dumpFactorized then
    ExceptT.lift (dump "Factorized" session.grammar.factorizedText)
  if let some savePath := i.savePath then
    attempt (session.artifacts.save savePath)
    ExceptT.lift (Host.err ("saved compiled grammar to " ++ savePath ++ "\n"))
  if i.scripts.isEmpty then
    let console : Console := { session := session, showTokens := i.dumpTokens }
    return .console (console.write console.banner)
  return .done (← checkScripts i.dumpTokens session i.scripts)

def perform (args : List String) : Attempt m Ending := do
  let i ← ExceptT.mk (pure (Invocation.ofArguments args))
  if i.help then
    ExceptT.lift (Host.out helpText)
    return .done true
  if i.version then
    ExceptT.lift (Host.out ("translator " ++ Console.version ++ "\n"))
    return .done true
  match i.grammar with
  | some path => work i path
  | none =>
    ExceptT.lift (Host.out helpText)
    throw "no grammar file given"

/-- Runs the command with its arguments. A problem is reported and ends it. -/
def run (args : List String) : m Ending := do
  match ← (perform args).run with
  | .ok ending => return ending
  | .error problem =>
    Host.err (failureText problem)
    return .done false

/-- Runs the command at a desk, whose input the console reads. Gives the exit status. -/
def runAt (args : List String) : StateM Desk Nat := do
  match ← run args with
  | .done accepted => return if accepted then 0 else 1
  | .console c =>
    let input ← Desk.takeInput
    let ((out, err), _) := (c.run (Console.linesOf input.toList)).takeOutput
    Host.out out
    Host.err err
    return 0

end CommandLine

end Syntagma
