import Syntagma.Analysis.Strategy
import Syntagma.Artifacts
import Syntagma.Description.Reader
import Syntagma.Grammar.Compile
import Syntagma.Trace.Tracer

/-! A session checks scripts against one compiled grammar. -/

namespace Syntagma

/-- Everything learned about a script; there is no outcome for a blank one. -/
structure Report where
  tokens : List Token
  lexical : List Diagnostic
  outcome : Option Outcome
deriving DecidableEq, Inhabited

namespace Report

def isAccepted (r : Report) : Bool := r.outcome.any (·.isAccepted)

/-- The lexical diagnostics, then the one of the analysis. -/
def diagnostics (r : Report) : List Diagnostic :=
  r.lexical ++ (r.outcome.bind (·.diagnostic?)).toList

end Report

structure Session where
  options : Options
  artifacts : Artifacts
  tracer : Tracer
deriving Inhabited

namespace Session

/-- A session with what has been compiled before, and nothing traced. -/
def ofArtifacts (artifacts : Artifacts) (options : Options) : Session :=
  ⟨options, artifacts, .disabled⟩

def compiledEvent (g : Grammar) : TraceEvent :=
  .grammarCompiled g.nodes.size g.factors.length g.hasLeftRecursion

/-- Builds the automata of a grammar. The tracer that comes back has recorded each stage reached,
also when a later one fails. -/
def ofGrammar (g : Grammar) (options : Options) (tracer : Tracer) :
    Except Fault Session × Tracer :=
  let tracer := tracer.record (compiledEvent g)
  match Artifacts.ofGrammar g with
  | .ok artifacts =>
    let tracer := tracer.recordAll
      [.finiteBuilt artifacts.finite.states.size, .pushdownCompiled artifacts.pushdown.states.size]
    (.ok ⟨options, artifacts, tracer⟩, tracer)
  | .error fault => (.error fault, tracer)

/-- Compiles a grammar description and builds its automata. -/
def ofXml (xml : String) (options : Options) (tracer : Tracer) : Except Fault Session × Tracer :=
  match (GrammarDescription.ofXml xml).bind (fun d => Grammar.compile d options.grammar) with
  | .ok g => ofGrammar g options tracer
  | .error fault => (.error fault, tracer)

def grammar (s : Session) : Grammar := s.artifacts.grammar

def keywords (s : Session) : List String := s.grammar.keywords

def setTracer (s : Session) (tracer : Tracer) : Session := { s with tracer := tracer }

/-- Cuts a script into tokens. -/
def lex (s : Session) (script : String) : Lexed × Session :=
  let (lexed, events) := (s.artifacts.lexer s.options.lexer).run script
  (lexed, s.setTracer (s.tracer.recordAll events))

def analyze (s : Session) (tokens : List Token) : Except Fault Outcome × Session :=
  let (outcome, events) :=
    Syntagma.analyze s.artifacts.grammar s.artifacts.pushdown s.options.analysis tokens
  (outcome, s.setTracer (s.tracer.recordAll events))

/-- Checks a script: a new run of the trace begins, the script is cut into tokens, and these are
analyzed unless the script was blank. -/
def run (s : Session) (script : String) : Except Fault Report × Session :=
  let (lexed, s) := (s.setTracer s.tracer.beginRun).lex script
  if lexed.diagnostics.any (fun d => d.kind = .emptyScript) then
    (.ok ⟨lexed.tokens, lexed.diagnostics, none⟩, s)
  else
    let (outcome, s) := s.analyze lexed.tokens
    (outcome.map (fun outcome => ⟨lexed.tokens, lexed.diagnostics, some outcome⟩), s)

def tokenLine (s : Session) (token : Token) : String :=
  let className := (s.grammar.classTable.tokenClasses.nameOf token.classId).getD "?"
  "  " ++ token.text ++ " [" ++ className ++ "]\n"

/-- The report as lines: the tokens if they are asked for, each diagnostic, and the mark of an
accepted script. -/
def reportText (s : Session) (report : Report) (showTokens : Bool) : String :=
  (if showTokens then String.join (report.tokens.map s.tokenLine) else "") ++
    String.join (report.diagnostics.map (fun d => d.text ++ "\n")) ++
    (if report.isAccepted then "OK\n" else "")

/-- The records of the current run. -/
def runRecords (s : Session) : List TraceRecord := s.tracer.ring.ofRun s.tracer.run

end Session

end Syntagma
