import Syntagma.Automaton.Finite
import Syntagma.Diagnostic
import Syntagma.Grammar.Basic
import Syntagma.Options
import Syntagma.Text.Blank
import Syntagma.Trace.Event

/-! Tokenization. The script is read character by character. A character that has a link from the
current state joins the token being read; any other ends that token and is tried again from the
start. A character that has no link from the start either is a token of its own, undefined,
unless it belongs to a class or separates tokens. -/

namespace Syntagma

/-- The tokens of a script and the lexical problems in it. -/
structure Lexed where
  tokens : List Token
  diagnostics : List Diagnostic
deriving DecidableEq, Inhabited

def Lexed.isClean (l : Lexed) : Bool := l.diagnostics.isEmpty

structure Lexer where
  grammar : Grammar
  automaton : FiniteAutomaton
  options : LexerOptions

/-- How far a script has been read. Lists are kept with the latest first. -/
structure Reading where
  state : StateId
  /-- The characters of the token being read. -/
  lexeme : List Char
  cursor : Position
  tokens : List Token
  events : List TraceEvent
deriving Inhabited

namespace Lexer

def start (lexer : Lexer) : Reading := ⟨lexer.automaton.start, [], .start, [], []⟩

/-- The place behind a character. A tab widens the column, a line feed adds a row and leaves the
column, a carriage return clears the column. -/
def advance (options : LexerOptions) (p : Position) (c : Char) : Position :=
  let p := { p with offset := p.offset + 1 }
  if c = '\t' then { p with column := Position.word (p.column + options.tabWidth) }
  else if c = '\n' then { p with row := p.row + 1 }
  else if c = '\r' then { p with column := 0 }
  else { p with column := Position.word (p.column + 1) }

/-- Names what was read: a listed terminal first, then the defined token that the state accepts,
else it is undefined. -/
def resolve (lexer : Lexer) (text : String) (state : StateId) (position : Position) : Token :=
  let g := lexer.grammar
  match g.terminalByName? text with
  | some id =>
    let data := (g.node? id).bind (·.terminal?)
    ⟨text, some id, (data.map (·.classId)).getD .unclassified, position⟩
  | none =>
    match lexer.automaton.accepted? state with
    | some accepted =>
      if accepted.className = lexer.automaton.classTable.unclassifiedName then
        .undefined text position
      else match g.tokenByName? accepted.name with
        | some id =>
          let tag := (g.node? id).bind (·.tokenTag?)
          ⟨text, some id, (tag.map (·.classId)).getD .unclassified, position⟩
        | none => .undefined text position
    | none => .undefined text position

def emit (r : Reading) (token : Token) : Reading :=
  { r with tokens := token :: r.tokens, events := .tokenEmitted token :: r.events }

/-- Ends the token being read. -/
def finishToken (lexer : Lexer) (r : Reading) : Reading :=
  let token :=
    lexer.resolve (String.ofList r.lexeme.reverse) r.state (r.cursor.back r.lexeme.length)
  { emit r token with state := lexer.automaton.start, lexeme := [] }

/-- Adds a character to the token being read. -/
def take (r : Reading) (c : Char) (next : StateId) : Reading :=
  { r with
    state := next
    lexeme := c :: r.lexeme
    events := .lexerStep c r.state (some next) :: r.events }

/-- Passes over a character that no token begins with. -/
def skip (lexer : Lexer) (r : Reading) (c : Char) : Reading :=
  match lexer.automaton.classTable.symbolInfo c with
  | .undefined => emit r (.undefined (String.singleton c) r.cursor)
  | _ => r

/-- Reads a character while no token is being read. -/
def begin (lexer : Lexer) (r : Reading) (c : Char) : Reading :=
  match lexer.automaton.step? r.state c with
  | some next => take r c next
  | none => lexer.skip r c

/-- Reads a character and moves the cursor behind it. -/
def feed (lexer : Lexer) (r : Reading) (c : Char) : Reading :=
  let read :=
    if r.lexeme.isEmpty then lexer.begin r c
    else match lexer.automaton.step? r.state c with
      | some next => take r c next
      | none =>
        lexer.begin (lexer.finishToken { r with events := .lexerStep c r.state none :: r.events }) c
  { read with cursor := advance lexer.options read.cursor c }

/-- Ends the token that the end of the script cuts off. -/
def finish (lexer : Lexer) (r : Reading) : Reading :=
  if r.lexeme.isEmpty then r else lexer.finishToken r

def readAll (lexer : Lexer) (script : List Char) : Reading :=
  lexer.finish (script.foldl lexer.feed lexer.start)

/-- The tokens of a script, with one diagnostic for each undefined one, and what happened on the
way. A script of nothing but white space has one diagnostic and no tokens. -/
def run (lexer : Lexer) (script : String) : Lexed × List TraceEvent :=
  if Text.isBlankText script then (⟨[], [.emptyScript]⟩, [])
  else
    let r := lexer.readAll script.toList
    let tokens := r.tokens.reverse
    (⟨tokens, (tokens.filter (·.isUndefined)).map .undefinedLexeme⟩, r.events.reverse)

end Lexer

end Syntagma
