import Syntagma.Options
import Syntagma.Text.Number

/-! The arguments of the command. -/

namespace Syntagma

/-- What a command line asks for. -/
structure Invocation where
  grammar : Option String := none
  scripts : List String := []
  options : Options := {}
  help : Bool := false
  version : Bool := false
  trace : Bool := false
  dumpGrammar : Bool := false
  dumpFactorized : Bool := false
  dumpTokens : Bool := false
  /-- Where the artifacts are to be saved. -/
  savePath : Option String := none
deriving DecidableEq, Inhabited

namespace Invocation

def setGrammar (i : Invocation) (f : GrammarOptions → GrammarOptions) : Invocation :=
  { i with options := { i.options with grammar := f i.options.grammar } }

def setAnalysis (i : Invocation) (f : AnalysisOptions → AnalysisOptions) : Invocation :=
  { i with options := { i.options with analysis := f i.options.analysis } }

def setTabWidth (i : Invocation) (width : Nat) : Invocation :=
  { i with options := { i.options with lexer := ⟨width⟩ } }

/-- The options that stand alone. -/
def flag? (i : Invocation) (arg : String) : Option Invocation :=
  if arg = "-h" ∨ arg = "--help" then some { i with help := true }
  else if arg = "-V" ∨ arg = "--version" then some { i with version := true }
  else if arg = "--keep-left-recursion" then
    some (i.setGrammar (fun o => { o with removeLeftRecursion := false }))
  else if arg = "--include-token-terminals" then
    some (i.setGrammar (fun o => { o with includeTokenTerminals := true }))
  else if arg = "--ignore-undefined" then
    some (i.setAnalysis (fun o => { o with ignoreUndefined := true }))
  else if arg = "--trace" then some { i with trace := true }
  else if arg = "--dump-grammar" then some { i with dumpGrammar := true }
  else if arg = "--dump-factorized" then some { i with dumpFactorized := true }
  else if arg = "--dump-tokens" then some { i with dumpTokens := true }
  else none

def setStrategy (i : Invocation) (name : String) : Except String Invocation :=
  match Strategy.ofText? name with
  | some strategy => .ok (i.setAnalysis (fun o => { o with strategy := strategy }))
  | none => .error (Strategy.unknownText name)

/-- Widths are numbers of 64 bits. -/
def setTabWidthText (i : Invocation) (width : String) : Except String Invocation :=
  match Text.numberBelow? 0x10000000000000000 width.toList with
  | some n => .ok (i.setTabWidth n)
  | none => .error ("invalid --tab-width value: " ++ width)

/-- The options that take the next argument as their value. -/
def valued? (arg : String) : Option (Invocation → String → Except String Invocation) :=
  if arg = "--strategy" then some setStrategy
  else if arg = "--tab-width" then some setTabWidthText
  else if arg = "--save-artifacts" then some (fun i path => .ok { i with savePath := some path })
  else none

/-- The first path is the grammar, the others are scripts. -/
def addPath (i : Invocation) (path : String) : Invocation :=
  match i.grammar with
  | none => { i with grammar := some path }
  | some _ => { i with scripts := i.scripts ++ [path] }

def isOption (arg : String) : Bool := arg.toList.head? = some '-'

/-- Reads the arguments from left to right up to the first wrong one. -/
def addAll (i : Invocation) : List String → Except String Invocation
  | [] => .ok i
  | arg :: rest =>
    match i.flag? arg with
    | some i => i.addAll rest
    | none =>
      match valued? arg, rest with
      | some set, value :: rest => (set i value).bind (fun i => i.addAll rest)
      | some _, [] => .error (arg ++ " requires a value")
      | none, rest =>
        if isOption arg then .error ("unknown option: " ++ arg) else (i.addPath arg).addAll rest

def ofArguments (args : List String) : Except String Invocation := addAll {} args

end Invocation

end Syntagma
