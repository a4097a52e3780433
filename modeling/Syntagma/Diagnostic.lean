import Syntagma.Token

/-! Problems found in a script. They are values handed back to the caller, so one bad script
does not end a session. -/

namespace Syntagma

/-- The stage a diagnostic comes from. -/
inductive DiagnosticTag where
  | lexical
  | syntactic
  | system
deriving DecidableEq, Inhabited, Repr

def DiagnosticTag.text : DiagnosticTag → String
  | .lexical => "lexical"
  | .syntactic => "syntax"
  | .system => "system"

inductive DiagnosticKind where
  | emptyScript
  | noTokens
  | undefinedToken
  | unexpectedToken
  | unexpectedEndOfScript
deriving DecidableEq, Inhabited, Repr

/-- A problem with the tokens it concerns, its character offset, and the sorted names the
grammar would have accepted. -/
structure Diagnostic where
  tag : DiagnosticTag
  kind : DiagnosticKind
  message : String
  tokens : List Token
  position : Nat
  expected : List String
deriving DecidableEq, Inhabited, Repr

namespace Diagnostic

def emptyScript : Diagnostic :=
  ⟨.lexical, .emptyScript, "Token parser received an empty script", [], 0, []⟩

def noTokens : Diagnostic :=
  ⟨.system, .noTokens, "Syntax analyzer received no tokens", [], 0, []⟩

/-- A token that was not recognized, as the given stage reports it. -/
def undefinedToken (tag : DiagnosticTag) (token : Token) (expected : List String) : Diagnostic :=
  ⟨tag, .undefinedToken, "Undefined token " ++ token.text, [token], token.position.offset, expected⟩

def undefinedLexeme (token : Token) : Diagnostic := undefinedToken .lexical token []

def text (d : Diagnostic) : String := "[" ++ d.tag.text ++ "] " ++ d.message

/-- The form in which a message lists the expected names. -/
def expectedText (names : List String) : String := " , ".intercalate names

end Diagnostic

end Syntagma
