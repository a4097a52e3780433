import Syntagma.Analysis.Cursor
import Syntagma.Diagnostic
import Syntagma.Dictionary

/-! Diagnosis of a rejected script. Each branch of the search notes how far it got; what is
reported is the furthest place, with everything that some branch could have read there. -/

namespace Syntagma

/-- How far one branch got: the character offset, the token there unless the script has ended,
and the position that says what was expected, unless only the end of the script was. -/
structure Progress (P : Type) where
  offset : Nat
  token : Option Nat
  place : Option P
deriving DecidableEq, Inhabited

namespace Diagnosis

variable {P : Type}

/-- Names in order, each once. -/
def sortedNames (names : List String) : List String :=
  (Dictionary.ofList (names.map (fun name => (name, ())))).keys

def expectedAt (cursor : Cursor P) (places : List P) : List String :=
  sortedNames (places.flatMap cursor.expected)

def furthest (progress : List (Progress P)) : Nat := progress.foldl (fun n e => max n e.offset) 0

def atFurthest (progress : List (Progress P)) : List (Progress P) :=
  let offset := furthest progress
  progress.filter (fun e => e.offset == offset)

def listedText (expected : List String) : String :=
  if expected.isEmpty then "end of script" else Diagnostic.expectedText expected

/-- The first token met at the furthest place, if the script had not ended there. -/
def offending? (tokens : Array Token) (progress : List (Progress P)) : Option Token :=
  ((atFurthest progress).findSome? (·.token)).bind (fun i => tokens[i]?)

def diagnose (cursor : Cursor P) (tokens : Array Token) (progress : List (Progress P)) :
    Diagnostic :=
  let expected := expectedAt cursor ((atFurthest progress).filterMap (·.place))
  let listed := listedText expected
  match offending? tokens progress with
  | some token =>
    ⟨.syntactic, .unexpectedToken, "Unexpected token " ++ token.text ++ ". Expected: " ++ listed,
      [token], furthest progress, expected⟩
  | none =>
    ⟨.syntactic, .unexpectedEndOfScript, "Unexpected end of script. Expected: " ++ listed,
      tokens.back?.toList, furthest progress, expected⟩

end Diagnosis

end Syntagma
