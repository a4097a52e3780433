/-! What a command needs from the system it runs on: files by path, and two streams to write
to. -/

namespace Syntagma

/-- Why a file cannot be read or written. -/
inductive FileProblem where
  | missing
  | notDirectory
  | isDirectory
  | noSpace
  | nameTooLong
  | nulInName
  | notText
  | other (description : String)
deriving DecidableEq, Inhabited, Repr

def FileProblem.text : FileProblem → String
  | .missing => "No such file or directory (os error 2)"
  | .notDirectory => "Not a directory (os error 20)"
  | .isDirectory => "Is a directory (os error 21)"
  | .noSpace => "No space left on device (os error 28)"
  | .nameTooLong => "File name too long (os error 36)"
  | .nulInName => "file name contained an unexpected NUL byte"
  | .notText => "stream did not contain valid UTF-8"
  | .other description => description

class Host (m : Type → Type) where
  read : String → m (Except FileProblem (List UInt8))
  write : String → List UInt8 → m (Except FileProblem Unit)
  out : String → m Unit
  err : String → m Unit

namespace Host

/-- The text that bytes stand for. -/
def textOf (bytes : List UInt8) : Except FileProblem String :=
  match String.fromUTF8? bytes.toByteArray with
  | some text => .ok text
  | none => .error .notText

def readText {m : Type → Type} [Monad m] [Host m] (path : String) :
    m (Except FileProblem String) := do
  return (← read path).bind textOf

end Host

end Syntagma
