import Syntagma.Artifacts.Bytes
import Syntagma.Host
import Syntagma.Session

/-! Grammars and artifacts in files. -/

namespace Syntagma

namespace Session

/-- Compiles the description in a file. What is wrong with the description itself is reported
with the path. -/
def ofSource (path xml : String) (options : Options) (tracer : Tracer) :
    Except Fault Session × Tracer :=
  match GrammarDescription.ofXml xml with
  | .error fault => (.error (fault.fromSource path), tracer)
  | .ok description =>
    match Grammar.compile description options.grammar with
    | .ok g => ofGrammar g options tracer
    | .error fault => (.error fault, tracer)

def load {m : Type → Type} [Monad m] [Host m] (path : String) (options : Options)
    (tracer : Tracer) : m (Except Fault Session × Tracer) := do
  match ← Host.readText path with
  | .ok xml => return ofSource path xml options tracer
  | .error problem => return (.error (.of (.io problem.text)), tracer)

end Session

namespace Artifacts

/-- The failure of an action on a file. -/
def fileFault (action path : String) (problem : FileProblem) : Fault :=
  .of (.io ("failed to " ++ action ++ " '" ++ path ++ "': " ++ problem.text))

/-- A directory can be opened, but not read. -/
def readAction : FileProblem → String
  | .isDirectory => "read file"
  | _ => "open file"

/-- How many bytes are gathered before they are handed to the system. -/
def gatheredBytes : Nat := 8192

/-- A file that takes nothing can be created. That it is full shows when `count` bytes are handed
to the system: at the end, if they could all be gathered before. -/
def writeAction (count : Nat) : FileProblem → String
  | .noSpace => if count < gatheredBytes then "flush file" else "write to file"
  | _ => "create file"

def save {m : Type → Type} [Monad m] [Host m] (a : Artifacts) (path : String) :
    m (Except Fault Unit) := do
  let bytes := a.toBytes
  match ← Host.write path bytes with
  | .ok () => return .ok ()
  | .error problem => return .error (fileFault (writeAction bytes.length problem) path problem)

def load {m : Type → Type} [Monad m] [Host m] (path : String) : m (Except Fault Artifacts) := do
  match ← Host.read path with
  | .ok bytes => return ofBytes bytes
  | .error problem => return .error (fileFault (readAction problem) path problem)

end Artifacts

end Syntagma
