import Syntagma.CommandLine

/-! The program: the command over real files and streams. -/

namespace Syntagma

/-- What an error of the system says about a file. -/
def FileProblem.ofError : IO.Error → FileProblem
  | .noFileOrDirectory .. => .missing
  | error => .other (toString error)

instance : Host IO where
  read path := do
    try return .ok (← IO.FS.readBinFile path).toList
    catch error => return .error (.ofError error)
  write path bytes := do
    try
      IO.FS.writeBinFile path bytes.toByteArray
      return .ok ()
    catch error => return .error (.ofError error)
  out text := do
    let stream ← IO.getStdout
    stream.putStr text
    stream.flush
  err text := do
    let stream ← IO.getStderr
    stream.putStr text
    stream.flush

/-- Writes what the console has to say. -/
def showOutput (c : Console) : IO Console := do
  let ((out, err), c) := c.takeOutput
  Host.err err
  Host.out out
  return c

/-- Reads one line for the console; prompts are shown to people only. -/
def readEvent (c : Console) : IO (List ConsoleEvent) := do
  let stream ← IO.getStdin
  if ← stream.isTty then Host.out c.nextPrompt.2
  let line ← stream.getLine
  return if line.isEmpty then [.endOfInput] else Console.linesOf line.toList

/-- Feeds the console until it has finished. -/
partial def converse (c : Console) : IO Unit := do
  let c ← showOutput c
  if c.finished then Host.out "\n"
  else converse ((← readEvent c).foldl Console.feed c)

end Syntagma

open Syntagma in
def main (args : List String) : IO UInt32 := do
  match ← CommandLine.run args with
  | .done accepted => return if accepted then 0 else 1
  | .console c =>
    converse c
    return 0
