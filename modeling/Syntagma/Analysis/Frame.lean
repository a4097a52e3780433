import Syntagma.Analysis.Diagnosis
import Syntagma.Trace.Event

/-! The steps of the search for a derivation. A frame is a position in the grammar with the
positions to resume later; visiting it gives the frames that can follow. -/

namespace Syntagma

/-- Where a branch of the search stands: the next token, the position, the positions to resume,
and the moves made since the last token. -/
structure Frame (P : Type) where
  token : Nat
  place : P
  stack : Stack P
  idle : Nat
deriving Inhabited

structure Search (P : Type) where
  cursor : Cursor P
  tokens : Array Token
  maxDepth : Nat

namespace Search

variable {P : Type}

/-- The offset behind the last token. -/
def endOffset (s : Search P) : Nat := (s.tokens.back?.map (·.endOffset)).getD 0

/-- What the next token makes of a frame: the end of the search, or progress and frames. -/
inductive TokenMove (P : Type) where
  | accept
  | undefined (token : Token)
  | go (progress : List (Progress P)) (frames : List (Frame P))

def tokenMove (s : Search P) (f : Frame P) : TokenMove P :=
  match s.tokens[f.token]? with
  | none =>
    if f.stack.isEmpty && s.cursor.interruptable f.place then .accept
    else .go [⟨s.endOffset, none, some f.place⟩] []
  | some t =>
    match t.id with
    | none => .undefined t
    | some id =>
      let here : Progress P := ⟨t.position.offset, some f.token, some f.place⟩
      match s.cursor.step f.place id with
      | none => .go [here] []
      | some (some next) => .go [here] [⟨f.token + 1, next, f.stack, 0⟩]
      | some none =>
        match f.stack.pop? with
        | some (top, rest) => .go [here] [⟨f.token + 1, top, rest, 0⟩]
        | none =>
          match s.tokens[f.token + 1]? with
          | none => .accept
          | some trailing => .go [here, ⟨trailing.position.offset, some (f.token + 1), none⟩] []

/-- The frame for a position that is entered, with its loop on the stack; nothing if the stack or
the run of moves without a token is too long. -/
def enter? (s : Search P) (token : Nat) (place : P) (stack : Stack P) (idle : Nat) :
    Option (Frame P) :=
  let stack := stack.pushAll (s.cursor.recursion place)
  if stack.size > s.maxDepth || idle > s.maxDepth then none else some ⟨token, place, stack, idle⟩

def dive? (s : Search P) (f : Frame P) (d : Dive P) : Option (Frame P) :=
  s.enter? f.token d.entered (f.stack.pushAll d.continuation) (f.idle + 1)

/-- Makes the dives in turn, up to the first that is too deep. -/
def diveAll (s : Search P) (f : Frame P) : List (Dive P) → List TraceEvent × Option (List (Frame P))
  | [] => ([], some [])
  | d :: rest =>
    match s.dive? f d with
    | none => ([.dive f.token d.node], none)
    | some g =>
      let (events, frames) := s.diveAll f rest
      (.dive f.token d.node :: events, frames.map (g :: ·))

/-- The frame that goes on behind a position where the derivation may end. -/
def leave (s : Search P) (f : Frame P) : List (Frame P) :=
  if s.cursor.interruptable f.place then
    match f.stack.pop? with
    | some (top, rest) => [⟨f.token, top, rest, f.idle + 1⟩]
    | none => []
  else []

/-- How the search goes on after a visit. -/
inductive Next (P : Type) where
  | accepted
  | undefined (token : Token)
  | tooDeep
  | frames (frames : List (Frame P))

structure Visit (P : Type) where
  progress : List (Progress P)
  events : List TraceEvent
  next : Next P

/-- Visits a frame: the next token is tried first, then the dives in order, then the end. -/
def visit (s : Search P) (f : Frame P) : Visit P :=
  match s.tokenMove f with
  | .accept => ⟨[], [], .accepted⟩
  | .undefined token => ⟨[], [], .undefined token⟩
  | .go progress moved =>
    match s.diveAll f (s.cursor.dives f.place) with
    | (events, none) => ⟨progress, events, .tooDeep⟩
    | (events, some dived) =>
      let frames := moved ++ dived ++ s.leave f
      ⟨progress, if frames.isEmpty then events ++ [.backtrack f.token] else events, .frames frames⟩

end Search

end Syntagma
