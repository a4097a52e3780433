import Syntagma.Analysis.Descent
import Syntagma.Analysis.Outcome
import Syntagma.Analysis.WorkList
import Syntagma.Fault
import Syntagma.Options

/-! The search for a derivation, depth first. It ends with the first derivation found, when no
frames are left, or when a frame is too deep. -/

namespace Syntagma

namespace Search

variable {P : Type}

/-- The frames still to be visited, the next one first. -/
structure Pending (s : Search P) where
  frames : List (Frame P)

instance (s : Search P) : WellFoundedRelation (Pending s) where
  rel a b := Replaces s.Below a.frames b.frames
  wf := InvImage.wf _ (Replaces.wellFounded s.below_wellFounded)

/-- How a search ends. -/
inductive Verdict (P : Type) where
  | accepted
  | undefined (token : Token) (place : P)
  | tooDeep
  | exhausted

/-- What a search leaves behind; lists are kept with the latest first. -/
structure Log (P : Type) where
  steps : Nat
  progress : List (Progress P)
  events : List TraceEvent

namespace Log

def empty : Log P := ⟨0, [], []⟩

def add (log : Log P) (v : Visit P) : Log P :=
  ⟨log.steps + 1, v.progress.reverse ++ log.progress, v.events.reverse ++ log.events⟩

end Log

/-- Visits the frames, those that follow a visit before the others. -/
def run (s : Search P) (frames : List (Frame P)) (log : Log P) : Verdict P × Log P :=
  match frames with
  | [] => (.exhausted, log)
  | f :: rest =>
    let v := s.visit f
    match _h : v.next with
    | .accepted => (.accepted, log.add v)
    | .undefined token => (.undefined token f.place, log.add v)
    | .tooDeep => (.tooDeep, log.add v)
    | .frames new => s.run (new ++ rest) (log.add v)
termination_by (⟨frames⟩ : Pending s)
decreasing_by exact .intro (fun _ hg => below_of_visit _h hg)

/-- The outcome that a verdict stands for. -/
def outcome (s : Search P) (log : Log P) : Verdict P → Except Fault Outcome
  | .accepted => .ok (.accepted log.steps)
  | .undefined token place =>
    .ok (.rejected (.undefinedToken .syntactic token (Diagnosis.expectedAt s.cursor [place])))
  | .tooDeep => .error (.of (.depthExceeded s.maxDepth))
  | .exhausted => .ok (.rejected (Diagnosis.diagnose s.cursor s.tokens log.progress.reverse))

/-- Searches from the start of the grammar and the first token. -/
def search (s : Search P) : Except Fault Outcome × List TraceEvent :=
  if s.tokens.isEmpty then (.ok (.rejected .noTokens), [])
  else match s.enter? 0 s.cursor.start .empty 0 with
    | none => (.error (.of (.depthExceeded s.maxDepth)), [])
    | some first =>
      let (verdict, log) := s.run [first] .empty
      (s.outcome log verdict, log.events.reverse)

end Search

/-- Decides whether the tokens are a sentence. Undefined tokens end the analysis or are left out.
The last event is the verdict, if there is one. -/
def Cursor.analyze {P : Type} (cursor : Cursor P) (options : AnalysisOptions)
    (tokens : List Token) : Except Fault Outcome × List TraceEvent :=
  let tokens := if options.ignoreUndefined then tokens.filter (fun t => !t.isUndefined) else tokens
  match Search.search ⟨cursor, tokens.toArray, options.maxDepth⟩ with
  | (.ok outcome, events) => (.ok outcome, events ++ [outcome.event])
  | (.error fault, events) => (.error fault, events)

end Syntagma
