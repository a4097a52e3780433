import Std.Data.HashMap
import Syntagma.Automaton.Finite
import Syntagma.Symbol.Narrowing

/-! States under construction. State 0 is the root at which every token starts. -/

namespace Syntagma

structure DraftState where
  links : Links
  token : Option AcceptToken
deriving DecidableEq, Inhabited

/-- The states built so far. -/
abbrev Arena := Array DraftState

namespace Arena

def root : StateId := 0

/-- An arena with nothing but the root. -/
def initial : Arena := #[⟨.empty, none⟩]

def linksOf (a : Arena) (state : StateId) : Links := (a[state]?.map (·.links)).getD .empty

def tokenOf (a : Arena) (state : StateId) : Option AcceptToken := a[state]?.bind (·.token)

def link? (a : Arena) (state : StateId) (key : String) : Option StateId :=
  (a.linksOf state).get? key

def setLink (a : Arena) (state : StateId) (key : String) (target : StateId) : Arena :=
  a.modify state (fun s => { s with links := s.links.insert key target })

def setToken (a : Arena) (state : StateId) (token : AcceptToken) : Arena :=
  a.modify state (fun s => { s with token := some token })

/-- The state that `key` leads to, made if there is none yet. -/
def follow (a : Arena) (state : StateId) (key : String) : StateId × Arena :=
  match a.link? state key with
  | some next => (next, a)
  | none => (a.size, setLink (a.push ⟨.empty, none⟩) state key a.size)

/-- The end of the path that the keys spell, made as far as it is missing. -/
def followAll (a : Arena) (state : StateId) : List String → StateId × Arena
  | [] => (state, a)
  | key :: rest =>
    let (next, a) := a.follow state key
    followAll a next rest

/-- Gives the state a token, unless it has one already. -/
def offerToken (a : Arena) (state : StateId) (token : AcceptToken) : Arena :=
  if (a.tokenOf state).isSome then a else a.setToken state token

/-! ### Merging -/

/-- The merged state of each pair merged so far. -/
abbrev Merged := Std.HashMap (StateId × StateId) StateId

/-- Makes a state that behaves like both `primary` and `secondary`; where both accept, the token
of `primary` counts. Pairs of states reached by the same keys are merged in turn. -/
def mergeWithin : Nat → StateId → StateId → Arena → Merged → StateId × Arena × Merged
  | 0, primary, _, a, memo => (primary, a, memo)
  | depth + 1, primary, secondary, a, memo =>
    match memo[(primary, secondary)]? with
    | some done => (done, a, memo)
    | none =>
      let merged := a.size
      let first := a.linksOf primary
      let token := a.tokenOf primary <|> a.tokenOf secondary
      let (links, a, memo) := (a.linksOf secondary).entries.foldl
        (fun (links, a, memo) (key, target) =>
          match first.get? key with
          | none => (links.insert key target, a, memo)
          | some existing =>
            if existing = target then (links, a, memo)
            else
              let (nested, a, memo) := mergeWithin depth existing target a memo
              (links.insert key nested, a, memo))
        (first, a.push ⟨.empty, none⟩, memo.insert (primary, secondary) merged)
      (merged, a.modify merged (fun _ => ⟨links, token⟩), memo)

/-- Merging goes only through states that exist at its start, so there are no more pairs than
the square of their number. -/
def merge (primary secondary : StateId) (a : Arena) (memo : Merged) : StateId × Arena × Merged :=
  mergeWithin (a.size * a.size + 1) primary secondary a memo

/-! ### Narrowed links -/

/-- Adds, beside the link of a narrowed class, a link for one character the class has lost. -/
def addNarrowedLink (state target : StateId) (key : String) (a : Arena) (memo : Merged) :
    Arena × Merged :=
  match a.link? state key with
  | none => (a.setLink state key target, memo)
  | some existing =>
    if existing = target then (a, memo)
    else
      let (merged, a, memo) := merge existing target a memo
      (a.setLink state key merged, memo)

/-- Does so for every lost character of every link that the state has at first. -/
def widenState (removed : Dictionary String (List Char)) (state : StateId) (a : Arena)
    (memo : Merged) : Arena × Merged :=
  (a.linksOf state).entries.foldl (fun (a, memo) (key, target) =>
    ((removed.get? key).getD []).foldl (fun (a, memo) c =>
      addNarrowedLink state target (String.singleton c) a memo) (a, memo)) (a, memo)

/-- Goes through the states in order, the new ones included, for at most `steps` states. -/
def widenFrom (removed : Dictionary String (List Char)) :
    Nat → StateId → Arena → Merged → Option Arena
  | 0, _, _, _ => none
  | steps + 1, state, a, memo =>
    if state < a.size then
      let (a, memo) := widenState removed state a memo
      widenFrom removed steps (state + 1) a memo
    else some a

/-- How many states widening may come to. -/
def widenLimit : Nat := 0x100000

/-- Makes every transition of a narrowed class hold for the characters that the class has lost.
Nothing if merging makes more and more states. -/
def widen (removed : Dictionary String (List Char)) (a : Arena) : Option Arena :=
  widenFrom removed widenLimit 0 a ∅

end Arena

end Syntagma
