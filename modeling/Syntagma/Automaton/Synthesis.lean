import Syntagma.Automaton.Arena
import Syntagma.Fault
import Syntagma.Grammar.Basic
import Syntagma.Symbol.Coverage

/-! Synthesis of the lexer automaton. Each defined token is walked through its trie from the
root; mediums inside it are entered in place, and a medium met again becomes a loop, closed when
the token is done. Then come paths for the terminals that no token reads, for characters taken
out of classes, and for single delimiters. -/

namespace Syntagma

/-- The states and the class table in the course of synthesis. -/
structure Synthesis where
  narrowing : Narrowing
  arena : Arena
deriving Inhabited

namespace Synthesis

def ofTable (table : ClassTable) : Synthesis := ⟨.ofTable table, .initial⟩

def follow (s : Synthesis) (state : StateId) (key : String) : StateId × Synthesis :=
  let (next, arena) := s.arena.follow state key
  (next, { s with arena := arena })

/-- Lets a state accept a token; no state accepts tokens of two names. -/
def accept (s : Synthesis) (state : StateId) (token : AcceptToken) : Except Fault Synthesis :=
  match s.arena.tokenOf state with
  | some existing =>
    if existing.name = token.name then .ok s
    else .error (.of (.ambiguousState existing.name token.name))
  | none => .ok { s with arena := s.arena.setToken state token }

/-- The end of the path that spells a literal from the root. -/
def literalPath (s : Synthesis) (text : List Char) : StateId × Synthesis :=
  let (keys, narrowing) := s.narrowing.keys text
  let (last, arena) := s.arena.followAll Arena.root keys
  (last, ⟨narrowing, arena⟩)

end Synthesis

/-! ### Defined tokens -/

/-- The walk over one token: for each medium entered, the links it made at its entry, or nothing
while it is being walked; and the states at which a medium was met again. -/
structure TokenWalk where
  synthesis : Synthesis
  visited : Dictionary NodeId (Option Links)
  loops : List (StateId × NodeId)
deriving Inhabited

namespace TokenWalk

def accept (w : TokenWalk) (state : StateId) (token : AcceptToken) : Except Fault TokenWalk := do
  let s ← w.synthesis.accept state token
  return { w with synthesis := s }

/-- Follows the keys from `current` and notes the links taken at `state` itself. -/
def spell (state : StateId) :
    StateId → List String → Links → Synthesis → StateId × Links × Synthesis
  | current, [], links, s => (current, links, s)
  | current, key :: rest, links, s =>
    let (target, s) := s.follow current key
    spell state target rest (if current = state then links.insert key target else links) s

/-- Takes a terminal at the head of a case of a trie entered at `state`. -/
def spellTerminal (w : TokenWalk) (state : StateId) (text : String) (links : Links) :
    StateId × Links × TokenWalk :=
  let (keys, narrowing) := w.synthesis.narrowing.keys text.toList
  let (last, links, s) := spell state state keys links { w.synthesis with narrowing := narrowing }
  (last, links, { w with synthesis := s })

/-- Takes a class at the head of a case. -/
def takeClass (w : TokenWalk) (state : StateId) (key : String) (links : Links) :
    StateId × Links × TokenWalk :=
  let (target, s) := w.synthesis.follow state key
  (target, links.insert key target, { w with synthesis := s })

/-- Notes that a medium was met again. -/
def meetAgain (g : Grammar) (accept : AcceptToken) (w : TokenWalk) (state : StateId)
    (medium : NodeId) : Except Fault TokenWalk := do
  let w ← if (g.trie? medium).any (·.interruptable) then w.accept state accept else .ok w
  return { w with loops := w.loops ++ [(state, medium)] }

/-- Walks one level of a trie from `state` and gives the links taken at `state` itself. First
come the terminals, then the mediums, then the classes. -/
def walkTrie (g : Grammar) (accept : AcceptToken) :
    Nat → Trie → StateId → TokenWalk → Except Fault (Links × TokenWalk)
  | 0, _, _, _ => .error (.of (.internal "the walk over a token does not end"))
  | depth + 1, trie, state, w => do
    if trie.recursion.isSome then throw (.of (.leftRecursionInToken accept.name))
    let w ← if trie.interruptable then w.accept state accept else .ok w
    let next := fun (next : Option NodeId) (state : StateId) (w : TokenWalk) =>
      match next.bind g.trie? with
      | some trie => (walkTrie g accept depth trie state w).map (·.2)
      | none => w.accept state accept
    let (links, w) ← trie.cases.foldlM (fun (links, w) (head, continuation) =>
      match g.node? head with
      | some n =>
        if n.isTerminal then do
          let (last, links, w) := spellTerminal w state n.name links
          let w ← next continuation last w
          return (links, w)
        else .ok (links, w)
      | none => .ok (links, w)) ((.empty : Links), w)
    let (links, w) ← trie.cases.foldlM (fun (links, w) (head, continuation) =>
      match (g.node? head).filter (·.isMedium) with
      | some n =>
        if continuation.isSome then .error (.of (.selfInclusion n.name))
        else if w.visited.contains head then do
          let w ← meetAgain g accept w state head
          return (links, w)
        else do
          let w := { w with visited := w.visited.insert head none }
          let (nested, w) ← walkTrie g accept depth ((g.trie? head).getD .empty) state w
          return (links.insertAll nested.entries,
            { w with visited := w.visited.insert head (some nested) })
      | none => .ok (links, w)) (links, w)
    trie.cases.foldlM (fun (links, w) (head, continuation) =>
      match (g.node? head).map Node.kind with
      | some (.symbolClass data) => do
        let (target, links, w) := takeClass w state data.key links
        let w ← next continuation target w
        return (links, w)
      | some (.factor _) => .error (.of (.leftRecursionInToken accept.name))
      | _ => .ok (links, w)) (links, w)

/-- Copies a link of a loop's medium to a state where the medium was met again. -/
def closeLink (g : Grammar) (state : StateId) (medium : NodeId) (s : Synthesis)
    (link : String × StateId) : Except Fault Synthesis :=
  match s.arena.link? state link.1 with
  | none => .ok { s with arena := s.arena.setLink state link.1 link.2 }
  | some existing =>
    if existing = link.2 then .ok s else .error (.of (.nonRegularLoop (g.nameOf medium) link.1))

/-- Closes the loops in the order in which they were met. -/
def closeLoops (g : Grammar) (w : TokenWalk) : Except Fault Synthesis :=
  w.loops.foldlM (fun s (state, medium) =>
    match w.visited.get? medium with
    | some (some links) => links.entries.foldlM (closeLink g state medium) s
    | _ => .error (.of (.internal ("loop to " ++ g.textOf medium ++ " was never closed"))))
    w.synthesis

end TokenWalk

namespace Synthesis

/-- Adds the states of a defined token. A walk enters each medium once and no continuation
passes a factor twice, so the number of nodes bounds its depth. -/
def addToken (g : Grammar) (s : Synthesis) (n : Node) : Except Fault Synthesis :=
  match n.tokenTag? with
  | none => .error (.of (.internal (n.text ++ " is not a defined token")))
  | some tag => do
    let w : TokenWalk := ⟨s, Dictionary.empty.insert n.id none, []⟩
    let (links, w) ← TokenWalk.walkTrie g ⟨n.name, tag.className⟩ (g.nodes.size + 1)
      ((g.trie? n.id).getD .empty) Arena.root w
    TokenWalk.closeLoops g { w with visited := w.visited.insert n.id (some links) }

/-! ### Generic terminals -/

/-- The next state while a text is read that may go through narrowed classes: a character that
was taken out of a class still follows that class. -/
def readStep (s : Synthesis) (state : StateId) (c : Char) : Option StateId :=
  match (s.narrowing.table.symbolInfo c).className? with
  | none => none
  | some name =>
    match s.arena.link? state name with
    | some next => some next
    | none =>
      (s.narrowing.removed.entries.find? (fun e => e.2.contains c)).bind
        (fun e => s.arena.link? state e.1)

/-- Whether the text leads from the root to a state that accepts a token. -/
def readsWhole (s : Synthesis) (text : List Char) : Bool :=
  match text.foldlM (s.readStep) Arena.root with
  | some state => (s.arena.tokenOf state).isSome
  | none => false

def genericToken (g : Grammar) (text : String) : AcceptToken :=
  ⟨text, g.classTable.unclassifiedName⟩

/-- Adds the path of a terminal, unless it has one or, inside a declared class, some token reads
it whole. `done` are the texts that have a path. -/
def addTerminal (g : Grammar) (s : Synthesis) (done : List String) (text : String) :
    Except Fault (Synthesis × List String) :=
  if done.contains text then .ok (s, done)
  else if !g.unclassifiedTerminals.contains text && s.readsWhole text.toList then .ok (s, done)
  else do
    let (last, s) := s.literalPath text.toList
    let s ← s.accept last (genericToken g text)
    return (s, done ++ [text])

/-- The terminals that may need a path: those outside the classes, then those inside by name. -/
def genericTerminals (g : Grammar) : List String :=
  g.unclassifiedTerminals ++
    (g.listedTerminals.filter (fun n => n.terminal?.any (fun data => !data.isControl))).map (·.name)

/-- Adds a path for each pending character, the last one first. A path may promote further
characters. A token accepted at its end stays. -/
def addPromoted (g : Grammar) : Nat → List Char → Synthesis → List String → Synthesis
  | 0, _, s, _ => s
  | steps + 1, pending, s, done =>
    match pending.getLast? with
    | none => s
    | some c =>
      let text := String.singleton c
      let (s, done) :=
        if done.contains text then (s, done)
        else
          let (last, s) := s.literalPath [c]
          ({ s with arena := s.arena.offerToken last (genericToken g text) }, done ++ [text])
      let (promoted, narrowing) := s.narrowing.takePromoted
      addPromoted g steps (pending.dropLast ++ promoted) { s with narrowing := narrowing } done

/-- Adds the paths of the terminals, then those of the characters that these promote. The path of a
character promotes this character at most, and one with a path is passed over: two steps for each
pending character suffice. -/
def addTerminals (g : Grammar) (s : Synthesis) : Except Fault Synthesis := do
  let (s, done) ← (genericTerminals g).foldlM (fun (s, done) text => addTerminal g s done text)
    (s, [])
  let (pending, narrowing) := s.narrowing.takePromoted
  return addPromoted g (2 * pending.length + 1) pending { s with narrowing := narrowing } done

/-- Adds the state of the single delimiters. -/
def addSingleDelimiter (g : Grammar) (s : Synthesis) : Synthesis :=
  let (target, s) := s.follow Arena.root singleDelimiterName
  { s with arena := s.arena.offerToken target (genericToken g g.classTable.unclassifiedName) }

/-- All states of the automaton, before minimization. -/
def ofGrammar (g : Grammar) : Except Fault Synthesis := do
  let s ← g.tokens.foldlM (addToken g) (ofTable g.classTable)
  let s ← addTerminals g s
  let s := addSingleDelimiter g s
  match s.arena.widen s.narrowing.removed with
  | some arena => return { s with arena := arena }
  | none => throw (.of (.internal "narrowed classes need too many states"))

end Synthesis

end Syntagma
