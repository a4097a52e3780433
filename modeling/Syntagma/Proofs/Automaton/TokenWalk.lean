import Syntagma.Automaton.Synthesis
import Syntagma.Proofs.Fault

/-! The walk over a token, told case by case. The walk is a function with a depth and passes over
the cases of a trie; here it is a relation with a rule for each kind of head, in which the places in
the grammar stand that the walk comes through. -/

namespace Syntagma

namespace TokenWalk

/-- What was read of a case of a medium. -/
structure Place where
  medium : NodeId
  read : List NodeId
deriving DecidableEq

/-- The place behind one more symbol. -/
def Place.past (p : Place) (head : NodeId) : Place := ⟨p.medium, p.read ++ [head]⟩

/-- The class data of a node that is a class. -/
def classOf? (g : Grammar) (id : NodeId) : Option ClassData := (g.node? id).bind (·.class?)

/-- What is left of a walk: a trie to be entered, the heads that are left of one, or what stands
behind a head. -/
inductive Task where
  | level (p : Place) (trie : Trie) (state : StateId)
  | heads (p : Place) (cases : List (NodeId × Option NodeId)) (state : StateId) (links : Links)
  | behind (p : Place) (continuation : Option NodeId) (state : StateId)

namespace Task

/-- The state that a task starts from. -/
def state : Task → StateId
  | .level _ _ state => state
  | .heads _ _ state _ => state
  | .behind _ _ state => state

/-- The links that were taken at this state before. -/
def links : Task → Links
  | .heads _ _ _ links => links
  | _ => .empty

end Task

def isTerminal (g : Grammar) (id : NodeId) : Bool := (g.node? id).any (·.isTerminal)

def isMedium (g : Grammar) (id : NodeId) : Bool := (g.node? id).any (·.isMedium)

theorem exists_trie_of_isMedium {g : Grammar} {id : NodeId} (h : isMedium g id) :
    ∃ n trie, g.node? id = some n ∧ n.isMedium ∧ g.trie? id = some trie := by
  cases hn : g.node? id with
  | none => simp [isMedium, hn] at h
  | some n =>
    have hm : n.isMedium := by simpa [isMedium, hn] using h
    obtain ⟨i, name, execClass, kind⟩ := n
    cases kind with
    | medium data => exact ⟨_, data.trie, rfl, hm, by rw [Grammar.trie?, hn]; rfl⟩
    | _ => cases hm

section Kinds

variable {g : Grammar} {id : NodeId} {n : Node}

theorem isTerminal_of_node? (hn : g.node? id = some n) (ht : n.isTerminal) : isTerminal g id := by
  rw [isTerminal, hn, Option.any_some]
  exact ht

/-- A head is of one kind. -/
theorem not_isMedium_of_isTerminal (h : isTerminal g id) : ¬isMedium g id := by
  obtain ⟨⟨i, name, execClass, kind⟩, hn, ht⟩ := (Option.any_eq_true _ _).1 h
  cases kind with
  | terminal => simp [isMedium, hn, Node.isMedium, Node.medium?]
  | _ => cases ht

theorem classOf?_of_isTerminal (h : isTerminal g id) : classOf? g id = none := by
  obtain ⟨⟨i, name, execClass, kind⟩, hn, ht⟩ := (Option.any_eq_true _ _).1 h
  cases kind with
  | terminal => simp [classOf?, hn, Node.class?]
  | _ => cases ht

theorem classOf?_of_isMedium (h : isMedium g id) : classOf? g id = none := by
  obtain ⟨⟨i, name, execClass, kind⟩, hn, hm⟩ := (Option.any_eq_true _ _).1 h
  cases kind with
  | medium => simp [classOf?, hn, Node.class?]
  | _ => cases hm

end Kinds

/-- The cases in the order in which they are taken. -/
def ordered (g : Grammar) (cases : List (NodeId × Option NodeId)) : List (NodeId × Option NodeId) :=
  cases.filter (fun e => isTerminal g e.1) ++ cases.filter (fun e => isMedium g e.1) ++
    cases.filter (fun e => (classOf? g e.1).isSome)

/-- The walk through a task, from one state of affairs to another, and the links that it takes. -/
inductive Walks (g : Grammar) (accept : AcceptToken) : Task → TokenWalk → Links → TokenWalk → Prop
    where
  | level {p : Place} {trie : Trie} {state : StateId} {w w₁ w₂ : TokenWalk} {links : Links}
    (hr : trie.recursion = none)
    (ha : (if trie.interruptable then w.accept state accept else .ok w) = .ok w₁)
    (h : Walks g accept (.heads p (ordered g trie.cases) state .empty) w₁ links w₂) :
    Walks g accept (.level p trie state) w links w₂
  | done {p : Place} {state : StateId} {links : Links} (w : TokenWalk) :
    Walks g accept (.heads p [] state links) w links w
  | terminal {p : Place} {head : NodeId} {continuation : Option NodeId}
    {rest : List (NodeId × Option NodeId)} {state last : StateId} {links links₁ links₂ : Links}
    {w w₁ w₂ w₃ : TokenWalk} {n : Node} (hn : g.node? head = some n) (ht : n.isTerminal)
    (hs : w.spellTerminal state n.name links = (last, links₁, w₁))
    (hb : Walks g accept (.behind (p.past head) continuation last) w₁ .empty w₂)
    (h : Walks g accept (.heads p rest state links₁) w₂ links₂ w₃) :
    Walks g accept (.heads p ((head, continuation) :: rest) state links) w links₂ w₃
  | again {p : Place} {head : NodeId} {rest : List (NodeId × Option NodeId)} {state : StateId}
    {links links₁ : Links} {w w₁ w₂ : TokenWalk} (hm : isMedium g head)
    (hv : w.visited.contains head) (ha : meetAgain g accept w state head = .ok w₁)
    (h : Walks g accept (.heads p rest state links) w₁ links₁ w₂) :
    Walks g accept (.heads p ((head, none) :: rest) state links) w links₁ w₂
  | enter {p : Place} {head : NodeId} {rest : List (NodeId × Option NodeId)} {state : StateId}
    {links nested links₁ : Links} {w w₁ w₂ : TokenWalk} (hm : isMedium g head)
    (hv : w.visited.contains head = false)
    (hl : Walks g accept (.level ⟨head, []⟩ ((g.trie? head).getD .empty) state)
      { w with visited := w.visited.insert head none } nested w₁)
    (h : Walks g accept (.heads p rest state (links.insertAll nested.entries))
      { w₁ with visited := w₁.visited.insert head (some nested) } links₁ w₂) :
    Walks g accept (.heads p ((head, none) :: rest) state links) w links₁ w₂
  | symbolClass {p : Place} {head : NodeId} {continuation : Option NodeId}
    {rest : List (NodeId × Option NodeId)} {state target : StateId} {links links₁ links₂ : Links}
    {w w₁ w₂ w₃ : TokenWalk} {data : ClassData} (hc : classOf? g head = some data)
    (hs : w.takeClass state data.key links = (target, links₁, w₁))
    (hb : Walks g accept (.behind (p.past head) continuation target) w₁ .empty w₂)
    (h : Walks g accept (.heads p rest state links₁) w₂ links₂ w₃) :
    Walks g accept (.heads p ((head, continuation) :: rest) state links) w links₂ w₃
  | ends {p : Place} {continuation : Option NodeId} {state : StateId} {w w₁ : TokenWalk}
    (hc : continuation.bind g.trie? = none) (ha : w.accept state accept = .ok w₁) :
    Walks g accept (.behind p continuation state) w .empty w₁
  | goes {p : Place} {next : NodeId} {trie : Trie} {state : StateId} {links : Links}
    {w w₁ : TokenWalk} (ht : g.trie? next = some trie)
    (h : Walks g accept (.level p trie state) w links w₁) :
    Walks g accept (.behind p (some next) state) w .empty w₁

/-! ### The function and the relation -/

section Passes

variable (g : Grammar) (accept : AcceptToken)
  (walk : Trie → StateId → TokenWalk → Except Fault (Links × TokenWalk))

/-- What stands behind a head. -/
def walkBehind (continuation : Option NodeId) (state : StateId) (w : TokenWalk) :
    Except Fault TokenWalk :=
  match continuation.bind g.trie? with
  | some trie => (walk trie state w).map (·.2)
  | none => w.accept state accept

def terminalStep (state : StateId) (acc : Links × TokenWalk) (e : NodeId × Option NodeId) :
    Except Fault (Links × TokenWalk) :=
  match g.node? e.1 with
  | some n =>
    if n.isTerminal then do
      let r := spellTerminal acc.2 state n.name acc.1
      let w ← walkBehind g accept walk e.2 r.1 r.2.2
      return (r.2.1, w)
    else .ok acc
  | none => .ok acc

def mediumStep (state : StateId) (acc : Links × TokenWalk) (e : NodeId × Option NodeId) :
    Except Fault (Links × TokenWalk) :=
  match (g.node? e.1).filter (·.isMedium) with
  | some n =>
    if e.2.isSome then .error (.of (.selfInclusion n.name))
    else if acc.2.visited.contains e.1 then do
      let w ← meetAgain g accept acc.2 state e.1
      return (acc.1, w)
    else do
      let r ← walk ((g.trie? e.1).getD .empty) state
        { acc.2 with visited := acc.2.visited.insert e.1 none }
      return (acc.1.insertAll r.1.entries,
        { r.2 with visited := r.2.visited.insert e.1 (some r.1) })
  | none => .ok acc

def classStep (state : StateId) (acc : Links × TokenWalk) (e : NodeId × Option NodeId) :
    Except Fault (Links × TokenWalk) :=
  match (g.node? e.1).map Node.kind with
  | some (.symbolClass data) => do
    let r := takeClass acc.2 state data.key acc.1
    let w ← walkBehind g accept walk e.2 r.1 r.2.2
    return (r.2.1, w)
  | some (.factor _) => .error (.of (.leftRecursionInToken accept.name))
  | _ => .ok acc

theorem walkTrie_succ (depth : Nat) (trie : Trie) (state : StateId) (w : TokenWalk) :
    walkTrie g accept (depth + 1) trie state w =
      if trie.recursion.isSome then .error (.of (.leftRecursionInToken accept.name))
      else (if trie.interruptable then w.accept state accept else .ok w) >>= fun w =>
        trie.cases.foldlM (terminalStep g accept (walkTrie g accept depth) state)
          ((.empty : Links), w) >>= fun acc =>
        trie.cases.foldlM (mediumStep g accept (walkTrie g accept depth) state) acc >>= fun acc =>
        trie.cases.foldlM (classStep g accept (walkTrie g accept depth) state) acc := by
  rw [walkTrie]
  cases trie.recursion.isSome with
  | true => rfl
  | false => cases trie.interruptable <;> rfl

variable {g accept walk}
variable (hwalk : ∀ {trie state w links w'} (p : Place), walk trie state w = .ok (links, w') →
  Walks g accept (.level p trie state) w links w')

include hwalk in
theorem walks_of_walkBehind {continuation : Option NodeId} {state : StateId} {w w' : TokenWalk}
    (p : Place) (h : walkBehind g accept walk continuation state w = .ok w') :
    Walks g accept (.behind p continuation state) w .empty w' := by
  unfold walkBehind at h
  cases ht : continuation.bind g.trie? with
  | none =>
    rw [ht] at h
    exact .ends ht h
  | some trie =>
    rw [ht] at h
    dsimp only at h
    obtain ⟨next, rfl, hnext⟩ := Option.bind_eq_some_iff.1 ht
    rcases hw : walk trie state w with _ | ⟨links, w₁⟩ <;> rw [hw] at h <;> cases h
    exact .goes hnext (hwalk p hw)

variable {state : StateId} {l more : List (NodeId × Option NodeId)} {acc acc' : Links × TokenWalk}
  {p : Place} {links : Links} {w : TokenWalk}

include hwalk in
theorem walks_of_terminalStep (h : l.foldlM (terminalStep g accept walk state) acc = .ok acc')
    (hmore : Walks g accept (.heads p more state acc'.1) acc'.2 links w) :
    Walks g accept (.heads p (l.filter (fun e => isTerminal g e.1) ++ more) state acc.1) acc.2
      links w := by
  induction l generalizing acc with
  | nil =>
    cases h
    exact hmore
  | cons e l ih =>
    rw [List.foldlM_cons] at h
    obtain ⟨acc₁, hfirst, h⟩ := Fault.bind_eq_ok_iff.1 h
    unfold terminalStep at hfirst
    cases hn : g.node? e.1 with
    | none =>
      rw [hn] at hfirst
      cases hfirst
      rw [List.filter_cons_of_neg (by simp [isTerminal, hn])]
      exact ih h
    | some n =>
      rw [hn] at hfirst
      dsimp only at hfirst
      split at hfirst
      next ht =>
        obtain ⟨w₁, hb, hfirst⟩ := Fault.bind_eq_ok_iff.1 hfirst
        cases hfirst
        rw [List.filter_cons_of_pos (by simp [isTerminal, hn, ht]), List.cons_append]
        exact .terminal hn ht rfl (walks_of_walkBehind hwalk _ hb) (ih h)
      next ht =>
        cases hfirst
        rw [List.filter_cons_of_neg (by simp [isTerminal, hn, ht])]
        exact ih h

include hwalk in
theorem walks_of_mediumStep (h : l.foldlM (mediumStep g accept walk state) acc = .ok acc')
    (hmore : Walks g accept (.heads p more state acc'.1) acc'.2 links w) :
    Walks g accept (.heads p (l.filter (fun e => isMedium g e.1) ++ more) state acc.1) acc.2
      links w := by
  induction l generalizing acc with
  | nil =>
    cases h
    exact hmore
  | cons e l ih =>
    obtain ⟨head, continuation⟩ := e
    rw [List.foldlM_cons] at h
    obtain ⟨acc₁, hfirst, h⟩ := Fault.bind_eq_ok_iff.1 h
    unfold mediumStep at hfirst
    cases hn : (g.node? head).filter (·.isMedium) with
    | none =>
      simp only [hn] at hfirst
      cases hfirst
      rw [List.filter_cons_of_neg]
      · exact ih h
      · cases hnode : g.node? head with
        | none => simp [isMedium, hnode]
        | some n => simpa [isMedium, hnode] using hn
    | some n =>
      simp only [hn] at hfirst
      have hm : isMedium g head := by
        obtain ⟨hnode, hmedium⟩ := Option.filter_eq_some_iff.1 hn
        simp [isMedium, hnode, hmedium]
      rw [List.filter_cons_of_pos (by exact hm), List.cons_append]
      split at hfirst
      · cases hfirst
      next hc =>
      obtain rfl : continuation = none := by simpa using hc
      split at hfirst
      next hv =>
        obtain ⟨w₁, ha, hfirst⟩ := Fault.bind_eq_ok_iff.1 hfirst
        cases hfirst
        exact .again hm hv ha (ih h)
      next hv =>
        obtain ⟨r, hr, hfirst⟩ := Fault.bind_eq_ok_iff.1 hfirst
        cases hfirst
        exact .enter hm (by simpa using hv) (hwalk _ hr) (ih h)

include hwalk in
theorem walks_of_classStep (h : l.foldlM (classStep g accept walk state) acc = .ok acc')
    (hmore : Walks g accept (.heads p more state acc'.1) acc'.2 links w) :
    Walks g accept (.heads p (l.filter (fun e => (classOf? g e.1).isSome) ++ more) state acc.1)
      acc.2 links w := by
  induction l generalizing acc with
  | nil =>
    cases h
    exact hmore
  | cons e l ih =>
    rw [List.foldlM_cons] at h
    obtain ⟨acc₁, hfirst, h⟩ := Fault.bind_eq_ok_iff.1 h
    unfold classStep at hfirst
    split at hfirst
    next data hk =>
      have hc : classOf? g e.1 = some data := by
        obtain ⟨n, hn, hkind⟩ := Option.map_eq_some_iff.1 hk
        simp [classOf?, hn, Node.class?, hkind]
      obtain ⟨w₁, hb, hfirst⟩ := Fault.bind_eq_ok_iff.1 hfirst
      cases hfirst
      rw [List.filter_cons_of_pos (by simp [hc]), List.cons_append]
      exact .symbolClass hc rfl (walks_of_walkBehind hwalk _ hb) (ih h)
    · cases hfirst
    next hclass _ =>
      cases hfirst
      rw [List.filter_cons_of_neg]
      · exact ih h
      · cases hn : g.node? e.1 with
        | none => simp [classOf?, hn]
        | some n =>
          cases hk : n.kind with
          | symbolClass data => exact absurd (by rw [hn, Option.map_some, hk]) (hclass data)
          | _ => simp [classOf?, hn, Node.class?, hk]

end Passes

/-- What the function does, the relation allows, wherever in the grammar the trie stands. -/
theorem walks_of_walkTrie {g : Grammar} {accept : AcceptToken} {depth : Nat} {trie : Trie}
    {state : StateId} {w w' : TokenWalk} {links : Links} (p : Place)
    (h : walkTrie g accept depth trie state w = .ok (links, w')) :
    Walks g accept (.level p trie state) w links w' := by
  induction depth generalizing trie state w links w' p with
  | zero => cases h
  | succ depth ih =>
    rw [walkTrie_succ] at h
    split at h
    · cases h
    next hr =>
    obtain ⟨w₁, ha, h⟩ := Fault.bind_eq_ok_iff.1 h
    obtain ⟨acc₁, hterminals, h⟩ := Fault.bind_eq_ok_iff.1 h
    obtain ⟨acc₂, hmediums, h⟩ := Fault.bind_eq_ok_iff.1 h
    refine .level (by simpa using hr) ha ?_
    have hclasses := walks_of_classStep (fun p => ih p) h (p := p) (.done w')
    have hthen := walks_of_mediumStep (fun p => ih p) hmediums hclasses
    have hall := walks_of_terminalStep (fun p => ih p) hterminals hthen
    simpa [ordered] using hall

end TokenWalk

end Syntagma
