import Mathlib.Data.List.Forall2
import Syntagma.Proofs.Automaton.Paths
import Syntagma.Proofs.Automaton.Recurrence
import Syntagma.Proofs.Grammar.OpenBranches
import Syntagma.Proofs.Grammar.Writing
import Syntagma.Proofs.Symbol.LiteralKeys

/-! The paths that the walk over a token makes. Wherever the walk stands, one path alone leads to
its state, and the texts that this path stands for are written by the token in front of what is
ahead of the walk. It comes to no state with several paths, as these begin no text of the token. So
it accepts only where the token has written a whole text. -/

namespace Syntagma

/-- A narrowed table by whose keys classes and literals are read exactly. -/
structure Narrowing.Exact (g : Grammar) (n : Narrowing) : Prop where
  classes : g.ClassesExact
  clear : g.classTable.Clear g.Spelled
  narrowed : n.Narrowed g.Spelled g.classTable
  spared : n.Spared

/-- The keys stand for the text, one by one. -/
abbrev Narrowing.Reads (n : Narrowing) (keys : List String) (text : List Char) : Prop :=
  List.Forall₂ n.Takes keys text

namespace Narrowing

variable {g : Grammar} {n : Narrowing} {keys more : List String} {text out : List Char}

theorem Exact.reads_literal_iff (h : n.Exact g) (ht : ∀ c ∈ text, g.Spelled c)
    (hs : ∀ c ∈ text, n.Settled c) :
    n.Reads (text.filterMap n.classOf) out ↔ out = g.visible text :=
  h.narrowed.forall₂_takes_literal_iff h.clear h.spared ht hs

theorem Exact.takes_class_iff (h : n.Exact g) {id : NodeId} {data : ClassData}
    (hc : TokenWalk.classOf? g id = some data) {c : Char} :
    n.Takes data.key c ↔ c ∈ data.symbols.toList := by
  obtain ⟨hne, hfound⟩ := h.classes id data hc
  exact h.narrowed.takes_iff_of_class h.clear (fun hnil => hne (String.toList_eq_nil_iff.1 hnil)) hfound

theorem Exact.exists_takes_class (h : n.Exact g) {id : NodeId} {data : ClassData}
    (hc : TokenWalk.classOf? g id = some data) : ∃ c, n.Takes data.key c := by
  have hne : data.symbols.toList ≠ [] := fun hnil =>
    (h.classes id data hc).1 (String.toList_eq_nil_iff.1 hnil)
  exact (List.exists_mem_of_ne_nil _ hne).imp (fun c hmem => (h.takes_class_iff hc).2 hmem)

/-- What two paths in a row stand for. -/
theorem Reads.exists_append (h : n.Reads (keys ++ more) text) :
    ∃ first rest, text = first ++ rest ∧ n.Reads keys first ∧ n.Reads more rest := by
  induction keys generalizing text with
  | nil => exact ⟨[], text, rfl, .nil, h⟩
  | cons key keys ih =>
    cases h with
    | cons htakes hrest =>
      obtain ⟨first, rest, rfl, hfirst, hrest⟩ := ih hrest
      exact ⟨_ :: first, rest, rfl, .cons htakes hfirst, hrest⟩

end Narrowing

/-- The path begins no text of these tokens. -/
def Grammar.Barred (g : Grammar) (n : Narrowing) (tokens : List Node) (path : List String) : Prop :=
  ∀ text, n.Reads path text → ∀ token ∈ tokens, ∀ rest last, ¬g.Writes [token.id] (text ++ rest) last

/-- The token of a state is unclassified, or a defined token that generates what the path stands
for. -/
def Grammar.Fits (g : Grammar) (n : Narrowing) (accepted : AcceptToken) (path : List String) : Prop :=
  accepted.className = g.classTable.unclassifiedName ∨ ∃ token ∈ g.tokens,
    token.name = accepted.name ∧ ∀ text, n.Reads path text → g.Writes [token.id] text []

theorem Grammar.Barred.append {g : Grammar} {n : Narrowing} {tokens : List Node}
    {path : List String} (h : g.Barred n tokens path) (more : List String) :
    g.Barred n tokens (path ++ more) := by
  intro text hr token ht rest last hw
  obtain ⟨first, behind, rfl, hfirst, -⟩ := hr.exists_append
  rw [List.append_assoc] at hw
  exact h first hfirst token ht _ last hw

namespace TokenWalk

open Arena (Orderly Fitting Sprouts Only)

/-! ### What is ahead of a walk -/

namespace Task

/-- What a task has still to go through. -/
def Ahead (g : Grammar) : Task → List NodeId → Prop
  | .level _ trie _, rest => trie.Spells g.trie? rest
  | .heads _ cases _ _, rest => ∃ e ∈ cases, ∃ tail, rest = e.1 :: tail ∧ SpellsBehind g e.2 tail
  | .behind _ continuation _, rest => SpellsBehind g continuation rest

/-- No head of a task is a dead end. -/
def Passable (g : Grammar) : Task → Prop
  | .level _ trie _ => ∀ e ∈ trie.cases, ∃ rest, SpellsBehind g e.2 rest
  | .heads _ cases _ _ => ∀ e ∈ cases, ∃ rest, SpellsBehind g e.2 rest
  | .behind _ continuation _ => ∃ rest, SpellsBehind g continuation rest

end Task

theorem passable_level {g : Grammar} (h : g.Passable) {id : NodeId} {trie : Trie}
    (ht : g.trie? id = some trie) (p : Place) (state : StateId) :
    (Task.level p trie state).Passable g := by
  rintro ⟨head, continuation⟩ he
  cases continuation with
  | none => exact ⟨[], rfl⟩
  | some factor => exact h id trie ht _ he factor rfl

/-- One path leads to the state of the task, and the token writes its texts in front of what is
ahead. -/
structure Follows (g : Grammar) (n : Narrowing) (token : NodeId) (a : Arena) (keys : List String)
    (task : Task) : Prop where
  only : a.Only keys task.state
  text : ∃ text, n.Reads keys text
  writes (text : List Char) : n.Reads keys text → ∀ rest, task.Ahead g rest →
    g.Writes [token] text rest
  passable : task.Passable g

/-- What is noted of a medium: the links by which it begins where it was entered. -/
def Begun (g : Grammar) (n : Narrowing) (token : NodeId) (a : Arena) (medium : NodeId) (links : Links) :
    Prop :=
  ∃ keys, (∃ text, n.Reads keys text) ∧
    (∀ text, n.Reads keys text → g.Writes [token] text [medium]) ∧
    ∀ k t, links.get? k = some t → a.Only (keys ++ [k]) t ∧
      ∀ c, n.Takes k c → ∃ more last, g.Writes [medium] (c :: more) last

/-- The walk over a token leaves the states in order. `tokens` are this one and those to come. -/
structure Tidy (g : Grammar) (n : Narrowing) (token : NodeId) (tokens : List Node) (w : TokenWalk) :
    Prop where
  orderly : w.synthesis.arena.Orderly (g.Barred n tokens)
  fitting : w.synthesis.arena.Fitting (g.Fits n)
  loops : ∀ e ∈ w.loops, isMedium g e.2 ∧ ∃ keys, w.synthesis.arena.Only keys e.1 ∧
    ∀ text, n.Reads keys text → g.Writes [token] text [e.2]
  noted (medium : NodeId) (links : Links) : w.visited.get? medium = some (some links) →
    Begun g n token w.synthesis.arena medium links

/-- The token is walked by keys that are exact, and every case that a trie spells is a published
one. -/
structure Walkable (g : Grammar) (n : Narrowing) (token : Node) (tokens : List Node) : Prop where
  exact : n.Exact g
  passable : g.Passable
  listed : token ∈ g.tokens
  pending : token ∈ tokens
  cases {id : NodeId} {case : List NodeId} : g.Within token.id id → isMedium g id → g.Spells id case →
    case ∈ g.casesOf id

variable {g : Grammar} {n : Narrowing} {token : Node} {tokens : List Node} {accept : AcceptToken}
  {w w' : TokenWalk} {task : Task} {keys : List String} {state last : StateId} {links links' : Links}
  {a b : Arena}

theorem Begun.sprouts {medium : NodeId} (h : Begun g n token.id a medium links) (ha : a.Closed)
    (hs : a.Sprouts b) : Begun g n token.id b medium links := by
  obtain ⟨keys, htext, hwrites, hlinks⟩ := h
  exact ⟨keys, htext, hwrites, fun k t hk => (hlinks k t hk).imp_left (hs.only ha)⟩

/-- A change to the states alone. -/
theorem Tidy.withSynthesis (h : Tidy g n token.id tokens w) {s : Synthesis}
    (hs : w.synthesis.arena.Sprouts s.arena) (ho : s.arena.Orderly (g.Barred n tokens))
    (hf : s.arena.Fitting (g.Fits n)) : Tidy g n token.id tokens { w with synthesis := s } := by
  refine ⟨ho, hf, fun e he => ?_, fun medium links hm => ?_⟩
  · obtain ⟨hm, keys, honly, hwrites⟩ := h.loops e he
    exact ⟨hm, keys, hs.only h.orderly.closed honly, hwrites⟩
  · exact (h.noted medium links hm).sprouts h.orderly.closed hs

/-- A medium is being walked, or has been with these links. -/
theorem Tidy.noting (h : Tidy g n token.id tokens w) (medium : NodeId) {v : Option Links}
    (hv : ∀ links ∈ v, Begun g n token.id w.synthesis.arena medium links) :
    Tidy g n token.id tokens { w with visited := w.visited.insert medium v } := by
  refine ⟨h.orderly, h.fitting, h.loops, fun other links hl => ?_⟩
  rw [Dictionary.get?_insert] at hl
  split at hl
  next he => exact he ▸ hv links (Option.some.inj hl)
  next => exact h.noted other links hl

/-! ### Accepting -/

theorem Tidy.of_accept (h : Tidy g n token.id tokens w) (hlisted : token ∈ g.tokens)
    (hname : accept.name = token.name) (honly : w.synthesis.arena.Only keys state)
    (hwrites : ∀ text, n.Reads keys text → g.Writes [token.id] text [])
    (ha : w.accept state accept = .ok w') :
    Tidy g n token.id tokens w' ∧ w.synthesis.arena.Sprouts w'.synthesis.arena := by
  obtain ⟨s, hs, rfl⟩ := accept_cases ha
  unfold Synthesis.accept at hs
  split at hs
  next existing hx =>
    split at hs
    · cases hs
      exact ⟨h, .refl _⟩
    · cases hs
  next hx =>
    cases hs
    have hlt := honly.lt_size h.orderly.closed
    have hsprouts := Arena.sprouts_setToken hlt hx accept
    refine ⟨h.withSynthesis hsprouts (h.orderly.setToken state accept) ?_, hsprouts⟩
    refine h.fitting.sprouts hsprouts (fun q accepted hq => ?_)
    rw [Arena.tokenOf_setToken hlt] at hq
    split at hq
    next he =>
      cases hq
      refine .inr (fun path hpath => .inr ⟨token, hlisted, hname.symm, ?_⟩)
      rw [Arena.walk?_setToken, he] at hpath
      rwa [(honly path).1 hpath]
    next => exact .inl hq

theorem Tidy.of_acceptIf {ends : Bool} (h : Tidy g n token.id tokens w) (hlisted : token ∈ g.tokens)
    (hname : accept.name = token.name) (honly : w.synthesis.arena.Only keys state)
    (hwrites : ends → ∀ text, n.Reads keys text → g.Writes [token.id] text [])
    (ha : (if ends then w.accept state accept else .ok w) = .ok w') :
    Tidy g n token.id tokens w' ∧ w.synthesis.arena.Sprouts w'.synthesis.arena := by
  split at ha
  next he => exact h.of_accept hlisted hname honly (hwrites he) ha
  next =>
    cases ha
    exact ⟨h, .refl _⟩

/-! ### Heads of cases -/

/-- The key is the last of the only path to the target, and the task may begin with what it stands
for. -/
def Starts (g : Grammar) (n : Narrowing) (a : Arena) (keys : List String) (task : Task) (k : String)
    (t : StateId) : Prop :=
  a.Only (keys ++ [k]) t ∧
    ∀ c, n.Takes k c → ∃ rest more last, task.Ahead g rest ∧ g.Writes rest (c :: more) last

theorem Starts.imp {task' : Task} {k : String} {t : StateId} (h : Starts g n a keys task k t)
    (ha : a.Closed) (hs : a.Sprouts b) (hahead : ∀ rest, task.Ahead g rest → task'.Ahead g rest) :
    Starts g n b keys task' k t :=
  ⟨hs.only ha h.1, fun c hc => (h.2 c hc).imp
    (fun rest => Exists.imp fun _ => Exists.imp fun _ => And.imp_left (hahead rest))⟩

/-- What is ahead of the heads that are left is ahead of all. -/
theorem ahead_cons {p : Place} {e : NodeId × Option NodeId} {rest : List (NodeId × Option NodeId)}
    (left : List NodeId) (h : (Task.heads p rest state links').Ahead g left) :
    (Task.heads p (e :: rest) state links).Ahead g left := by
  obtain ⟨e', he, htail⟩ := h
  exact ⟨e', List.mem_cons_of_mem _ he, htail⟩

theorem Follows.sprouts (h : Follows g n token.id a keys task) (ha : a.Closed) (hs : a.Sprouts b) :
    Follows g n token.id b keys task := ⟨hs.only ha h.only, h.text, h.writes, h.passable⟩

/-- The same for the heads that are left. -/
theorem Follows.tail {p : Place} {e : NodeId × Option NodeId} {rest : List (NodeId × Option NodeId)}
    (h : Follows g n token.id a keys (.heads p (e :: rest) state links)) :
    Follows g n token.id a keys (.heads p rest state links') :=
  ⟨h.only, h.text, fun text ht rest hr => h.writes text ht rest (ahead_cons rest hr),
    fun e he => h.passable e (List.mem_cons_of_mem _ he)⟩

/-- What a token begins with is not barred while the token is pending. -/
theorem Walkable.not_barred (hw : Walkable g n token tokens) {path : List String} {text : List Char}
    {rest : List NodeId} (hr : n.Reads path text) (h : g.Writes [token.id] text rest) :
    ¬g.Barred n tokens path := fun hb =>
  hb text hr token hw.pending [] rest ((List.append_nil text).symm ▸ h)

/-- Behind a head that writes what the keys of its path stand for, the walk follows its
continuation. -/
theorem Follows.behind {p : Place} {head : NodeId} {continuation : Option NodeId}
    {rest : List (NodeId × Option NodeId)} {more : List String}
    (h : Follows g n token.id a keys (.heads p ((head, continuation) :: rest) state links))
    (honly : b.Only (keys ++ more) last) (htext : ∃ text, n.Reads more text)
    (hwrites : ∀ text, n.Reads more text → ∀ tail, g.Writes (head :: tail) text tail) :
    Follows g n token.id b (keys ++ more) (.behind (p.past head) continuation last) := by
  refine ⟨honly, ?_, fun text ht tail htail => ?_, h.passable _ List.mem_cons_self⟩
  · obtain ⟨first, hfirst⟩ := h.text
    obtain ⟨text, htext⟩ := htext
    exact ⟨first ++ text, List.rel_append hfirst htext⟩
  · obtain ⟨first, behind, rfl, hfirst, hbehind⟩ := ht.exists_append
    exact (h.writes first hfirst _ ⟨_, List.mem_cons_self, tail, rfl, htail⟩).trans
      (hwrites behind hbehind tail)

theorem narrowing_of_spell {current : StateId} {s s' : Synthesis}
    (h : spell state current keys links s = (last, links', s')) : s'.narrowing = s.narrowing := by
  induction keys generalizing current links s with
  | nil =>
    cases h
    rfl
  | cons key keys ih =>
    have hrest := ih h
    exact hrest

/-- Spelling keys that are not barred leads on over them alone, and notes the first of them. -/
theorem spell_only {pre more : List String} {current : StateId} {s s' : Synthesis}
    (ho : s.arena.Orderly (g.Barred n tokens)) (hstate : s.arena.Only keys state)
    (hcur : s.arena.Only (keys ++ pre) current) (hfree : ¬g.Barred n tokens (keys ++ pre ++ more))
    (h : spell state current more links s = (last, links', s')) :
    s'.arena.Orderly (g.Barred n tokens) ∧ s.arena.Sprouts s'.arena ∧
      (∀ q, s'.arena.tokenOf q = s.arena.tokenOf q) ∧ s'.arena.Only (keys ++ pre ++ more) last ∧
      ∀ k t, links'.get? k = some t → links.get? k = some t ∨
        pre = [] ∧ more.head? = some k ∧ s'.arena.Only (keys ++ [k]) t := by
  induction more generalizing pre current links s with
  | nil =>
    cases h
    exact ⟨ho, .refl _, fun _ => rfl, (List.append_nil _).symm ▸ hcur, fun _ _ hk => .inl hk⟩
  | cons key more ih =>
    simp only [spell, Synthesis.follow] at h
    rcases hf : s.arena.follow current key with ⟨next, a⟩
    rw [hf] at h
    have hsplit : keys ++ (pre ++ [key]) ++ more = keys ++ pre ++ key :: more := by simp
    have hkey : ¬g.Barred n tokens (keys ++ pre ++ [key]) := fun hb =>
      hfree (by simpa using hb.append more)
    obtain ⟨ho₁, honly⟩ := ho.follow hcur hkey hf
    have hnext : a.Only (keys ++ (pre ++ [key])) next := List.append_assoc keys pre [key] ▸ honly
    have hsprouts := Arena.sprouts_follow ho.closed (hcur.lt_size ho.closed) hf
    obtain ⟨ho', hsprouts', htoken, hlast, hlinks⟩ :=
      ih ho₁ (hsprouts.only ho.closed hstate) hnext (hsplit ▸ hfree) h
    refine ⟨ho', hsprouts.trans hsprouts', fun q => (htoken q).trans (Arena.tokenOf_follow hf q),
      hsplit ▸ hlast, fun k t hk => ?_⟩
    have hold := (hlinks k t hk).resolve_right (fun hnew => by simp at hnew)
    by_cases he : current = state
    · -- only the empty path leads from the state back to it
      subst he
      obtain rfl : pre = [] := by simpa using (hstate _).1 hcur.walk?
      rw [if_pos rfl, Dictionary.get?_insert] at hold
      split at hold
      next hk' =>
        cases hold
        subst hk'
        exact .inr ⟨rfl, rfl, hsprouts'.only ho₁.closed (by simpa using honly)⟩
      next => exact .inl hold
    · rw [if_neg he] at hold
      exact .inl hold

/-- A terminal at the head of a case. -/
theorem Tidy.of_spellTerminal {p : Place} {head : NodeId} {continuation : Option NodeId}
    {rest : List (NodeId × Option NodeId)} {node : Node} (h : Tidy g n token.id tokens w)
    (hsound : w.Sound g) (hw : Walkable g n token tokens)
    (hf : Follows g n token.id w.synthesis.arena keys
      (.heads p ((head, continuation) :: rest) state links))
    (hnode : g.node? head = some node) (ht : node.isTerminal)
    (hsp : w.spellTerminal state node.name links = (last, links', w'))
    (hlater : w'.synthesis.narrowing.Later n) :
    Tidy g n token.id tokens w' ∧ w.synthesis.arena.Sprouts w'.synthesis.arena ∧
      (∃ more, Follows g n token.id w'.synthesis.arena (keys ++ more)
        (.behind (p.past head) continuation last)) ∧
      ∀ k t, links'.get? k = some t → links.get? k = some t ∨ Starts g n w'.synthesis.arena keys
        (.heads p ((head, continuation) :: rest) state links) k t := by
  unfold spellTerminal at hsp
  rcases hkeys : w.synthesis.narrowing.keys node.name.toList with ⟨spelling, n₁⟩
  rcases hspell : spell state state spelling links { w.synthesis with narrowing := n₁ } with
    ⟨last', links₁, s₁⟩
  rw [hkeys] at hsp
  simp only [hspell] at hsp
  cases hsp
  obtain ⟨-, -, hsettled, rfl⟩ := Narrowing.keys_spec hsound.synthesis.narrowed
    (Grammar.spelled_of_node? hnode ht) hkeys
  have hn₁ : s₁.narrowing = n₁ := narrowing_of_spell hspell
  have hlater : n₁.Later n := hn₁ ▸ hlater
  generalize hmore : node.name.toList.filterMap n₁.classOf = more at hspell
  have hreads (out : List Char) : n.Reads more out ↔ out = g.visible node.name.toList := by
    rw [← hmore, ← hlater.filterMap_classOf hsettled]
    exact hw.exact.reads_literal_iff (Grammar.spelled_of_node? hnode ht)
      (fun c hc => (hlater.settled c (hsettled c hc)).1)
  have hwrites (tail : List NodeId) : g.Writes (head :: tail) (g.visible node.name.toList) tail :=
    List.append_nil (g.visible node.name.toList) ▸ .terminal hnode ht (.refl tail)
  obtain ⟨first, hfirst⟩ := hf.text
  obtain ⟨tail, htail⟩ := hf.passable _ List.mem_cons_self
  have hahead : (Task.heads p ((head, continuation) :: rest) state links).Ahead g (head :: tail) :=
    ⟨_, List.mem_cons_self, tail, rfl, htail⟩
  have hfree : ¬g.Barred n tokens (keys ++ [] ++ more) := by
    rw [List.append_nil]
    exact hw.not_barred (List.rel_append hfirst ((hreads _).2 rfl))
      ((hf.writes first hfirst _ hahead).trans (hwrites tail))
  have hcur : w.synthesis.arena.Only (keys ++ []) state := (List.append_nil keys).symm ▸ hf.only
  obtain ⟨ho, hsprouts, htoken, honly, hlinks⟩ := spell_only (s := ⟨n₁, w.synthesis.arena⟩)
    h.orderly hf.only hcur hfree hspell
  rw [List.append_nil] at honly
  refine ⟨h.withSynthesis hsprouts ho (h.fitting.sprouts hsprouts fun q _ hq => .inl (htoken q ▸ hq)),
    hsprouts, ⟨more, hf.behind honly ⟨_, (hreads _).2 rfl⟩ fun text ht tail => ?_⟩, fun k t hk => ?_⟩
  · rw [(hreads text).1 ht]
    exact hwrites tail
  · refine (hlinks k t hk).imp_right (fun ⟨_, hhead, honly⟩ => ⟨honly, fun c hc => ?_⟩)
    obtain ⟨more, rfl⟩ := List.head?_eq_some_iff.1 hhead
    obtain ⟨_, behind, -, hbehind, hvisible⟩ := List.forall₂_cons_left_iff.1 ((hreads _).2 rfl)
    have hsame := (hreads (c :: behind)).1 (.cons hc hbehind)
    exact ⟨_, behind, tail, hahead, hsame ▸ hwrites tail⟩

/-- A class at the head of a case. -/
theorem Tidy.of_takeClass {p : Place} {head : NodeId} {continuation : Option NodeId}
    {rest : List (NodeId × Option NodeId)} {data : ClassData} (h : Tidy g n token.id tokens w)
    (hw : Walkable g n token tokens)
    (hf : Follows g n token.id w.synthesis.arena keys
      (.heads p ((head, continuation) :: rest) state links))
    (hc : classOf? g head = some data)
    (hsp : w.takeClass state data.key links = (last, links', w')) :
    Tidy g n token.id tokens w' ∧ w.synthesis.arena.Sprouts w'.synthesis.arena ∧
      (∃ more, Follows g n token.id w'.synthesis.arena (keys ++ more)
        (.behind (p.past head) continuation last)) ∧
      ∀ k t, links'.get? k = some t → links.get? k = some t ∨ Starts g n w'.synthesis.arena keys
        (.heads p ((head, continuation) :: rest) state links) k t := by
  unfold takeClass Synthesis.follow at hsp
  rcases hfollow : w.synthesis.arena.follow state data.key with ⟨target, a⟩
  rw [hfollow] at hsp
  cases hsp
  have hwrites (tail : List NodeId) {c : Char} (htakes : n.Takes data.key c) :
      g.Writes (head :: tail) [c] tail :=
    .symbolClass hc ((hw.exact.takes_class_iff hc).1 htakes) (.refl tail)
  obtain ⟨c, htakes⟩ := hw.exact.exists_takes_class hc
  obtain ⟨first, hfirst⟩ := hf.text
  obtain ⟨tail, htail⟩ := hf.passable _ List.mem_cons_self
  have hahead : (Task.heads p ((head, continuation) :: rest) state links).Ahead g (head :: tail) :=
    ⟨_, List.mem_cons_self, tail, rfl, htail⟩
  have hfree : ¬g.Barred n tokens (keys ++ [data.key]) :=
    hw.not_barred (List.rel_append hfirst (.cons htakes .nil))
      ((hf.writes first hfirst _ hahead).trans (hwrites tail htakes))
  obtain ⟨ho, honly⟩ := h.orderly.follow hf.only hfree hfollow
  have hsprouts := Arena.sprouts_follow h.orderly.closed (hf.only.lt_size h.orderly.closed) hfollow
  refine ⟨h.withSynthesis hsprouts ho
    (h.fitting.sprouts hsprouts fun q _ hq => .inl (Arena.tokenOf_follow hfollow q ▸ hq)), hsprouts,
    ⟨[data.key], hf.behind honly ⟨[c], .cons htakes .nil⟩ fun text ht tail => ?_⟩, fun k t hk => ?_⟩
  · obtain ⟨d, _, hd, hnil, rfl⟩ := List.forall₂_cons_left_iff.1 ht
    cases hnil
    exact hwrites tail hd
  · rw [Dictionary.get?_insert] at hk
    split at hk
    next he =>
      cases hk
      subst he
      exact .inr ⟨honly, fun d hd => ⟨_, [], tail, hahead, hwrites tail hd⟩⟩
    next => exact .inl hk

/-- A medium at the head of a case is what is left of the token there. -/
theorem Follows.writes_medium {p : Place} {head : NodeId} {rest : List (NodeId × Option NodeId)}
    (hf : Follows g n token.id a keys (.heads p ((head, none) :: rest) state links))
    {text : List Char} (ht : n.Reads keys text) : g.Writes [token.id] text [head] :=
  hf.writes text ht _ ⟨_, List.mem_cons_self, [], rfl, rfl⟩

theorem Follows.within {p : Place} {head : NodeId} {rest : List (NodeId × Option NodeId)}
    (hf : Follows g n token.id a keys (.heads p ((head, none) :: rest) state links)) :
    g.Within token.id head := by
  obtain ⟨text, ht⟩ := hf.text
  exact (hf.writes_medium ht).within (fun id hid => List.mem_singleton.1 hid ▸ .self) head
    List.mem_cons_self

/-- What the trie of a medium spells, the medium writes. -/
theorem Walkable.writes_of_spells (hw : Walkable g n token tokens) {medium : NodeId}
    {case : List NodeId} (hin : g.Within token.id medium) (hm : isMedium g medium)
    (hs : ((g.trie? medium).getD .empty).Spells g.trie? case) : g.Writes [medium] [] case := by
  obtain ⟨-, trie, -, -, ht⟩ := exists_trie_of_isMedium hm
  rw [ht] at hs
  exact .of_mem_casesOf (hw.cases hin hm ⟨trie, ht, hs⟩)

/-- A medium that is met again. -/
theorem Tidy.of_meetAgain {p : Place} {head : NodeId} {rest : List (NodeId × Option NodeId)}
    (h : Tidy g n token.id tokens w) (hw : Walkable g n token tokens)
    (hname : accept.name = token.name)
    (hf : Follows g n token.id w.synthesis.arena keys (.heads p ((head, none) :: rest) state links))
    (hm : isMedium g head) (ha : meetAgain g accept w state head = .ok w') :
    Tidy g n token.id tokens w' ∧ w.synthesis.arena.Sprouts w'.synthesis.arena := by
  obtain ⟨s, haccept, rfl⟩ := meetAgain_cases ha
  obtain ⟨htidy, hsprouts⟩ := h.of_acceptIf hw.listed hname hf.only (fun hends text ht => by
    refine List.append_nil text ▸ (hf.writes_medium ht).trans (hw.writes_of_spells hf.within hm ?_)
    obtain ⟨-, trie, -, -, htrie⟩ := exists_trie_of_isMedium hm
    rw [htrie] at hends ⊢
    exact hends) haccept
  refine ⟨⟨htidy.orderly, htidy.fitting, fun e he => ?_, htidy.noted⟩, hsprouts⟩
  rcases List.mem_append.1 he with he | he
  · exact htidy.loops e he
  · obtain rfl := List.mem_singleton.1 he
    exact ⟨hm, keys, hsprouts.only h.orderly.closed hf.only, fun _ => hf.writes_medium⟩

/-- A medium that is entered is walked from where the walk stands. -/
theorem Follows.enter {p : Place} {head : NodeId} {rest : List (NodeId × Option NodeId)}
    (hw : Walkable g n token tokens)
    (hf : Follows g n token.id a keys (.heads p ((head, none) :: rest) state links))
    (hm : isMedium g head) :
    Follows g n token.id a keys (.level ⟨head, []⟩ ((g.trie? head).getD .empty) state) := by
  refine ⟨hf.only, hf.text, fun text ht case hs => ?_, ?_⟩
  · exact List.append_nil text ▸ (hf.writes_medium ht).trans (hw.writes_of_spells hf.within hm hs)
  · obtain ⟨-, trie, -, -, htrie⟩ := exists_trie_of_isMedium hm
    rw [htrie]
    exact passable_level hw.passable htrie _ _

/-! ### Whole walks -/

/-- A walk leaves the states in order, and the links that it gives are those that the task may begin
with. -/
theorem Walks.tidy (h : Walks g accept task w links w') (hw : Walkable g n token tokens)
    (hname : accept.name = token.name) (hlater : w'.synthesis.narrowing.Later n)
    (hsound : w.Sound g) (hl : LinksAt w.synthesis.arena task.state task.links)
    (ht : Tidy g n token.id tokens w)
    (hf : Follows g n token.id w.synthesis.arena keys task) :
    Tidy g n token.id tokens w' ∧ w.synthesis.arena.Sprouts w'.synthesis.arena ∧
      ∀ k t, links.get? k = some t → task.links.get? k = some t ∨
        Starts g n w'.synthesis.arena keys task k t := by
  induction h generalizing keys with
  | @level p trie state w w₁ w₂ links hr ha hheads ih =>
    have hlt := hf.only.lt_size ht.orderly.closed
    obtain ⟨hw₁, -⟩ := acceptIf_spec hsound hlt ha
    obtain ⟨ht₁, hs₁⟩ := ht.of_acceptIf hw.listed hname hf.only
      (fun hends text hx => hf.writes text hx [] hends) ha
    have hahead (rest : List NodeId)
        (hr : (Task.heads p (ordered g trie.cases) state .empty).Ahead g rest) :
        (Task.level p trie state).Ahead g rest := by
      obtain ⟨e, he, tail, rfl, htail⟩ := hr
      exact ⟨e.2, mem_of_mem_ordered he, htail⟩
    have hf₁ : Follows g n token.id w₁.synthesis.arena keys
        (.heads p (ordered g trie.cases) state .empty) :=
      ⟨hs₁.only ht.orderly.closed hf.only, hf.text,
        fun text hx rest hr => hf.writes text hx rest (hahead rest hr),
        fun e he => hf.passable e (mem_of_mem_ordered he)⟩
    obtain ⟨ht₂, hs₂, hlinks⟩ := ih hlater hw₁ (linksAt_empty _ _) ht₁ hf₁
    refine ⟨ht₂, hs₁.trans hs₂, fun k t hk => .inr ?_⟩
    exact ((hlinks k t hk).resolve_left nofun).imp ht₂.orderly.closed (.refl _) hahead
  | done w => exact ⟨ht, .refl _, fun _ _ hk => .inl hk⟩
  | @terminal p head continuation rest state last links links₁ links₂ w w₁ w₂ w₃ node hn htr hsp hb h
      ihb ih =>
    have hlt := hf.only.lt_size ht.orderly.closed
    obtain ⟨hw₁, hg₁, hat, -, hlast, -⟩ :=
      spellTerminal_spec hsound hlt (Grammar.spelled_of_node? hn htr) hl hsp
    obtain ⟨hw₂, hg₂, -⟩ := hb.grows hw₁ hlast (linksAt_empty _ _)
    have hat₂ := hat.of_extends hg₂.arena
    obtain ⟨-, hg₃, -⟩ := h.grows hw₂ (Nat.lt_of_lt_of_le hlt (hg₁.trans hg₂).arena.size_le) hat₂
    have hlater₂ := hg₃.synthesis.narrowing.trans hlater
    obtain ⟨ht₁, hs₁, ⟨more, hbehind⟩, hlinks₁⟩ := ht.of_spellTerminal hsound hw hf hn htr hsp
      (hg₂.synthesis.narrowing.trans hlater₂)
    obtain ⟨ht₂, hs₂, -⟩ := ihb hlater₂ hw₁ (linksAt_empty _ _) ht₁ hbehind
    have hf₂ := (hf.sprouts ht.orderly.closed hs₁).sprouts ht₁.orderly.closed hs₂
    obtain ⟨ht₃, hs₃, hlinks⟩ := ih hlater hw₂ hat₂ ht₂ hf₂.tail
    refine ⟨ht₃, (hs₁.trans hs₂).trans hs₃, fun k t hk => ?_⟩
    rcases hlinks k t hk with hk | hstarts
    · exact (hlinks₁ k t hk).imp_right
        (fun hstarts => hstarts.imp ht₁.orderly.closed (hs₂.trans hs₃) (fun _ => id))
    · exact .inr (hstarts.imp ht₃.orderly.closed (.refl _) ahead_cons)
  | @again p head rest state links links₁ w w₁ w₂ hm _ ha h ih =>
    have hlt := hf.only.lt_size ht.orderly.closed
    obtain ⟨hw₁, hg₁, -⟩ := meetAgain_spec hsound hlt ha
    obtain ⟨ht₁, hs₁⟩ := ht.of_meetAgain hw hname hf hm ha
    obtain ⟨ht₂, hs₂, hlinks⟩ := ih hlater hw₁ (hl.of_extends hg₁.arena) ht₁
      (hf.sprouts ht.orderly.closed hs₁).tail
    refine ⟨ht₂, hs₁.trans hs₂, fun k t hk => (hlinks k t hk).imp_right ?_⟩
    exact fun hstarts => hstarts.imp ht₂.orderly.closed (.refl _) ahead_cons
  | @enter p head rest state links nested links₁ w w₁ w₂ hm hv hlevel h ihl ih =>
    have hlt := hf.only.lt_size ht.orderly.closed
    have hnew : ({ w with visited := w.visited.insert head none } : TokenWalk).Sound g :=
      hsound.noting _ nofun
    obtain ⟨hw₁, hg₁, hat, -⟩ := hlevel.grows hnew hlt (linksAt_empty _ _)
    obtain ⟨hat₁, -⟩ := (hl.of_extends hg₁.arena).insertAll_entries hat
    have hnoted := hw₁.noting head (v := some nested) (fun _ he => ⟨_, Option.some.inj he ▸ hat⟩)
    obtain ⟨-, hg₂, -⟩ := h.grows hnoted (Nat.lt_of_lt_of_le hlt hg₁.arena.size_le) hat₁
    obtain ⟨ht₁, hs₁, hnested⟩ := ihl (hg₂.synthesis.narrowing.trans hlater) hnew
      (linksAt_empty _ _) (ht.noting head nofun) (hf.enter hw hm)
    have hbegins (k : String) (t : StateId) (hk : nested.get? k = some t) :
        w₁.synthesis.arena.Only (keys ++ [k]) t ∧
          ∀ c, n.Takes k c → ∃ more last, g.Writes [head] (c :: more) last := by
      obtain ⟨honly, hstarts⟩ := (hnested k t hk).resolve_left nofun
      refine ⟨honly, fun c hc => ?_⟩
      obtain ⟨case, more, last, hahead, hwrites⟩ := hstarts c hc
      exact ⟨more, last, (hw.writes_of_spells hf.within hm hahead).trans hwrites⟩
    have ht₁' := ht₁.noting head (v := some nested)
      (fun _ he => Option.some.inj he ▸ ⟨keys, hf.text, fun _ hx => hf.writes_medium hx, hbegins⟩)
    obtain ⟨ht₂, hs₂, hlinks⟩ := ih hlater hnoted hat₁ ht₁'
      (hf.sprouts ht.orderly.closed hs₁).tail
    refine ⟨ht₂, hs₁.trans hs₂, fun k t hk => ?_⟩
    rcases hlinks k t hk with hk | hstarts
    · rcases Dictionary.mem_of_get?_insertAll hk with hk | hk
      · obtain ⟨honly, hstarts⟩ := hbegins k t (Dictionary.mem_entries_iff.1 hk)
        refine .inr ⟨hs₂.only ht₁.orderly.closed honly, fun c hc => ⟨[head], ?_⟩⟩
        obtain ⟨more, last, hwrites⟩ := hstarts c hc
        exact ⟨more, last, ⟨_, List.mem_cons_self, [], rfl, rfl⟩, hwrites⟩
      · exact .inl hk
    · exact .inr (hstarts.imp ht₂.orderly.closed (.refl _) ahead_cons)
  | @symbolClass p head continuation rest state target links links₁ links₂ w w₁ w₂ w₃ data hc hsp hb h
      ihb ih =>
    have hlt := hf.only.lt_size ht.orderly.closed
    obtain ⟨hw₁, hg₁, hat, -, hlast, -⟩ := takeClass_spec hsound hlt hl hsp
    obtain ⟨hw₂, hg₂, -⟩ := hb.grows hw₁ hlast (linksAt_empty _ _)
    have hat₂ := hat.of_extends hg₂.arena
    obtain ⟨-, hg₃, -⟩ := h.grows hw₂ (Nat.lt_of_lt_of_le hlt (hg₁.trans hg₂).arena.size_le) hat₂
    obtain ⟨ht₁, hs₁, ⟨more, hbehind⟩, hlinks₁⟩ := ht.of_takeClass hw hf hc hsp
    obtain ⟨ht₂, hs₂, -⟩ :=
      ihb (hg₃.synthesis.narrowing.trans hlater) hw₁ (linksAt_empty _ _) ht₁ hbehind
    have hf₂ := (hf.sprouts ht.orderly.closed hs₁).sprouts ht₁.orderly.closed hs₂
    obtain ⟨ht₃, hs₃, hlinks⟩ := ih hlater hw₂ hat₂ ht₂ hf₂.tail
    refine ⟨ht₃, (hs₁.trans hs₂).trans hs₃, fun k t hk => ?_⟩
    rcases hlinks k t hk with hk | hstarts
    · exact (hlinks₁ k t hk).imp_right
        (fun hstarts => hstarts.imp ht₁.orderly.closed (hs₂.trans hs₃) (fun _ => id))
    · exact .inr (hstarts.imp ht₃.orderly.closed (.refl _) ahead_cons)
  | @ends p continuation state w w₁ hc ha =>
    have hnone : continuation = none := by
      obtain ⟨rest, hrest⟩ := hf.passable
      cases continuation with
      | none => rfl
      | some factor =>
        obtain ⟨inner, hinner, -⟩ := hrest
        cases hc.symm.trans hinner
    obtain ⟨ht₁, hs₁⟩ := ht.of_accept hw.listed hname hf.only
      (fun text hx => hf.writes text hx [] (hnone ▸ rfl)) ha
    exact ⟨ht₁, hs₁, fun _ _ hk => .inl hk⟩
  | @goes p next trie state links w w₁ htrie h ih =>
    have hf₁ : Follows g n token.id w.synthesis.arena keys (.level p trie state) :=
      ⟨hf.only, hf.text, fun text hx rest hr => hf.writes text hx rest ⟨trie, htrie, hr⟩,
        passable_level hw.passable htrie p state⟩
    obtain ⟨ht₁, hs₁, -⟩ := ih hlater hsound (linksAt_empty _ _) ht hf₁
    exact ⟨ht₁, hs₁, fun _ _ hk => .inl hk⟩

end TokenWalk

end Syntagma
