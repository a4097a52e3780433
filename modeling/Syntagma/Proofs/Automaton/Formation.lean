import Syntagma.Proofs.Automaton.Arena
import Syntagma.Proofs.Automaton.TokenWalk

/-! How synthesis builds states, whatever becomes of the classes meanwhile. A step adds a state behind
another one, a link where there is none, or a token where there is none; the links that are noted of
a medium are links of some state, so that closing a loop adds links to states that are there. The
paths of terminals only start at the root. -/

namespace Syntagma

namespace Grammar

variable {g : Grammar} {n n' n'' : Narrowing}

/-- The characters of the terminals of a grammar. -/
def Spelled (g : Grammar) (c : Char) : Prop :=
  ∃ id n, g.node? id = some n ∧ n.isTerminal ∧ c ∈ n.name.toList

/-- The second classes come from the first by looking up the keys of texts of terminals. -/
inductive Respells (g : Grammar) (n : Narrowing) : Narrowing → Prop where
  | refl : g.Respells n n
  | keys {n' : Narrowing} {text : List Char} (h : g.Respells n n') (ht : ∀ c ∈ text, g.Spelled c) :
    g.Respells n (n'.keys text).2

theorem Respells.trans (h : g.Respells n n') (h' : g.Respells n' n'') : g.Respells n n'' := by
  induction h' with
  | refl => exact h
  | keys _ ht ih => exact ih.keys ht

theorem respells_of_eq (h : n' = n) : g.Respells n n' := h ▸ .refl

theorem spelled_of_node? {head : NodeId} {n : Node} (hn : g.node? head = some n)
    (ht : n.isTerminal) : ∀ c ∈ n.name.toList, g.Spelled c := fun _ hc => ⟨head, n, hn, ht, hc⟩

end Grammar

namespace Synthesis

variable {s s' : Synthesis} {state : StateId}

theorem accept_builds (hs : state < s.arena.size) {token : AcceptToken}
    (ha : s.accept state token = .ok s') :
    s.arena.Builds s'.arena ∧ s'.narrowing = s.narrowing ∧
      ∃ x, s'.arena.tokenOf state = some x ∧ x.name = token.name := by
  unfold accept at ha
  split at ha
  next x hx =>
    split at ha
    next hname =>
      cases ha
      exact ⟨.refl _, rfl, x, hx, hname⟩
    next => cases ha
  next hx =>
    cases ha
    refine ⟨Arena.builds_setToken hs hx token, rfl, token, ?_, rfl⟩
    rw [Arena.tokenOf_setToken hs, if_pos rfl]

end Synthesis

namespace TokenWalk

/-! ### The links of a state -/

/-- The links are links of the state. -/
def LinksAt (a : Arena) (state : StateId) (links : Links) : Prop :=
  ∀ k t, links.get? k = some t → a.link? state k = some t

/-- The second links have all of the first. -/
def Includes (links links' : Links) : Prop := ∀ k t, links.get? k = some t → links'.get? k = some t

variable {a b : Arena} {state : StateId} {links links' links'' : Links} {key : String} {t : StateId}

theorem linksAt_empty (a : Arena) (state : StateId) : LinksAt a state .empty := fun _ _ h => nomatch h

theorem LinksAt.of_extends (h : LinksAt a state links) (he : a.Extends b) :
    LinksAt b state links := fun k t hl => he.link (h k t hl)

theorem Includes.refl (links : Links) : Includes links links := fun _ _ h => h

theorem Includes.trans (h : Includes links links') (h' : Includes links' links'') :
    Includes links links'' := fun k t hl => h' k t (h k t hl)

/-- One more link of the state. -/
theorem LinksAt.insert (h : LinksAt a state links) (hl : a.link? state key = some t) :
    LinksAt a state (links.insert key t) ∧ Includes links (links.insert key t) := by
  have hget (k : String) : (links.insert key t).get? k = if k = key then some t else links.get? k :=
    Dictionary.get?_insert links key k t
  constructor
  · intro k u hk
    rw [hget] at hk
    split at hk
    next he =>
      cases hk
      rwa [he]
    next => exact h k u hk
  · intro k u hk
    rw [hget]
    split
    next he =>
      have hsame := (h k u hk).symm.trans (he ▸ hl)
      rw [hsame]
    next => exact hk

/-- The links of a state together with more links of it. -/
theorem LinksAt.insertAll {l : List (String × StateId)} (h : LinksAt a state links)
    (hl : ∀ e ∈ l, a.link? state e.1 = some e.2) :
    LinksAt a state (links.insertAll l) ∧ Includes links (links.insertAll l) := by
  induction l generalizing links with
  | nil => exact ⟨h, .refl _⟩
  | cons e l ih =>
    obtain ⟨hat, hinc⟩ := h.insert (hl e List.mem_cons_self)
    obtain ⟨hat', hinc'⟩ := ih hat (fun e he => hl e (List.mem_cons_of_mem _ he))
    exact ⟨hat', hinc.trans hinc'⟩

theorem LinksAt.insertAll_entries (h : LinksAt a state links) (h' : LinksAt a state links') :
    LinksAt a state (links.insertAll links'.entries) ∧
      Includes links (links.insertAll links'.entries) ∧
      Includes links' (links.insertAll links'.entries) := by
  obtain ⟨hat, hinc⟩ := h.insertAll (l := links'.entries)
    (fun e he => h' e.1 e.2 (Dictionary.mem_entries_iff.1 he))
  refine ⟨hat, hinc, fun k t hk => Dictionary.get?_insertAll_of_forall (.inr ?_) ?_⟩
  · exact List.mem_map_of_mem (f := Prod.fst) (Dictionary.mem_entries_iff.2 hk)
  · rintro ⟨k', u⟩ he rfl
    exact Option.some.inj ((Dictionary.mem_entries_iff.1 he).symm.trans hk)

/-! ### Literals and classes -/

theorem spell_builds {current last : StateId} {keys : List String} {s s' : Synthesis}
    (hc : s.arena.Closed) (hcur : current < s.arena.size) (hl : LinksAt s.arena state links)
    (h : spell state current keys links s = (last, links', s')) :
    s'.narrowing = s.narrowing ∧ s.arena.Builds s'.arena ∧
      s'.arena.walk? current keys = some last ∧ last < s'.arena.size ∧
      LinksAt s'.arena state links' ∧ Includes links links' ∧
      (current = state → ∀ key ∈ keys.head?, ∃ t, links'.get? key = some t) := by
  induction keys generalizing current links s with
  | nil =>
    cases h
    exact ⟨rfl, .refl _, rfl, hcur, hl, .refl _, fun _ _ hk => nomatch hk⟩
  | cons key keys ih =>
    simp only [spell, Synthesis.follow] at h
    rcases hf : s.arena.follow current key with ⟨next, a⟩
    obtain ⟨hb, hlink, hlt⟩ := Arena.follow_spec hc hcur hf
    rw [hf] at h
    have hclosed := hb.closed hc
    have hl' := hl.of_extends hb.toExtends
    by_cases he : current = state
    · rw [if_pos he] at h
      obtain ⟨hat, hinc⟩ := hl'.insert (he ▸ hlink)
      obtain ⟨hn, hb', hwalk, hlast, hat', hinc', -⟩ := ih hclosed hlt hat h
      refine ⟨hn, hb.trans hb', ?_, hlast, hat', hinc.trans hinc', fun _ k hk => ?_⟩
      · rw [Arena.walk?, hb'.link hlink]
        exact hwalk
      · obtain rfl := Option.some.inj hk
        refine ⟨next, hinc' _ _ ?_⟩
        rw [Dictionary.get?_insert, if_pos rfl]
    · rw [if_neg he] at h
      obtain ⟨hn, hb', hwalk, hlast, hat', hinc', -⟩ := ih hclosed hlt hl' h
      refine ⟨hn, hb.trans hb', ?_, hlast, hat', hinc', fun hs => absurd hs he⟩
      rw [Arena.walk?, hb'.link hlink]
      exact hwalk

variable {g : Grammar} {accept : AcceptToken} {w w' w'' : TokenWalk}

/-- Links lead to states that are there, the states where mediums were met again are there too, and
the links noted of a medium are links of some state. -/
structure Formed (w : TokenWalk) : Prop where
  closed : w.synthesis.arena.Closed
  loops : ∀ e ∈ w.loops, e.1 < w.synthesis.arena.size
  noted (medium : NodeId) (links : Links) : w.visited.get? medium = some (some links) →
    ∃ state, LinksAt w.synthesis.arena state links

/-- The states of the second are built from those of the first, its classes come from keys that were
looked up, and no loop is lost. -/
structure Builds (g : Grammar) (w w' : TokenWalk) : Prop where
  arena : w.synthesis.arena.Builds w'.synthesis.arena
  narrowing : g.Respells w.synthesis.narrowing w'.synthesis.narrowing
  loops : w.loops ⊆ w'.loops

theorem Builds.refl (g : Grammar) (w : TokenWalk) : Builds g w w :=
  ⟨.refl _, .refl, List.Subset.refl _⟩

theorem Builds.trans (h : Builds g w w') (h' : Builds g w' w'') : Builds g w w'' :=
  ⟨h.arena.trans h'.arena, h.narrowing.trans h'.narrowing, List.Subset.trans h.loops h'.loops⟩

theorem Builds.lt (h : Builds g w w') (hs : state < w.synthesis.arena.size) :
    state < w'.synthesis.arena.size := Nat.lt_of_lt_of_le hs h.arena.size_le

namespace Formed

/-- A change to the states and the table alone. -/
theorem withSynthesis (h : w.Formed) {s : Synthesis} (hb : w.synthesis.arena.Builds s.arena)
    (hn : g.Respells w.synthesis.narrowing s.narrowing) :
    ({ w with synthesis := s } : TokenWalk).Formed ∧ Builds g w { w with synthesis := s } := by
  refine ⟨⟨hb.closed h.closed, fun e he => ?_, fun medium links hv => ?_⟩,
    hb, hn, List.Subset.refl _⟩
  · exact Nat.lt_of_lt_of_le (h.loops e he) hb.size_le
  · obtain ⟨state, hat⟩ := h.noted medium links hv
    exact ⟨state, hat.of_extends hb.toExtends⟩

/-- A medium is being walked, or has been with these links. -/
theorem noting (h : w.Formed) (medium : NodeId) {v : Option Links}
    (hv : ∀ links ∈ v, ∃ state, LinksAt w.synthesis.arena state links) :
    ({ w with visited := w.visited.insert medium v } : TokenWalk).Formed := by
  refine ⟨h.closed, h.loops, fun other links hl => ?_⟩
  rw [Dictionary.get?_insert] at hl
  split at hl
  · exact hv links (Option.some.inj hl)
  · exact h.noted other links hl

end Formed

theorem accept_cases (ha : w.accept state accept = .ok w') :
    ∃ s, w.synthesis.accept state accept = .ok s ∧ w' = { w with synthesis := s } := by
  obtain ⟨s, hs, ha⟩ := Fault.bind_eq_ok_iff.1 ha
  cases ha
  exact ⟨s, hs, rfl⟩

/-- Accepting changes the states alone. -/
theorem acceptIf_cases {ends : Bool}
    (ha : (if ends then w.accept state accept else .ok w) = .ok w') :
    ∃ s, w' = { w with synthesis := s } := by
  split at ha
  · obtain ⟨s, -, rfl⟩ := accept_cases ha
    exact ⟨s, rfl⟩
  · cases ha
    exact ⟨_, rfl⟩

/-- A state accepts. -/
theorem Formed.accepts (h : w.Formed) (hs : state < w.synthesis.arena.size)
    (ha : w.accept state accept = .ok w') :
    w'.Formed ∧ Builds g w w' ∧
      ∃ x, w'.synthesis.arena.tokenOf state = some x ∧ x.name = accept.name := by
  obtain ⟨s, hs', rfl⟩ := accept_cases ha
  obtain ⟨hb, hnarrowing, htoken⟩ := Synthesis.accept_builds hs hs'
  obtain ⟨hformed, hbuilds⟩ := h.withSynthesis hb (Grammar.respells_of_eq hnarrowing)
  exact ⟨hformed, hbuilds, htoken⟩

/-- What is accepted if a trie may end. -/
theorem Formed.acceptIf {ends : Bool} (h : w.Formed) (hs : state < w.synthesis.arena.size)
    (ha : (if ends then w.accept state accept else .ok w) = .ok w') :
    w'.Formed ∧ Builds g w w' ∧
      (ends → ∃ x, w'.synthesis.arena.tokenOf state = some x ∧ x.name = accept.name) := by
  split at ha
  next =>
    obtain ⟨hformed, hbuilds, htoken⟩ := h.accepts hs ha
    exact ⟨hformed, hbuilds, fun _ => htoken⟩
  next he =>
    cases ha
    exact ⟨h, .refl g w, fun hends => absurd hends he⟩

theorem Formed.spellTerminal (h : w.Formed) (hs : state < w.synthesis.arena.size) {text : String}
    (ht : ∀ c ∈ text.toList, g.Spelled c) {keys : List String} {n : Narrowing}
    (hk : w.synthesis.narrowing.keys text.toList = (keys, n))
    (hl : LinksAt w.synthesis.arena state links) {last : StateId}
    (hsp : w.spellTerminal state text links = (last, links', w')) :
    w'.Formed ∧ Builds g w w' ∧ w'.synthesis.narrowing = n ∧
      LinksAt w'.synthesis.arena state links' ∧ Includes links links' ∧
      last < w'.synthesis.arena.size ∧ w'.synthesis.arena.walk? state keys = some last ∧
      ∀ key ∈ keys.head?, ∃ t, links'.get? key = some t := by
  unfold TokenWalk.spellTerminal at hsp
  rcases hp : spell state state keys links { w.synthesis with narrowing := n } with
    ⟨last', links₁, s⟩
  rw [hk] at hsp
  simp only [hp] at hsp
  cases hsp
  obtain ⟨hsame, hb, hwalk, hlast, hat, hinc, hfirst⟩ :=
    spell_builds (s := { w.synthesis with narrowing := n }) h.closed hs hl hp
  have hrespells : g.Respells w.synthesis.narrowing s.narrowing := by
    have hkeys : n = (w.synthesis.narrowing.keys text.toList).2 := by rw [hk]
    rw [hsame, hkeys]
    exact .keys .refl ht
  obtain ⟨hformed, hbuilds⟩ := h.withSynthesis hb hrespells
  exact ⟨hformed, hbuilds, hsame, hat, hinc, hlast, hwalk, hfirst rfl⟩

theorem Formed.takeClass (h : w.Formed) (hs : state < w.synthesis.arena.size)
    (hl : LinksAt w.synthesis.arena state links)
    (hsp : w.takeClass state key links = (t, links', w')) :
    w'.Formed ∧ Builds g w w' ∧
      LinksAt w'.synthesis.arena state links' ∧ Includes links links' ∧
      t < w'.synthesis.arena.size ∧ w'.synthesis.arena.link? state key = some t ∧
      links'.get? key = some t := by
  unfold TokenWalk.takeClass Synthesis.follow at hsp
  rcases hf : w.synthesis.arena.follow state key with ⟨next, a⟩
  rw [hf] at hsp
  cases hsp
  obtain ⟨hb, hlink, hlt⟩ := Arena.follow_spec h.closed hs hf
  obtain ⟨hformed, hbuilds⟩ := h.withSynthesis (s := { w.synthesis with arena := a }) hb .refl
  obtain ⟨hat, hinc⟩ := (hl.of_extends hb.toExtends).insert hlink
  refine ⟨hformed, hbuilds, hat, hinc, hlt, hlink, ?_⟩
  rw [Dictionary.get?_insert, if_pos rfl]

/-- Meeting a medium again changes the states and adds a loop. -/
theorem meetAgain_cases {medium : NodeId} (ha : meetAgain g accept w state medium = .ok w') :
    ∃ s, (if (g.trie? medium).any (·.interruptable) then w.accept state accept else .ok w) =
        .ok { w with synthesis := s } ∧
      w' = { w with synthesis := s, loops := w.loops ++ [(state, medium)] } := by
  unfold meetAgain at ha
  dsimp only at ha
  split at ha
  next he =>
    obtain ⟨w₁, hw₁, ha⟩ := Fault.bind_eq_ok_iff.1 ha
    obtain ⟨s, hs, rfl⟩ := accept_cases hw₁
    cases ha
    exact ⟨s, by rw [if_pos he, hw₁], rfl⟩
  next he =>
    cases ha
    exact ⟨w.synthesis, if_neg he, rfl⟩

theorem Formed.meetAgain (h : w.Formed) (hs : state < w.synthesis.arena.size) {medium : NodeId}
    (ha : meetAgain g accept w state medium = .ok w') :
    w'.Formed ∧ Builds g w w' ∧
      (state, medium) ∈ w'.loops ∧ ((g.trie? medium).any (·.interruptable) →
        ∃ x, w'.synthesis.arena.tokenOf state = some x ∧ x.name = accept.name) := by
  obtain ⟨s, hs', rfl⟩ := meetAgain_cases ha
  obtain ⟨hformed, hbuilds, htoken⟩ := h.acceptIf (g := g) hs hs'
  refine ⟨⟨hformed.closed, fun e he => ?_, hformed.noted⟩,
    ⟨hbuilds.arena, hbuilds.narrowing, List.subset_append_left _ _⟩,
    List.mem_append_right _ (List.mem_singleton_self _), htoken⟩
  rcases List.mem_append.1 he with he | he
  · exact hformed.loops e he
  · obtain rfl := List.mem_singleton.1 he
    exact hbuilds.lt hs

/-! ### Whole walks -/

/-- A walk only adds, and the links that it gives are links of the state that it started from. -/
theorem Walks.builds {task : Task} (h : Walks g accept task w links w') (hw : w.Formed)
    (hs : task.state < w.synthesis.arena.size)
    (hl : LinksAt w.synthesis.arena task.state task.links) :
    w'.Formed ∧ Builds g w w' ∧ LinksAt w'.synthesis.arena task.state links ∧
      Includes task.links links := by
  induction h with
  | level hr ha _ ih =>
    obtain ⟨hw₁, hb₁, -⟩ := hw.acceptIf hs ha
    obtain ⟨hw₂, hb₂, hat, -⟩ := ih hw₁ (hb₁.lt hs) (linksAt_empty _ _)
    exact ⟨hw₂, hb₁.trans hb₂, hat, fun _ _ hk => nomatch hk⟩
  | done w => exact ⟨hw, .refl g w, hl, .refl _⟩
  | terminal hn ht hsp _ _ ihb ih =>
    obtain ⟨hw₁, hb₁, -, hat, hinc, hlast, -⟩ := 
      hw.spellTerminal hs (Grammar.spelled_of_node? hn ht) rfl hl hsp
    obtain ⟨hw₂, hb₂, -⟩ := ihb hw₁ hlast (linksAt_empty _ _)
    have hb := hb₁.trans hb₂
    obtain ⟨hw₃, hb₃, hat₃, hinc₃⟩ := ih hw₂ (hb.lt hs) (hat.of_extends hb₂.arena.toExtends)
    exact ⟨hw₃, hb.trans hb₃, hat₃, hinc.trans hinc₃⟩
  | again _ _ ha _ ih =>
    obtain ⟨hw₁, hb₁, -⟩ := hw.meetAgain hs ha
    obtain ⟨hw₂, hb₂, hat, hinc⟩ := ih hw₁ (hb₁.lt hs) (hl.of_extends hb₁.arena.toExtends)
    exact ⟨hw₂, hb₁.trans hb₂, hat, hinc⟩
  | @enter _ head _ _ _ nested _ _ _ _ _ _ _ _ ihl ih =>
    obtain ⟨hw₁, hb₁, hat, -⟩ := ihl (hw.noting _ nofun) hs (linksAt_empty _ _)
    obtain ⟨hat₁, hinc₁, -⟩ := (hl.of_extends hb₁.arena.toExtends).insertAll_entries hat
    have hnoted := hw₁.noting head (v := some nested) (fun _ he => ⟨_, Option.some.inj he ▸ hat⟩)
    obtain ⟨hw₂, hb₂, hat₂, hinc₂⟩ := ih hnoted (hb₁.lt hs) hat₁
    exact ⟨hw₂, ⟨hb₁.arena.trans hb₂.arena, hb₁.narrowing.trans hb₂.narrowing,
      List.Subset.trans hb₁.loops hb₂.loops⟩, hat₂,
      hinc₁.trans hinc₂⟩
  | symbolClass _ hsp _ _ ihb ih =>
    obtain ⟨hw₁, hb₁, hat, hinc, hlt, -⟩ := hw.takeClass hs hl hsp
    obtain ⟨hw₂, hb₂, -⟩ := ihb hw₁ hlt (linksAt_empty _ _)
    have hb := hb₁.trans hb₂
    obtain ⟨hw₃, hb₃, hat₃, hinc₃⟩ := ih hw₂ (hb.lt hs) (hat.of_extends hb₂.arena.toExtends)
    exact ⟨hw₃, hb.trans hb₃, hat₃, hinc.trans hinc₃⟩
  | ends _ ha =>
    obtain ⟨hw₁, hb₁, -⟩ := hw.accepts hs ha
    exact ⟨hw₁, hb₁, linksAt_empty _ _, .refl _⟩
  | goes _ _ ih =>
    obtain ⟨hw₁, hb₁, -⟩ := ih hw hs (linksAt_empty _ _)
    exact ⟨hw₁, hb₁, linksAt_empty _ _, .refl _⟩

/-- What was noted of a medium before a walk is still noted behind it. -/
theorem Walks.visited {task : Task} (h : Walks g accept task w links w') {medium : NodeId}
    {v : Option Links} (hv : w.visited.get? medium = some v) :
    w'.visited.get? medium = some v := by
  induction h with
  | level _ ha _ ih =>
    obtain ⟨s, rfl⟩ := acceptIf_cases ha
    exact ih hv
  | done w => exact hv
  | terminal _ _ hsp _ _ ihb ih =>
    cases hsp
    exact ih (ihb hv)
  | again _ _ ha _ ih =>
    obtain ⟨s, -, rfl⟩ := meetAgain_cases ha
    exact ih hv
  | @enter p head rest state links nested links₁ w w₁ w₂ _ hnew _ _ ihl ih =>
    have hne : medium ≠ head := by
      rintro rfl
      simp [Dictionary.contains, hv] at hnew
    refine ih ?_
    rw [Dictionary.get?_insert, if_neg hne]
    refine ihl ?_
    rwa [Dictionary.get?_insert, if_neg hne]
  | symbolClass _ hsp _ _ ihb ih =>
    cases hsp
    exact ih (ihb hv)
  | ends _ ha =>
    obtain ⟨s, -, rfl⟩ := accept_cases ha
    exact hv
  | goes _ _ ih => exact ih hv

/-! ### Closing loops -/

variable {s s' : Synthesis}

theorem closeLink_builds (hs : state < s.arena.size) {medium : NodeId} (ht : t < s.arena.size)
    (hr : t ≠ Arena.root) (hcl : closeLink g state medium s (key, t) = .ok s') :
    s.arena.Builds s'.arena ∧ s'.narrowing = s.narrowing ∧
      s'.arena.link? state key = some t := by
  unfold closeLink at hcl
  split at hcl
  next hnone =>
    cases hcl
    refine ⟨Arena.builds_setLink hs hnone ht hr, rfl, ?_⟩
    rw [Arena.link?_setLink hs, if_pos ⟨rfl, rfl⟩]
  next existing hl =>
    split at hcl
    next he =>
      cases hcl
      exact ⟨.refl _, rfl, hl.trans (congrArg some he)⟩
    next => cases hcl

theorem foldlM_closeLink_builds {medium : NodeId} {l : List (String × StateId)}
    (hs : state < s.arena.size) (hl : ∀ e ∈ l, e.2 < s.arena.size ∧ e.2 ≠ Arena.root)
    (hcl : l.foldlM (closeLink g state medium) s = .ok s') :
    s.arena.Builds s'.arena ∧ s'.narrowing = s.narrowing ∧
      ∀ e ∈ l, s'.arena.link? state e.1 = some e.2 := by
  induction l generalizing s with
  | nil =>
    cases hcl
    exact ⟨.refl _, rfl, fun _ he => absurd he List.not_mem_nil⟩
  | cons e l ih =>
    rw [List.foldlM_cons] at hcl
    obtain ⟨s₁, hfirst, hcl⟩ := Fault.bind_eq_ok_iff.1 hcl
    obtain ⟨hlt, hne⟩ := hl e List.mem_cons_self
    obtain ⟨hb₁, hn₁, hlink⟩ := closeLink_builds hs hlt hne hfirst
    have hle := hb₁.size_le
    obtain ⟨hb₂, hn₂, hlinks⟩ := ih (Nat.lt_of_lt_of_le hs hle) (fun e he =>
      ⟨Nat.lt_of_lt_of_le (hl e (List.mem_cons_of_mem _ he)).1 hle,
        (hl e (List.mem_cons_of_mem _ he)).2⟩) hcl
    exact ⟨hb₁.trans hb₂, hn₂.trans hn₁, List.forall_mem_cons.2 ⟨hb₂.link hlink, hlinks⟩⟩

/-- Where a medium was met again the links noted of it are added. -/
theorem Formed.closeLoops (h : w.Formed) (hcl : closeLoops g w = .ok s) :
    w.synthesis.arena.Builds s.arena ∧ s.narrowing = w.synthesis.narrowing ∧ ∀ e ∈ w.loops,
      ∃ links, w.visited.get? e.2 = some (some links) ∧ LinksAt s.arena e.1 links := by
  have hall (l : List (StateId × NodeId)) (hl : ∀ e ∈ l, e.1 < w.synthesis.arena.size)
      {s₀ : Synthesis} (hb : w.synthesis.arena.Builds s₀.arena)
      (hcl : TokenWalk.closeLoops g ⟨s₀, w.visited, l⟩ = .ok s) :
      s₀.arena.Builds s.arena ∧ s.narrowing = s₀.narrowing ∧ ∀ e ∈ l,
        ∃ links, w.visited.get? e.2 = some (some links) ∧ LinksAt s.arena e.1 links := by
    induction l generalizing s₀ with
    | nil =>
      cases hcl
      exact ⟨.refl _, rfl, fun _ he => absurd he List.not_mem_nil⟩
    | cons e l ih =>
      obtain ⟨state, medium⟩ := e
      rw [TokenWalk.closeLoops, List.foldlM_cons] at hcl
      obtain ⟨s₁, hfirst, hcl⟩ := Fault.bind_eq_ok_iff.1 hcl
      dsimp only at hfirst
      split at hfirst
      next links hv =>
        obtain ⟨origin, hat⟩ := h.noted medium links hv
        have hvalid : ∀ p ∈ links.entries, p.2 < s₀.arena.size ∧ p.2 ≠ Arena.root := fun p hp =>
          (hb.closed h.closed).target (hb.link (hat p.1 p.2 (Dictionary.mem_entries_iff.1 hp)))
        have hlt := Nat.lt_of_lt_of_le (hl (state, medium) List.mem_cons_self) hb.size_le
        obtain ⟨hb₁, hn₁, hlinks⟩ := foldlM_closeLink_builds hlt hvalid hfirst
        obtain ⟨hb₂, hn₂, hrest⟩ := ih (fun e he => hl e (List.mem_cons_of_mem _ he))
          (hb.trans hb₁) hcl
        refine ⟨hb₁.trans hb₂, hn₂.trans hn₁,
          List.forall_mem_cons.2 ⟨⟨links, hv, fun k t hk => ?_⟩, hrest⟩⟩
        exact hb₂.link (hlinks (k, t) (Dictionary.mem_entries_iff.2 hk))
      next => cases hfirst
  exact hall w.loops h.loops (.refl _) hcl

end TokenWalk

/-! ### Whole tokens -/

namespace Synthesis

variable {g : Grammar} {s s' : Synthesis} {n : Node}

/-- The walk over a token before anything of it was walked. -/
def walkOf (s : Synthesis) (id : NodeId) : TokenWalk := ⟨s, Dictionary.empty.insert id none, []⟩

/-- The task of walking a token. -/
def taskOf (g : Grammar) (id : NodeId) : TokenWalk.Task :=
  .level ⟨id, []⟩ ((g.trie? id).getD .empty) Arena.root

/-- Adding a token is a walk, after which the loops are closed. -/
theorem addToken_cases (h : addToken g s n = .ok s') :
    ∃ tag links w, n.tokenTag? = some tag ∧
      TokenWalk.Walks g ⟨n.name, tag.className⟩ (taskOf g n.id) (s.walkOf n.id) links w ∧
      TokenWalk.closeLoops g { w with visited := w.visited.insert n.id (some links) } = .ok s' := by
  unfold addToken at h
  split at h
  next => cases h
  next tag htag =>
    obtain ⟨⟨links, w⟩, hw, h⟩ := Fault.bind_eq_ok_iff.1 h
    exact ⟨tag, links, w, htag, TokenWalk.walks_of_walkTrie _ hw, h⟩

theorem formed_walkOf (h : s.arena.Closed) (id : NodeId) : (s.walkOf id).Formed := by
  refine ⟨h, fun _ he => absurd he List.not_mem_nil, fun medium links hv => ?_⟩
  simp only [walkOf, Dictionary.get?_insert] at hv
  split at hv <;> simp at hv

/-- The walk over a token, with what its loops are closed by. -/
theorem walk_builds (h : s.arena.Closed) {id : NodeId} {accept : AcceptToken} {links : Links}
    {w : TokenWalk} (hw : TokenWalk.Walks g accept (taskOf g id) (s.walkOf id) links w) :
    (⟨w.synthesis, w.visited.insert id (some links), w.loops⟩ : TokenWalk).Formed ∧
      TokenWalk.Builds g (s.walkOf id) w ∧
      TokenWalk.LinksAt w.synthesis.arena Arena.root links := by
  obtain ⟨hformed, hb, hat, -⟩ :=
    hw.builds (formed_walkOf h id) h.root (TokenWalk.linksAt_empty _ _)
  exact ⟨hformed.noting id (fun _ he => ⟨_, Option.some.inj he ▸ hat⟩), hb, hat⟩

theorem addToken_builds (h : s.arena.Closed) (ha : addToken g s n = .ok s') :
    s.arena.Builds s'.arena := by
  obtain ⟨tag, links, w, -, hw, hcl⟩ := addToken_cases ha
  obtain ⟨hformed, hb, -⟩ := walk_builds h hw
  exact hb.arena.trans (hformed.closeLoops hcl).1

/-! ### Terminals and single delimiters -/

/-- What stays true while texts are given paths from the root and, at their ends, tokens of their
own. -/
structure PathInvariant (g : Grammar) (good : Synthesis → Prop) : Prop where
  closed {s : Synthesis} : good s → s.arena.Closed
  path {s s' : Synthesis} {chars : List Char} {last : StateId} : good s →
    s.literalPath chars = (last, s') → good s'
  delimiter {s s' : Synthesis} {target : StateId} : good s →
    s.follow Arena.root singleDelimiterName = (target, s') → good s'
  setToken {s : Synthesis} {state : StateId} (text : String) : good s → state < s.arena.size →
    s.arena.tokenOf state = none →
    good { s with arena := s.arena.setToken state (genericToken g text) }
  takePromoted {s : Synthesis} : good s → good { s with narrowing := s.narrowing.takePromoted.2 }

namespace PathInvariant

variable {good : Synthesis → Prop} {text : String} {done done' : List String} {chars : List Char}
  {last state : StateId}

theorem offerToken (hi : PathInvariant g good) (h : good s) (hlt : state < s.arena.size) :
    good { s with arena := s.arena.offerToken state (genericToken g text) } := by
  unfold Arena.offerToken
  split
  next => exact h
  next hnone => exact hi.setToken text h hlt (by simpa using hnone)

theorem accept (hi : PathInvariant g good) (h : good s) (hlt : state < s.arena.size)
    (ha : s.accept state (genericToken g text) = .ok s') : good s' := by
  unfold Synthesis.accept at ha
  split at ha
  next =>
    split at ha <;> cases ha
    exact h
  next hnone =>
    cases ha
    exact hi.setToken text h hlt hnone

theorem literalPath (hi : PathInvariant g good) (h : good s)
    (hl : s.literalPath chars = (last, s')) : good s' ∧ last < s'.arena.size := by
  refine ⟨hi.path h hl, ?_⟩
  unfold Synthesis.literalPath at hl
  rcases hkeys : s.narrowing.keys chars with ⟨keys, narrowing⟩
  rcases hf : s.arena.followAll Arena.root keys with ⟨target, arena⟩
  simp only [hkeys, hf, Prod.mk.injEq] at hl
  obtain ⟨rfl, rfl⟩ := hl
  exact (Arena.followAll_spec (hi.closed h) (hi.closed h).root hf).2.2

theorem addTerminal (hi : PathInvariant g good) (h : good s)
    (ha : Synthesis.addTerminal g s done text = .ok (s', done')) : good s' := by
  unfold Synthesis.addTerminal at ha
  split at ha
  · cases ha
    exact h
  split at ha
  · cases ha
    exact h
  rcases hl : s.literalPath text.toList with ⟨last, s₁⟩
  simp only [hl] at ha
  obtain ⟨s₂, haccept, ha⟩ := Fault.bind_eq_ok_iff.1 ha
  cases ha
  obtain ⟨h₁, hlt⟩ := hi.literalPath h hl
  exact hi.accept h₁ hlt haccept

theorem addPromoted (hi : PathInvariant g good) {steps : Nat} {pending : List Char}
    (h : good s) : good (Synthesis.addPromoted g steps pending s done) := by
  induction steps generalizing pending s done with
  | zero => exact h
  | succ steps ih =>
    unfold Synthesis.addPromoted
    split
    next => exact h
    next c _ =>
      by_cases hdone : done.contains (String.singleton c)
      · simp only [hdone, if_true]
        exact ih (hi.takePromoted h)
      · simp only [hdone, Bool.false_eq_true, if_false]
        rcases hl : s.literalPath [c] with ⟨last, s₁⟩
        obtain ⟨h₁, hlt⟩ := hi.literalPath h hl
        exact ih (hi.takePromoted (hi.offerToken h₁ hlt))

theorem addTerminals (hi : PathInvariant g good) (h : good s)
    (ha : Synthesis.addTerminals g s = .ok s') : good s' := by
  obtain ⟨⟨s₁, done⟩, hfold, ha⟩ := Fault.bind_eq_ok_iff.1 ha
  cases ha
  have h₁ := @Fault.foldlM_keeps _ _ _ _
    (fun (acc : Synthesis × List String) => good acc.1) _
    (fun _ _ _ _ h₁ h₂ => hi.addTerminal h₁ h₂) _ _ h hfold
  exact hi.addPromoted (hi.takePromoted h₁)

theorem addSingleDelimiter (hi : PathInvariant g good) (h : good s) :
    good (Synthesis.addSingleDelimiter g s) := by
  unfold Synthesis.addSingleDelimiter
  rcases hf : s.follow Arena.root singleDelimiterName with ⟨target, s₁⟩
  refine hi.offerToken (hi.delimiter h hf) ?_
  unfold Synthesis.follow at hf
  cases hf
  exact (Arena.follow_spec (hi.closed h) (hi.closed h).root rfl).2.2

end PathInvariant

/-- What stays true of the states while texts are given paths from the root and, at their ends,
tokens of their own. -/
structure TextInvariant (g : Grammar) (good : Arena → Prop) : Prop where
  closed {a : Arena} : good a → a.Closed
  followAll {a b : Arena} {keys : List String} {last : StateId} : good a →
    a.followAll Arena.root keys = (last, b) → good b
  setToken {a : Arena} {state : StateId} (text : String) : good a → state < a.size →
    a.tokenOf state = none → good (a.setToken state (genericToken g text))

namespace TextInvariant

variable {good : Arena → Prop}

/-- Whatever the classes are, the states stay as they should. -/
theorem pathInvariant (hi : TextInvariant g good) : PathInvariant g (fun s => good s.arena) where
  closed := hi.closed
  path {s s' chars last} h hl := by
    unfold Synthesis.literalPath at hl
    cases hl
    exact hi.followAll h rfl
  delimiter {s s' target} h hf := by
    unfold Synthesis.follow at hf
    cases hf
    exact hi.followAll h (rfl : s.arena.followAll Arena.root [singleDelimiterName] = _)
  setToken := hi.setToken
  takePromoted := id

theorem addTerminals (hi : TextInvariant g good) (h : good s.arena)
    (ha : Synthesis.addTerminals g s = .ok s') : good s'.arena :=
  hi.pathInvariant.addTerminals h ha

theorem addSingleDelimiter (hi : TextInvariant g good) (h : good s.arena) :
    good (Synthesis.addSingleDelimiter g s).arena :=
  hi.pathInvariant.addSingleDelimiter h

end TextInvariant

/-- States that are built further stay built from the same states. -/
theorem textInvariant_builds (g : Grammar) (a : Arena) :
    TextInvariant g (fun b => b.Closed ∧ a.Builds b) where
  closed := And.left
  followAll h hf := by
    obtain ⟨hb, -⟩ := Arena.followAll_spec h.1 h.1.root hf
    exact ⟨hb.closed h.1, h.2.trans hb⟩
  setToken text h hlt hnone := by
    have hb := Arena.builds_setToken hlt hnone (genericToken g text)
    exact ⟨hb.closed h.1, h.2.trans hb⟩

end Synthesis

end Syntagma
