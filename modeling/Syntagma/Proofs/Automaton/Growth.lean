import Syntagma.Proofs.Automaton.Formation
import Syntagma.Proofs.Symbol.Narrowing

/-! How synthesis grows. Each of its steps only adds: states, links, accepted tokens, settled
characters and met loops stay as they are, so what is seen of an intermediate state of affairs is
still there in the end. -/

namespace Syntagma

/-- Looking up keys narrows classes only. -/
theorem Grammar.Respells.narrowed {g : Grammar} {n n' : Narrowing} (h : g.Respells n n')
    (hn : n.Narrowed g.Spelled g.classTable) :
    n'.Narrowed g.Spelled g.classTable ∧ n.Later n' := by
  induction h with
  | refl => exact ⟨hn, .refl n⟩
  | keys _ ht ih =>
    obtain ⟨hn', hlater, -⟩ := Narrowing.keys_spec ih.1 ht rfl
    exact ⟨hn', ih.2.trans hlater⟩

namespace Synthesis

variable {g : Grammar} {s s' s'' : Synthesis} {state : StateId}

/-- Links lead to states that are there, and the classes have been narrowed only. -/
structure Sound (g : Grammar) (s : Synthesis) : Prop where
  closed : s.arena.Closed
  narrowed : s.narrowing.Narrowed g.Spelled g.classTable

/-- Nothing of the first is lost in the second. -/
structure Grows (s s' : Synthesis) : Prop where
  arena : s.arena.Extends s'.arena
  narrowing : s.narrowing.Later s'.narrowing

theorem Grows.refl (s : Synthesis) : s.Grows s := ⟨.refl _, .refl _⟩

theorem Grows.trans (h : s.Grows s') (h' : s'.Grows s'') : s.Grows s'' :=
  ⟨h.arena.trans h'.arena, h.narrowing.trans h'.narrowing⟩

theorem sound_ofTable (h : g.classTable.Clear g.Spelled) : (ofTable g.classTable).Sound g :=
  ⟨Arena.closed_initial, Narrowing.narrowed_ofTable h⟩

/-- A change to the states alone. -/
theorem Sound.withArena (h : s.Sound g) {a : Arena} (hb : s.arena.Builds a) :
    ({ s with arena := a } : Synthesis).Sound g ∧ s.Grows { s with arena := a } :=
  ⟨⟨hb.closed h.closed, h.narrowed⟩, hb.toExtends, .refl _⟩

theorem Sound.of_narrowing_eq (h : s.Sound g) (hb : s.arena.Builds s'.arena)
    (hn : s'.narrowing = s.narrowing) : s'.Sound g ∧ s.Grows s' :=
  ⟨⟨hb.closed h.closed, hn ▸ h.narrowed⟩, hb.toExtends, hn ▸ .refl _⟩

theorem accept_spec (h : s.Sound g) (hs : state < s.arena.size) {token : AcceptToken}
    (ha : s.accept state token = .ok s') :
    s'.Sound g ∧ s.Grows s' ∧ ∃ x, s'.arena.tokenOf state = some x ∧ x.name = token.name := by
  obtain ⟨hb, hn, htoken⟩ := accept_builds hs ha
  obtain ⟨hsound, hgrows⟩ := h.of_narrowing_eq hb hn
  exact ⟨hsound, hgrows, htoken⟩

/-- The keys of a literal, and the path that they take from the root. -/
theorem literalPath_spec (h : s.Sound g) {text : List Char} (ht : ∀ c ∈ text, g.Spelled c)
    {last : StateId} (hp : s.literalPath text = (last, s')) :
    s'.Sound g ∧ s.Grows s' ∧ last < s'.arena.size ∧ (∀ c ∈ text, s'.narrowing.Settled c) ∧
      s'.arena.walk? Arena.root (text.filterMap s'.narrowing.classOf) = some last := by
  unfold literalPath at hp
  rcases hk : s.narrowing.keys text with ⟨keys, n⟩
  rcases hf : s.arena.followAll Arena.root keys with ⟨last', a⟩
  rw [hk] at hp
  simp only [hf] at hp
  cases hp
  obtain ⟨hn, hlater, hsettled, rfl⟩ := Narrowing.keys_spec h.narrowed ht hk
  obtain ⟨hb, hwalk, hlast⟩ := Arena.followAll_spec h.closed h.closed.root hf
  exact ⟨⟨hb.closed h.closed, hn⟩, ⟨hb.toExtends, hlater⟩, hlast, hsettled, hwalk⟩

end Synthesis

namespace TokenWalk

variable {g : Grammar} {accept : AcceptToken} {w w' w'' : TokenWalk} {state : StateId}
  {links links' : Links} {key : String} {t : StateId}

/-- The states and the table of a walk are sound, the states where mediums were met again are there,
and the links noted of a medium are links of some state. -/
structure Sound (g : Grammar) (w : TokenWalk) : Prop where
  synthesis : w.synthesis.Sound g
  loops : ∀ e ∈ w.loops, e.1 < w.synthesis.arena.size
  noted (medium : NodeId) (links : Links) : w.visited.get? medium = some (some links) →
    ∃ state, LinksAt w.synthesis.arena state links

/-- Nothing of the first is lost in the second, save for what is noted of the mediums. -/
structure Grows (w w' : TokenWalk) : Prop where
  synthesis : w.synthesis.Grows w'.synthesis
  loops : w.loops ⊆ w'.loops

theorem Grows.trans (h : w.Grows w') (h' : w'.Grows w'') : w.Grows w'' :=
  ⟨h.synthesis.trans h'.synthesis, List.Subset.trans h.loops h'.loops⟩

theorem Grows.arena (h : w.Grows w') : w.synthesis.arena.Extends w'.synthesis.arena :=
  h.synthesis.arena

theorem Sound.formed (h : w.Sound g) : w.Formed := ⟨h.synthesis.closed, h.loops, h.noted⟩

/-- What is built from a sound walk is sound. -/
theorem Sound.of_builds (h : w.Sound g) (hf : w'.Formed) (hb : Builds g w w') :
    w'.Sound g ∧ w.Grows w' := by
  obtain ⟨hn, hlater⟩ := hb.narrowing.narrowed h.synthesis.narrowed
  exact ⟨⟨⟨hf.closed, hn⟩, hf.loops, hf.noted⟩, ⟨hb.arena.toExtends, hlater⟩, hb.loops⟩

/-- A medium is being walked, or has been with these links. -/
theorem Sound.noting (h : w.Sound g) (medium : NodeId) {v : Option Links}
    (hv : ∀ links ∈ v, ∃ state, LinksAt w.synthesis.arena state links) :
    ({ w with visited := w.visited.insert medium v } : TokenWalk).Sound g :=
  ⟨h.synthesis, h.loops, (h.formed.noting medium hv).noted⟩

theorem grows_withVisited (w : TokenWalk) (visited : Dictionary NodeId (Option Links)) :
    w.Grows { w with visited := visited } := ⟨.refl _, List.Subset.refl _⟩

theorem accept_spec (h : w.Sound g) (hs : state < w.synthesis.arena.size)
    (ha : w.accept state accept = .ok w') : w'.Sound g ∧ w.Grows w' ∧
      ∃ x, w'.synthesis.arena.tokenOf state = some x ∧ x.name = accept.name := by
  obtain ⟨hf, hb, htoken⟩ := h.formed.accepts hs ha
  obtain ⟨hsound, hgrows⟩ := h.of_builds hf hb
  exact ⟨hsound, hgrows, htoken⟩

/-- What is accepted if a trie may end. -/
theorem acceptIf_spec {ends : Bool} (h : w.Sound g) (hs : state < w.synthesis.arena.size)
    (ha : (if ends then w.accept state accept else .ok w) = .ok w') :
    w'.Sound g ∧ w.Grows w' ∧
      (ends → ∃ x, w'.synthesis.arena.tokenOf state = some x ∧ x.name = accept.name) := by
  obtain ⟨hf, hb, htoken⟩ := h.formed.acceptIf hs ha
  obtain ⟨hsound, hgrows⟩ := h.of_builds hf hb
  exact ⟨hsound, hgrows, htoken⟩

/-- The keys of a terminal are the classes of its characters once they are settled. -/
theorem spellTerminal_spec (h : w.Sound g) (hs : state < w.synthesis.arena.size) {text : String}
    (ht : ∀ c ∈ text.toList, g.Spelled c) (hl : LinksAt w.synthesis.arena state links)
    {last : StateId} (hsp : w.spellTerminal state text links = (last, links', w')) :
    w'.Sound g ∧ w.Grows w' ∧
      LinksAt w'.synthesis.arena state links' ∧ Includes links links' ∧
      last < w'.synthesis.arena.size ∧
      (∀ c ∈ text.toList, w'.synthesis.narrowing.Settled c) ∧
      w'.synthesis.arena.walk? state (text.toList.filterMap w'.synthesis.narrowing.classOf) =
        some last ∧
      ∀ key ∈ (text.toList.filterMap w'.synthesis.narrowing.classOf).head?,
        ∃ t, links'.get? key = some t := by
  rcases hk : w.synthesis.narrowing.keys text.toList with ⟨keys, n⟩
  obtain ⟨hf, hb, rfl, hat, hinc, hlast, hwalk, hfirst⟩ := h.formed.spellTerminal hs ht hk hl hsp
  obtain ⟨hsound, hgrows⟩ := h.of_builds hf hb
  obtain ⟨-, -, hsettled, rfl⟩ := Narrowing.keys_spec h.synthesis.narrowed ht hk
  exact ⟨hsound, hgrows, hat, hinc, hlast, hsettled, hwalk, hfirst⟩

theorem takeClass_spec (h : w.Sound g) (hs : state < w.synthesis.arena.size)
    (hl : LinksAt w.synthesis.arena state links)
    (hsp : w.takeClass state key links = (t, links', w')) :
    w'.Sound g ∧ w.Grows w' ∧
      LinksAt w'.synthesis.arena state links' ∧ Includes links links' ∧
      t < w'.synthesis.arena.size ∧ w'.synthesis.arena.link? state key = some t ∧
      links'.get? key = some t := by
  obtain ⟨hf, hb, hrest⟩ := h.formed.takeClass hs hl hsp
  obtain ⟨hsound, hgrows⟩ := h.of_builds hf hb
  exact ⟨hsound, hgrows, hrest⟩

theorem meetAgain_spec (h : w.Sound g) (hs : state < w.synthesis.arena.size) {medium : NodeId}
    (ha : meetAgain g accept w state medium = .ok w') :
    w'.Sound g ∧ w.Grows w' ∧ (state, medium) ∈ w'.loops ∧
      ((g.trie? medium).any (·.interruptable) →
        ∃ x, w'.synthesis.arena.tokenOf state = some x ∧ x.name = accept.name) := by
  obtain ⟨hf, hb, hrest⟩ := h.formed.meetAgain hs ha
  obtain ⟨hsound, hgrows⟩ := h.of_builds hf hb
  exact ⟨hsound, hgrows, hrest⟩

/-- A walk only adds, and the links that it gives are links of the state that it started from. -/
theorem Walks.grows {task : Task} (h : Walks g accept task w links w') (hw : w.Sound g)
    (hs : task.state < w.synthesis.arena.size)
    (hl : LinksAt w.synthesis.arena task.state task.links) :
    w'.Sound g ∧ w.Grows w' ∧ LinksAt w'.synthesis.arena task.state links ∧
      Includes task.links links := by
  obtain ⟨hf, hb, hrest⟩ := h.builds hw.formed hs hl
  obtain ⟨hsound, hgrows⟩ := hw.of_builds hf hb
  exact ⟨hsound, hgrows, hrest⟩

/-- Where a medium was met again the links noted of it are added. -/
theorem closeLoops_spec {s : Synthesis} (h : w.Sound g) (hcl : closeLoops g w = .ok s) :
    s.Sound g ∧ w.synthesis.Grows s ∧ ∀ e ∈ w.loops,
      ∃ links, w.visited.get? e.2 = some (some links) ∧ LinksAt s.arena e.1 links := by
  obtain ⟨hb, hn, hlinks⟩ := h.formed.closeLoops hcl
  obtain ⟨hsound, hgrows⟩ := h.synthesis.of_narrowing_eq hb hn
  exact ⟨hsound, hgrows, hlinks⟩

end TokenWalk

/-! ### Whole tokens -/

namespace Synthesis

variable {g : Grammar} {s s' : Synthesis} {n : Node}

theorem Sound.walkOf (h : s.Sound g) (id : NodeId) : (s.walkOf id).Sound g :=
  ⟨h, (formed_walkOf h.closed id).loops, (formed_walkOf h.closed id).noted⟩

/-- The walk over a token, with what its loops are closed by. -/
theorem walk_spec (h : s.Sound g) {id : NodeId} {accept : AcceptToken} {links : Links}
    {w : TokenWalk} (hw : TokenWalk.Walks g accept (taskOf g id) (s.walkOf id) links w) :
    (⟨w.synthesis, w.visited.insert id (some links), w.loops⟩ : TokenWalk).Sound g ∧
      s.Grows w.synthesis ∧ TokenWalk.LinksAt w.synthesis.arena Arena.root links := by
  obtain ⟨hsound, hgrows, hat, -⟩ :=
    hw.grows (h.walkOf id) h.closed.root (TokenWalk.linksAt_empty _ _)
  exact ⟨hsound.noting id (fun _ he => ⟨_, Option.some.inj he ▸ hat⟩), hgrows.synthesis, hat⟩

theorem addToken_spec (h : s.Sound g) (ha : addToken g s n = .ok s') :
    s'.Sound g ∧ s.Grows s' := by
  obtain ⟨tag, links, w, -, hw, hcl⟩ := addToken_cases ha
  obtain ⟨hsound, hgrows, -⟩ := walk_spec h hw
  obtain ⟨hs', hg', -⟩ := TokenWalk.closeLoops_spec hsound hcl
  exact ⟨hs', hgrows.trans hg'⟩

end Synthesis

end Syntagma
