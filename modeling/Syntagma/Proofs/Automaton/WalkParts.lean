import Syntagma.Proofs.Automaton.Synthesized
import Syntagma.Proofs.Automaton.Tours

/-! What the walk over a token leaves in the states. Whatever the walk makes of a head stays in the
end: a path, the walk through a medium, or a loop. So when the walk is done and its loops are closed,
the walk through each level can be told again as a part of it: the level accepts where it may end,
and of each of its heads something has become. -/

namespace Syntagma

/-! ### Recognizing a text -/

namespace Synthesis

open TokenWalk (LinksAt Includes)

/-- The text leads from the state to one that accepts. -/
def Recognizes (s : Synthesis) (state : StateId) (text : List Char) : Prop :=
  ∃ last, s.Reads state text last ∧ (s.arena.tokenOf last).isSome

/-- The text leads over one of these links to another state. -/
def ReadsBy (s : Synthesis) (links : Links) (text : List Char) (last : StateId) : Prop :=
  ∃ c rest key next, text = c :: rest ∧ s.narrowing.Takes key c ∧ links.get? key = some next ∧
    s.Reads next rest last

/-- The text leads over one of these links to a state that accepts. -/
def RecognizesBy (s : Synthesis) (links : Links) (text : List Char) : Prop :=
  ∃ last, s.ReadsBy links text last ∧ (s.arena.tokenOf last).isSome

variable {g : Grammar} {s s' : Synthesis} {state middle last : StateId} {links links' : Links}
  {text more : List Char}

theorem ReadsBy.append (h : s.ReadsBy links text middle) (h' : s.Reads middle more last) :
    s.ReadsBy links (text ++ more) last := by
  obtain ⟨c, rest, key, next, rfl, ht, hl, hr⟩ := h
  exact ⟨c, rest ++ more, key, next, rfl, ht, hl, hr.append h'⟩

theorem ReadsBy.includes (h : s.ReadsBy links text last) (hi : Includes links links') :
    s.ReadsBy links' text last := by
  obtain ⟨c, rest, key, next, rfl, ht, hl, hr⟩ := h
  exact ⟨c, rest, key, next, rfl, ht, hi key next hl, hr⟩

theorem ReadsBy.grows (h : s.ReadsBy links text last) (hs : s.Sound g) (hs' : s'.Sound g)
    (hg : s.Grows s') : s'.ReadsBy links text last := by
  obtain ⟨c, rest, key, next, rfl, ht, hl, hr⟩ := h
  exact ⟨c, rest, key, next, rfl, hs.narrowed.takes_of_later hs'.narrowed hg.narrowing ht, hl,
    hr.grows hs hs' hg⟩

theorem RecognizesBy.includes (h : s.RecognizesBy links text) (hi : Includes links links') :
    s.RecognizesBy links' text := h.imp (fun _ hr => hr.imp_left (fun hr => hr.includes hi))

theorem ReadsBy.recognizes (h : s.ReadsBy links text middle) (h' : s.Recognizes middle more) :
    s.RecognizesBy links (text ++ more) := by
  obtain ⟨last, hr, htoken⟩ := h'
  exact ⟨last, h.append hr, htoken⟩

theorem Reads.recognizes (h : s.Reads state text middle) (h' : s.Recognizes middle more) :
    s.Recognizes state (text ++ more) := by
  obtain ⟨last, hr, htoken⟩ := h'
  exact ⟨last, h.append hr, htoken⟩

/-- What is recognized over links is recognized at a state that has them. -/
theorem RecognizesBy.recognizes (h : s.RecognizesBy links text)
    (hat : LinksAt s.arena state links) : s.Recognizes state text := by
  obtain ⟨last, ⟨c, rest, key, next, rfl, ht, hl, hr⟩, htoken⟩ := h
  exact ⟨last, reads_cons ht (hat key next hl) hr, htoken⟩

theorem Grows.accepting (h : s.Grows s') {token : AcceptToken}
    (ht : s.arena.tokenOf state = some token) : (s'.arena.tokenOf state).isSome := by
  rw [h.arena.token ht]
  rfl

/-- The path of a literal starts with a link that was noted. -/
theorem readsBy_of_settled (hs : s.Sound g) (hset : ∀ c ∈ text, s.narrowing.Settled c)
    (hplain : Plain g text) (hne : text ≠ [])
    (hw : s.arena.walk? state (text.filterMap s.narrowing.classOf) = some last)
    (hat : LinksAt s.arena state links)
    (hfirst : ∀ key ∈ (text.filterMap s.narrowing.classOf).head?, ∃ t, links.get? key = some t) :
    s.ReadsBy links text last := by
  have htakes := hs.narrowed.forall₂_takes hset hplain
  generalize text.filterMap s.narrowing.classOf = keys at htakes hw hfirst
  cases htakes with
  | nil => exact absurd rfl hne
  | @cons key c keys rest ht hall =>
    obtain ⟨next, hlink, hw⟩ := Option.bind_eq_some_iff.1 hw
    obtain ⟨t, ht'⟩ := hfirst key rfl
    obtain rfl := Option.some.inj ((hat key t ht').symm.trans hlink)
    exact ⟨c, rest, key, t, rfl, ht, ht', keys, hall, hw⟩

end Synthesis

/-! ### What a walk leaves -/

namespace TokenWalk

open Synthesis (Plain)

variable {g : Grammar} {token : NodeId} {accept : AcceptToken} {final w w' : TokenWalk}
  {s : Synthesis} {p : Place} {state : StateId} {links links' : Links}

/-- What there is in the middle of a walk is still there in the end. -/
structure Before (w final : TokenWalk) : Prop where
  grows : w.Grows final
  noted (medium : NodeId) (links : Links) : w.visited.get? medium = some (some links) →
    final.visited.get? medium = some (some links)

/-- The walk through a task is a part of the walk over the token that comes to this in the end. -/
def Part (g : Grammar) (token : NodeId) (accept : AcceptToken) (final : TokenWalk) (task : Task)
    (links : Links) : Prop :=
  ∃ w w', Walks g accept task w links w' ∧ w.Sound g ∧ task.state < w.synthesis.arena.size ∧
    LinksAt w.synthesis.arena task.state task.links ∧ w'.Before final ∧ Toured g token task.leg w

/-- What has become of a head that was taken at a state. -/
inductive Outcome (g : Grammar) (token : NodeId) (accept : AcceptToken) (final : TokenWalk)
    (s : Synthesis) (p : Place) (state : StateId) (links : Links) :
    NodeId → Option NodeId → Prop where
  | terminal {head : NodeId} {continuation : Option NodeId} {last : StateId} {n : Node}
    {behind : Links} (hn : g.node? head = some n) (ht : n.isTerminal)
    (hr : Plain g n.name.toList → s.Reads state n.name.toList last)
    (hb : Plain g n.name.toList → n.name.toList ≠ [] → s.ReadsBy links n.name.toList last)
    (hp : Part g token accept final (.behind (p.past head) continuation last) behind) :
    Outcome g token accept final s p state links head continuation
  | again {head : NodeId} (hm : isMedium g head) (hmet : MetAgain g token p head)
    (hl : (state, head) ∈ final.loops)
    (ht : (g.trie? head).any (·.interruptable) → (s.arena.tokenOf state).isSome) :
    Outcome g token accept final s p state links head none
  | enter {head : NodeId} {nested : Links} (hm : isMedium g head)
    (hp : Part g token accept final (.level ⟨head, []⟩ ((g.trie? head).getD .empty) state) nested)
    (hi : Includes nested links) : Outcome g token accept final s p state links head none
  | symbolClass {head : NodeId} {continuation : Option NodeId} {target : StateId}
    {data : ClassData} {behind : Links} (hc : classOf? g head = some data)
    (hl : links.get? data.key = some target)
    (hp : Part g token accept final (.behind (p.past head) continuation target) behind) :
    Outcome g token accept final s p state links head continuation

/-- The heads that are left to be taken. -/
def Task.pending : Task → List (NodeId × Option NodeId)
  | .heads _ cases _ _ => cases
  | _ => []

/-- What a walk leaves in the end: something of what was there before it, of each head that was
left, and of each medium that it entered. -/
structure Leaves (g : Grammar) (token : NodeId) (accept : AcceptToken) (final : TokenWalk)
    (s : Synthesis) (task : Task) (w w' : TokenWalk) (links : Links) : Prop where
  before : w.Before final
  outcomes : ∀ e ∈ task.pending,
    Outcome g token accept final s task.place task.state links e.1 e.2
  entered (medium : NodeId) (noted : Links) : w'.visited.get? medium = some (some noted) →
    w.visited.get? medium = some (some noted) ∨
    ∃ state, Part g token accept final (.level ⟨medium, []⟩ ((g.trie? medium).getD .empty) state)
      noted

theorem Before.of_visited (h : w'.Before final) (hg : w.Grows w') (hv : w'.visited = w.visited) :
    w.Before final :=
  ⟨hg.trans h.grows, fun medium links hm => h.noted medium links (hv ▸ hm)⟩

theorem Walks.leaves {task : Task} (h : Walks g accept task w links w') (hw : w.Sound g)
    (hs : task.state < w.synthesis.arena.size)
    (hl : LinksAt w.synthesis.arena task.state task.links) (hf : w'.Before final)
    (htour : Toured g token task.leg w) (hfinal : final.synthesis.Grows s) (hsound : s.Sound g) :
    Leaves g token accept final s task w w' links := by
  induction h with
  | @level p trie state w w₁ w₂ links _ ha _ ih =>
    obtain ⟨hw₁, hg₁, -⟩ := acceptIf_spec hw hs ha
    obtain ⟨_, rfl⟩ := acceptIf_cases ha
    have hrest := ih hw₁ (Nat.lt_of_lt_of_le hs hg₁.arena.size_le) (linksAt_empty _ _) hf
      (htour.level _)
    exact ⟨hrest.before.of_visited hg₁ rfl, fun _ he => absurd he List.not_mem_nil, hrest.entered⟩
  | done w => exact ⟨hf, fun _ he => absurd he List.not_mem_nil, fun _ _ hm => .inl hm⟩
  | @terminal p head continuation rest state last links links₁ links₂ w w₁ w₂ w₃ n hn ht hsp hb h ihb
      ih =>
    obtain ⟨hw₁, hg₁, hat, -, hlast, hset, hwalk, hfirst⟩ :=
      spellTerminal_spec hw hs (Grammar.spelled_of_node? hn ht) hl hsp
    obtain ⟨hw₂, hg₂, -⟩ := hb.grows hw₁ hlast (linksAt_empty _ _)
    have hs₂ := Nat.lt_of_lt_of_le hs (hg₁.trans hg₂).arena.size_le
    have hat₂ := hat.of_extends hg₂.arena
    obtain ⟨-, -, -, hinc⟩ := h.grows hw₂ hs₂ hat₂
    cases hsp
    obtain ⟨htour₁, htour₂⟩ := htour.pass (not_isMedium_of_isTerminal (isTerminal_of_node? hn ht)) hb
    have hrest := ih hw₂ hs₂ hat₂ hf htour₂
    have hbehind := ihb hw₁ hlast (linksAt_empty _ _) hrest.before htour₁
    have hgrows := hbehind.before.grows.synthesis.trans hfinal
    refine ⟨hbehind.before.of_visited hg₁ rfl, ?_, fun medium noted hm => ?_⟩
    · refine List.forall_mem_cons.2 ⟨?_, hrest.outcomes⟩
      refine .terminal hn ht (fun hplain => ?_) (fun hplain hne => ?_)
        ⟨_, w₂, hb, hw₁, hlast, linksAt_empty _ _, hrest.before, htour₁⟩
      · exact (Synthesis.reads_of_settled hw₁.synthesis hset hplain hwalk).grows hw₁.synthesis hsound
          hgrows
      · exact ((Synthesis.readsBy_of_settled hw₁.synthesis hset hplain hne hwalk hat hfirst).grows
          hw₁.synthesis hsound hgrows).includes hinc
    · rcases hrest.entered medium noted hm with hm | hpart
      · exact hbehind.entered medium noted hm
      · exact .inr hpart
  | @again p head rest state links links₁ w w₁ w₂ hm hv ha h ih =>
    obtain ⟨hw₁, hg₁, hloop, htoken⟩ := meetAgain_spec hw hs ha
    obtain ⟨hmet, htour₁⟩ := htour.again hm hv ha
    have hrest := ih hw₁ (Nat.lt_of_lt_of_le hs hg₁.arena.size_le) (hl.of_extends hg₁.arena) hf
      htour₁
    obtain ⟨_, -, rfl⟩ := meetAgain_cases ha
    refine ⟨hrest.before.of_visited hg₁ rfl, ?_, hrest.entered⟩
    refine List.forall_mem_cons.2 ⟨.again hm hmet (hrest.before.grows.loops hloop) (fun hends => ?_),
      hrest.outcomes⟩
    obtain ⟨x, hx, -⟩ := htoken hends
    exact (hrest.before.grows.synthesis.trans hfinal).accepting hx
  | @enter p head rest state links nested links₁ w w₁ w₂ hm hv hlevel h ihl ih =>
    have hnew : ({ w with visited := w.visited.insert head none } : TokenWalk).Sound g :=
      hw.noting _ (fun _ he => absurd he (Option.not_mem_none _))
    obtain ⟨hw₁, hg₁, hat, -⟩ := hlevel.grows hnew hs (linksAt_empty _ _)
    obtain ⟨hat₁, -, hinc₁⟩ := (hl.of_extends hg₁.arena).insertAll_entries hat
    have hnoted := hw₁.noting head (v := some nested) (fun _ he => ⟨_, Option.some.inj he ▸ hat⟩)
    have hs₁ := Nat.lt_of_lt_of_le hs hg₁.arena.size_le
    obtain ⟨-, -, -, hinc₂⟩ := h.grows hnoted hs₁ hat₁
    obtain ⟨htour₁, htour₂⟩ := htour.enter hm hv hlevel
    have hrest := ih hnoted hs₁ hat₁ hf htour₂
    have hinside : w₁.visited.get? head = some none := hlevel.visited (by
      rw [Dictionary.get?_insert, if_pos rfl])
    -- what was noted of the medium itself was not there while it was walked
    have hbefore : w₁.Before final := by
      refine ⟨((grows_withVisited _ _).trans hrest.before.grows), fun medium noted hmed => ?_⟩
      refine hrest.before.noted medium noted ?_
      rw [Dictionary.get?_insert, if_neg]
      · exact hmed
      · rintro rfl
        cases hinside.symm.trans hmed
    have hin := ihl hnew hs (linksAt_empty _ _) hbefore htour₁
    have hpart : Part g token accept final
        (.level ⟨head, []⟩ ((g.trie? head).getD .empty) state) nested :=
      ⟨_, w₁, hlevel, hnew, hs, linksAt_empty _ _, hbefore, htour₁⟩
    refine ⟨⟨(grows_withVisited _ _).trans hin.before.grows, fun medium noted hmed => ?_⟩, ?_,
      fun medium noted hmed => ?_⟩
    · refine hin.before.noted medium noted ?_
      rw [Dictionary.get?_insert, if_neg]
      · exact hmed
      · rintro rfl
        simp [Dictionary.contains, hmed] at hv
    · exact List.forall_mem_cons.2 ⟨.enter hm hpart (hinc₁.trans hinc₂), hrest.outcomes⟩
    · rcases hrest.entered medium noted hmed with hmed | hother
      · rw [Dictionary.get?_insert] at hmed
        split at hmed
        next he =>
          cases hmed
          exact .inr ⟨state, he ▸ hpart⟩
        next hne =>
          rcases hin.entered medium noted hmed with hmed | hother
          · rw [Dictionary.get?_insert, if_neg hne] at hmed
            exact .inl hmed
          · exact .inr hother
      · exact .inr hother
  | @symbolClass p head continuation rest state target links links₁ links₂ w w₁ w₂ w₃ data hc hsp hb h
      ihb ih =>
    obtain ⟨hw₁, hg₁, hat, -, hlt, -, hlink⟩ := takeClass_spec hw hs hl hsp
    obtain ⟨hw₂, hg₂, -⟩ := hb.grows hw₁ hlt (linksAt_empty _ _)
    have hs₂ := Nat.lt_of_lt_of_le hs (hg₁.trans hg₂).arena.size_le
    have hat₂ := hat.of_extends hg₂.arena
    obtain ⟨-, -, -, hinc⟩ := h.grows hw₂ hs₂ hat₂
    cases hsp
    obtain ⟨htour₁, htour₂⟩ := htour.pass (not_isMedium_of_class hc) hb
    have hrest := ih hw₂ hs₂ hat₂ hf htour₂
    have hbehind := ihb hw₁ hlt (linksAt_empty _ _) hrest.before htour₁
    refine ⟨hbehind.before.of_visited hg₁ rfl, ?_, fun medium noted hm => ?_⟩
    · exact List.forall_mem_cons.2 ⟨.symbolClass hc (hinc _ _ hlink)
        ⟨_, w₂, hb, hw₁, hlt, linksAt_empty _ _, hrest.before, htour₁⟩, hrest.outcomes⟩
    · rcases hrest.entered medium noted hm with hm | hpart
      · exact hbehind.entered medium noted hm
      · exact .inr hpart
  | ends _ ha =>
    obtain ⟨hw₁, hg₁, -⟩ := accept_spec hw hs ha
    obtain ⟨_, -, rfl⟩ := accept_cases ha
    exact ⟨hf.of_visited hg₁ rfl, fun _ he => absurd he List.not_mem_nil, fun _ _ hm => .inl hm⟩
  | goes ht _ ih =>
    have hrest := ih hw hs (linksAt_empty _ _) hf (htour.goes ht)
    exact ⟨hrest.before, fun _ he => absurd he List.not_mem_nil, hrest.entered⟩

/-! ### Parts of a finished walk -/

/-- A walk that is done, its loops closed. Of a medium that was met again some links were noted, at
a state where it was walked, and these were added. -/
structure Finished (g : Grammar) (token : NodeId) (accept : AcceptToken) (final : TokenWalk)
    (s : Synthesis) : Prop where
  sound : s.Sound g
  grows : final.synthesis.Grows s
  closed (state : StateId) (medium : NodeId) : (state, medium) ∈ final.loops →
    ∃ noted, final.visited.get? medium = some (some noted) ∧ LinksAt s.arena state noted
  entered (medium : NodeId) (noted : Links) : final.visited.get? medium = some (some noted) →
    ∃ state, Part g token accept final (.level ⟨medium, []⟩ ((g.trie? medium).getD .empty) state)
      noted

theorem mem_ordered {cases : List (NodeId × Option NodeId)} {e : NodeId × Option NodeId}
    (he : e ∈ cases) (hk : isTerminal g e.1 ∨ isMedium g e.1 ∨ (classOf? g e.1).isSome) :
    e ∈ ordered g cases := by
  rcases hk with hk | hk | hk
  · exact List.mem_append_left _ (List.mem_append_left _ (List.mem_filter.2 ⟨he, hk⟩))
  · exact List.mem_append_left _ (List.mem_append_right _ (List.mem_filter.2 ⟨he, hk⟩))
  · exact List.mem_append_right _ (List.mem_filter.2 ⟨he, hk⟩)

/-- A level whose walk is done. -/
structure Level (g : Grammar) (token : NodeId) (accept : AcceptToken) (final : TokenWalk)
    (s : Synthesis) (p : Place) (trie : Trie) (state : StateId) (links : Links) : Prop where
  loopless : trie.recursion = none
  accepts : trie.interruptable → (s.arena.tokenOf state).isSome
  linked : LinksAt s.arena state links
  outcome : ∀ e ∈ ordered g trie.cases, Outcome g token accept final s p state links e.1 e.2

theorem Part.level {trie : Trie} (hf : Finished g token accept final s)
    (h : Part g token accept final (.level p trie state) links) :
    Level g token accept final s p trie state links := by
  obtain ⟨w, w', hwalk, hw, hs, -, hb, htour⟩ := h
  obtain ⟨-, -, hat, -⟩ := hwalk.grows hw hs (linksAt_empty _ _)
  cases hwalk with
  | level hr ha hheads =>
    obtain ⟨hw₁, hg₁, htoken⟩ := acceptIf_spec hw hs ha
    obtain ⟨_, rfl⟩ := acceptIf_cases ha
    have hleaves := hheads.leaves hw₁ (Nat.lt_of_lt_of_le hs hg₁.arena.size_le) (linksAt_empty _ _)
      hb (htour.level _) hf.grows hf.sound
    refine ⟨hr, fun hends => ?_, hat.of_extends (hb.grows.synthesis.trans hf.grows).arena,
      hleaves.outcomes⟩
    obtain ⟨x, hx, -⟩ := htoken hends
    exact (hleaves.before.grows.synthesis.trans hf.grows).accepting hx

/-- Behind a head the case ends and is accepted, or the level that follows spells the rest. -/
theorem Part.behind {continuation : Option NodeId} {rest : List NodeId}
    (hf : Finished g token accept final s)
    (h : Part g token accept final (.behind p continuation state) links)
    (hs : SpellsBehind g continuation rest) :
    (rest = [] ∧ (s.arena.tokenOf state).isSome) ∨
      ∃ trie links, Part g token accept final (.level p trie state) links ∧
        trie.Spells g.trie? rest := by
  obtain ⟨w, w', hwalk, hw, hstate, -, hb, htour⟩ := h
  cases hwalk with
  | ends hc ha =>
    obtain ⟨-, -, x, hx, -⟩ := accept_spec hw hstate ha
    cases continuation with
    | none => exact .inl ⟨hs, (hb.grows.synthesis.trans hf.grows).accepting hx⟩
    | some next =>
      obtain ⟨inner, hinner, -⟩ := hs
      cases hc.symm.trans hinner
  | @goes _ next trie _ links _ _ ht hlevel =>
    obtain ⟨inner, hinner, hs⟩ := hs
    obtain rfl := Option.some.inj (ht.symm.trans hinner)
    exact .inr ⟨trie, links, ⟨w, w', hlevel, hw, hstate, linksAt_empty _ _, hb, htour.goes ht⟩, hs⟩

/-! ### Heads of a level -/

section Heads

variable {trie : Trie} {head : NodeId} {rest : List NodeId}
  (h : Level g token accept final s p trie state links)
  (hs : trie.Spells g.trie? (head :: rest))

include h hs

/-- The head of a case that is spelled was taken. -/
theorem Level.taken (hk : isTerminal g head ∨ isMedium g head ∨ (classOf? g head).isSome) :
    ∃ continuation, Outcome g token accept final s p state links head continuation ∧
      SpellsBehind g continuation rest := by
  obtain ⟨next, hmem, hs⟩ := hs
  exact ⟨next, h.outcome _ (mem_ordered hmem hk), hs⟩

/-- A terminal was spelled. -/
theorem Level.terminal {n : Node} (hn : g.node? head = some n) (ht : n.isTerminal) :
    ∃ continuation last behind, SpellsBehind g continuation rest ∧
      (Plain g n.name.toList → s.Reads state n.name.toList last) ∧
      (Plain g n.name.toList → n.name.toList ≠ [] → s.ReadsBy links n.name.toList last) ∧
      Part g token accept final (.behind (p.past head) continuation last) behind := by
  have hkind := isTerminal_of_node? hn ht
  obtain ⟨continuation, ho, hs⟩ := h.taken hs (.inl hkind)
  cases ho with
  | terminal hn' _ hr hb hp =>
    obtain rfl := Option.some.inj (hn.symm.trans hn')
    exact ⟨_, _, _, hs, hr, hb, hp⟩
  | again hm => exact absurd hm (not_isMedium_of_isTerminal hkind)
  | enter hm => exact absurd hm (not_isMedium_of_isTerminal hkind)
  | symbolClass hc => cases (classOf?_of_isTerminal hkind).symm.trans hc

/-- A class was taken. -/
theorem Level.symbolClass {data : ClassData} (hc : classOf? g head = some data) :
    ∃ continuation target behind, SpellsBehind g continuation rest ∧
      links.get? data.key = some target ∧
      Part g token accept final (.behind (p.past head) continuation target) behind := by
  obtain ⟨continuation, ho, hs⟩ := h.taken hs (.inr (.inr (Option.isSome_of_mem hc)))
  cases ho with
  | terminal hn ht => cases (classOf?_of_isTerminal (isTerminal_of_node? hn ht)).symm.trans hc
  | again hm => cases (classOf?_of_isMedium hm).symm.trans hc
  | enter hm => cases (classOf?_of_isMedium hm).symm.trans hc
  | symbolClass hc' hl hp =>
    obtain rfl := Option.some.inj (hc.symm.trans hc')
    exact ⟨_, _, _, hs, hl, hp⟩

/-- A medium stands last. It was met again or entered. -/
theorem Level.medium (hm : isMedium g head) : rest = [] ∧
    (MetAgain g token p head ∧ (state, head) ∈ final.loops ∧
        ((g.trie? head).any (·.interruptable) → (s.arena.tokenOf state).isSome) ∨
      ∃ nested, Includes nested links ∧ Part g token accept final
        (.level ⟨head, []⟩ ((g.trie? head).getD .empty) state) nested) := by
  obtain ⟨continuation, ho, hs⟩ := h.taken hs (.inr (.inl hm))
  cases ho with
  | terminal hn ht => exact absurd hm (not_isMedium_of_isTerminal (isTerminal_of_node? hn ht))
  | again _ hmet hl ht => exact ⟨hs, .inl ⟨hmet, hl, ht⟩⟩
  | enter _ hp hi => exact ⟨hs, .inr ⟨_, hi, hp⟩⟩
  | symbolClass hc => cases (classOf?_of_isMedium hm).symm.trans hc

/-- Behind another head the case ends, or the rest is spelled at a level that was walked. -/
theorem Level.past (hf : Finished g token accept final s)
    (hk : isTerminal g head ∨ (classOf? g head).isSome) : rest = [] ∨ ∃ trie state links,
      Part g token accept final (.level (p.past head) trie state) links ∧
        trie.Spells g.trie? rest := by
  have hnot : ¬isMedium g head := by
    rcases hk with hk | hk
    · exact not_isMedium_of_isTerminal hk
    · obtain ⟨data, hc⟩ := Option.isSome_iff_exists.1 hk
      exact not_isMedium_of_class hc
  obtain ⟨continuation, ho, hs⟩ := h.taken hs (hk.imp_right .inr)
  cases ho with
  | terminal _ _ _ _ hp =>
    exact (hp.behind hf hs).imp And.left (fun ⟨trie, links, hlevel⟩ => ⟨trie, _, links, hlevel⟩)
  | again hm => exact absurd hm hnot
  | enter hm => exact absurd hm hnot
  | symbolClass _ _ hp =>
    exact (hp.behind hf hs).imp And.left (fun ⟨trie, links, hlevel⟩ => ⟨trie, _, links, hlevel⟩)

/-- A medium stands last, and somewhere it was walked. -/
theorem Level.last (hf : Finished g token accept final s) (hm : isMedium g head) :
    rest = [] ∧ ∃ state links, Part g token accept final
      (.level ⟨head, []⟩ ((g.trie? head).getD .empty) state) links := by
  obtain ⟨hlast, ⟨-, hl, -⟩ | ⟨nested, -, hentered⟩⟩ := h.medium hs hm
  · obtain ⟨noted, hnoted, -⟩ := hf.closed state head hl
    obtain ⟨origin, hwalked⟩ := hf.entered head noted hnoted
    exact ⟨hlast, origin, noted, hwalked⟩
  · exact ⟨hlast, state, nested, hentered⟩

end Heads

end TokenWalk

/-! ### The walk over a token -/

namespace Synthesis

open TokenWalk (Part Finished)

variable {g : Grammar} {s s' : Synthesis} {n : Node}

/-- Adding a token walks it from the root and finishes the walk. -/
theorem exists_finished_of_addToken (hs : s.Sound g) (h : addToken g s n = .ok s') :
    ∃ accept final links w, Finished g n.id accept final s' ∧
      Part g n.id accept final (taskOf g n.id) links ∧
      TokenWalk.Walks g accept (taskOf g n.id) (s.walkOf n.id) links w := by
  obtain ⟨tag, links, w, -, hw, hcl⟩ := addToken_cases h
  obtain ⟨hsound, hgrows, -⟩ := walk_spec hs hw
  obtain ⟨hs', hg', hclosed⟩ := TokenWalk.closeLoops_spec hsound hcl
  have htour := TokenWalk.toured_of_walks hw
  have hinside : w.visited.get? n.id = some none := hw.visited (by
    rw [walkOf, Dictionary.get?_insert, if_pos rfl])
  have hbefore : w.Before { w with visited := w.visited.insert n.id (some links) } := by
    refine ⟨TokenWalk.grows_withVisited _ _, fun medium noted hm => ?_⟩
    rw [Dictionary.get?_insert, if_neg]
    · exact hm
    · rintro rfl
      cases hinside.symm.trans hm
  have hpart : Part g n.id ⟨n.name, tag.className⟩
      { w with visited := w.visited.insert n.id (some links) } (taskOf g n.id) links :=
    ⟨_, w, hw, hs.walkOf n.id, hs.closed.root, TokenWalk.linksAt_empty _ _, hbefore, htour⟩
  refine ⟨_, _, links, w, ⟨hs', hg', fun state medium hl => hclosed _ hl, fun medium noted hm => ?_⟩,
    hpart, hw⟩
  rw [Dictionary.get?_insert] at hm
  split at hm
  next he =>
    cases hm
    exact ⟨Arena.root, he ▸ hpart⟩
  next hne =>
    have hleaves := hw.leaves (hs.walkOf n.id) hs.closed.root (TokenWalk.linksAt_empty _ _) hbefore
      htour hg' hs'
    refine (hleaves.entered medium noted hm).resolve_left (fun hwas => ?_)
    rw [walkOf, Dictionary.get?_insert, if_neg hne] at hwas
    cases hwas

end Synthesis

end Syntagma
