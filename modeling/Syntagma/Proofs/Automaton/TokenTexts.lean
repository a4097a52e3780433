import Syntagma.Proofs.Automaton.ClosedLoops
import Syntagma.Proofs.Automaton.Synthesized

/-! The texts that lead to tokens. Each token is added to states that are in order for it and for
the tokens to come, and leaves them in order for these. What is added after the tokens leads to new
states only, which accept no defined token. So whatever text leads to a state with a defined token,
the token generates it. -/

namespace Syntagma

/-! ### Closing loops -/

namespace Arena

variable {a b c : Arena} {added : StateId → String → StateId → Prop} {state target : StateId}
  {key : String}

theorem Joined.refl (added : StateId → String → StateId → Prop) (a : Arena) : Joined added a a :=
  ⟨.refl a, rfl, fun _ => rfl, .inl⟩

theorem Joined.trans (h : Joined added a b) (h' : Joined added b c) : Joined added a c where
  toExtends := h.toExtends.trans h'.toExtends
  size_eq := h'.size_eq.trans h.size_eq
  tokenOf_eq s := (h'.tokenOf_eq s).trans (h.tokenOf_eq s)
  back hl := (h'.back hl).elim h.back .inr

theorem joined_setLink (h : state < a.size) (hn : a.link? state key = none)
    (hadded : added state key target) : Joined added a (a.setLink state key target) where
  toExtends := extends_setLink h hn target
  size_eq := size_setLink ..
  tokenOf_eq := tokenOf_setLink a state key target
  back {s t k} hl := by
    rw [link?_setLink h] at hl
    split at hl
    next he =>
      obtain ⟨rfl, rfl⟩ := he
      cases hl
      exact .inr hadded
    next => exact .inl hl

end Arena

namespace TokenWalk

open Arena (Joined)

variable {g : Grammar} {n : Narrowing} {token : NodeId} {tokens : List Node} {w : TokenWalk}
  {s s' : Synthesis} {state : StateId} {medium : NodeId}
  {added : StateId → String → StateId → Prop}

theorem joined_closeLink {link : String × StateId} (hs : state < s.arena.size)
    (hadded : added state link.1 link.2) (h : closeLink g state medium s link = .ok s') :
    Joined added s.arena s'.arena := by
  unfold closeLink at h
  split at h
  next hn =>
    cases h
    exact Arena.joined_setLink hs hn hadded
  next =>
    split at h <;> cases h
    exact .refl _ _

theorem joined_foldlM_closeLink {l : List (String × StateId)} (hs : state < s.arena.size)
    (hadded : ∀ link ∈ l, added state link.1 link.2)
    (h : l.foldlM (closeLink g state medium) s = .ok s') : Joined added s.arena s'.arena := by
  have hone : ∀ link ∈ l, ∀ s₁ s₂ : Synthesis, Joined added s.arena s₁.arena →
      closeLink g state medium s₁ link = .ok s₂ → Joined added s.arena s₂.arena :=
    fun link hl s₁ s₂ h₁ h₂ =>
      h₁.trans (joined_closeLink (h₁.size_eq.symm ▸ hs) (hadded link hl) h₂)
  exact Fault.foldlM_keeps hone (.refl _ _) h

/-- Closing the loops of a walk adds the links of its loops. -/
theorem Tidy.joined (h : Tidy g n token tokens w) (hagain : ∀ e ∈ w.loops, g.ComesAgain token e.2)
    (hcl : closeLoops g w = .ok s) :
    Joined (Loops g n token w.synthesis.arena) w.synthesis.arena s.arena := by
  refine @Fault.foldlM_keeps _ _ _ _
    (fun s => Joined (Loops g n token w.synthesis.arena) w.synthesis.arena s.arena) _
    (fun e he s₁ s₂ h₁ h₂ => ?_) _ _ (.refl _ _) hcl
  obtain ⟨state, medium⟩ := e
  obtain ⟨hm, keys, honly, hwrites⟩ := h.loops _ he
  dsimp only at h₂
  split at h₂
  next links hv =>
    obtain ⟨entry, htext, henters, hlinks⟩ := h.noted medium links hv
    refine h₁.trans (joined_foldlM_closeLink ?_ (fun link hl => ?_) h₂)
    · exact h₁.size_eq.symm ▸ honly.lt_size h.orderly.closed
    · obtain ⟨htarget, hbegins⟩ := hlinks link.1 link.2 (Dictionary.mem_entries_iff.1 hl)
      exact ⟨medium, keys, entry, ⟨hagain _ he, hm⟩, honly, hwrites, htext, henters, htarget, hbegins⟩
  next => cases h₂

end TokenWalk

/-! ### Adding tokens -/

namespace Synthesis

open TokenWalk (Walkable Follows Tidy Begun isMedium)
open Arena (Orderly Fitting)

variable {g : Grammar} {n : Narrowing} {token : Node} {tokens later : List Node} {s s' : Synthesis}

/-- A grammar whose tokens can be told apart, and tables by which they are read exactly. -/
structure Telling (g : Grammar) (n : Narrowing) : Prop where
  factored : g.Factored
  passable : g.Passable
  exact : n.Exact g
  alone : g.LoopsAlone
  unrepeated : g.Unrepeated

theorem Telling.walkable (h : Telling g n) (ht : token ∈ g.tokens) (hp : token ∈ tokens) :
    Walkable g n token tokens where
  exact := h.exact
  passable := h.passable
  listed := ht
  pending := hp
  cases hw hm hs := by
    obtain ⟨node, -, hn, hmedium, -⟩ := TokenWalk.exists_trie_of_isMedium hm
    exact h.unrepeated.mem_casesOf h.factored ht hw hn hmedium hs

/-- The states are in order for these tokens, and those that accept a defined token are reached by
texts of it only. -/
structure Ordered (g : Grammar) (n : Narrowing) (tokens : List Node) (s : Synthesis) : Prop where
  orderly : s.arena.Orderly (g.Barred n tokens)
  fitting : s.arena.Fitting (g.Fits n)

theorem ordered_ofTable (g : Grammar) (n : Narrowing) (tokens : List Node) (table : ClassTable) :
    Ordered g n tokens (ofTable table) :=
  ⟨Arena.orderly_initial _, Arena.fitting_initial _⟩

/-- The walk over a token starts in order. -/
theorem Ordered.tidy (h : Ordered g n tokens s) (id : NodeId) : Tidy g n id tokens (s.walkOf id) := by
  refine ⟨h.orderly, h.fitting, fun _ he => absurd he List.not_mem_nil, fun medium links hv => ?_⟩
  simp only [walkOf, Dictionary.get?_insert] at hv
  split at hv <;> simp at hv

theorem follows_taskOf (hw : Walkable g n token tokens) (ho : s.arena.Orderly (g.Barred n tokens))
    (hm : isMedium g token.id) : Follows g n token.id s.arena [] (taskOf g token.id) := by
  obtain ⟨node, trie, -, -, htrie⟩ := TokenWalk.exists_trie_of_isMedium hm
  refine ⟨Arena.only_root ho.closed, ⟨[], .nil⟩, fun text ht rest hrest => ?_, ?_⟩
  · cases ht
    exact hw.writes_of_spells .self hm hrest
  · unfold taskOf
    rw [htrie]
    exact TokenWalk.passable_level hw.passable htrie _ _

/-- A token that is added to states in order for it and later ones leaves them in order for
these. -/
theorem Ordered.addToken (h : Ordered g n (token :: later) s) (hg : Telling g n)
    (ht : token ∈ g.tokens) (hm : isMedium g token.id) (hlater : ∀ other ∈ later, other ∈ g.tokens)
    (hnew : token ∉ later) (hs : s.Sound g) (hafter : s'.narrowing.Later n)
    (ha : addToken g s token = .ok s') : Ordered g n later s' := by
  obtain ⟨tag, links, w, -, hwalk, hcl⟩ := addToken_cases ha
  obtain ⟨hsound, -⟩ := walk_spec hs hwalk
  obtain ⟨-, hgrows, -⟩ := TokenWalk.closeLoops_spec hsound hcl
  have hw := hg.walkable ht (List.mem_cons_self (l := later))
  obtain ⟨htidy, -, hlinks⟩ := hwalk.tidy hw rfl (hgrows.narrowing.trans hafter) (hs.walkOf token.id)
    (TokenWalk.linksAt_empty _ _) (h.tidy token.id) (follows_taskOf hw h.orderly hm)
  have hbegun : Begun g n token.id w.synthesis.arena token.id links := by
    refine ⟨[], ⟨[], .nil⟩, fun text hx => ?_, fun k t hk => ?_⟩
    · cases hx
      exact .refl _
    · obtain ⟨honly, hstarts⟩ := (hlinks k t hk).resolve_left nofun
      refine ⟨honly, fun c hc => ?_⟩
      obtain ⟨case, more, last, hahead, hwrites⟩ := hstarts c hc
      exact ⟨more, last, (hw.writes_of_spells .self hm hahead).trans hwrites⟩
  have hagain := TokenWalk.comesAgain_of_mem_loops hg.factored hm hwalk
  have hjoined := (htidy.noting token.id (fun _ he => Option.some.inj he ▸ hbegun)).joined hagain hcl
  exact ⟨TokenWalk.orderly_of_joined hg.alone ht hlater hnew htidy.orderly hjoined,
    TokenWalk.fitting_of_joined hg.alone ht htidy.fitting hjoined⟩

/-- All tokens are added to states in order for them. -/
theorem Ordered.foldlM_addToken (h : Ordered g n tokens s) (hg : Telling g n)
    (htokens : ∀ token ∈ tokens, token ∈ g.tokens ∧ isMedium g token.id) (hnodup : tokens.Nodup)
    (hs : s.Sound g) (hafter : s'.narrowing.Later n)
    (ha : tokens.foldlM (Synthesis.addToken g) s = .ok s') : Ordered g n [] s' := by
  induction tokens generalizing s with
  | nil =>
    cases ha
    exact h
  | cons token later ih =>
    rw [List.foldlM_cons] at ha
    obtain ⟨s₁, hfirst, hrest⟩ := Fault.bind_eq_ok_iff.1 ha
    obtain ⟨hnew, hnodup⟩ := List.nodup_cons.1 hnodup
    obtain ⟨⟨ht, hm⟩, hlater⟩ := List.forall_mem_cons.1 htokens
    obtain ⟨hs₁, -⟩ := addToken_spec hs hfirst
    have hafter₁ := (foldlM_addToken_spec hs₁ hrest).2.narrowing.trans hafter
    have h₁ := h.addToken hg ht hm (fun other ho => (hlater other ho).1) hnew hs hafter₁ hfirst
    exact ih h₁ hlater hnodup hs₁ hrest

/-! ### Other states -/

theorem fits_genericToken (g : Grammar) (n : Narrowing) (text : String) (path : List String) :
    g.Fits n (genericToken g text) path := .inl rfl

theorem textInvariant_fit (g : Grammar) (n : Narrowing) :
    TextInvariant g (Arena.Fit (g.Fits n)) where
  closed := Arena.Fit.closed
  followAll h hf := h.followAll h.closed.root hf
  setToken text h hlt _ := h.setToken hlt (fits_genericToken g n text)

theorem fit_addTerminals (h : s.arena.Fit (g.Fits n)) (ha : addTerminals g s = .ok s') :
    s'.arena.Fit (g.Fits n) := (textInvariant_fit g n).addTerminals h ha

theorem fit_addSingleDelimiter (h : s.arena.Fit (g.Fits n)) :
    (addSingleDelimiter g s).arena.Fit (g.Fits n) := (textInvariant_fit g n).addSingleDelimiter h

/-! ### Published states -/

/-- A published automaton comes to an accepting state by texts of its token only, unless the token
is unclassified. -/
theorem Published.writes {a : FiniteAutomaton} (hp : Published g s a)
    (hf : s.arena.Fitting (g.Fits s.narrowing)) {chars : List Char} {q : StateId}
    {accepted : AcceptToken} (hw : a.walk? a.start chars = some q)
    (ht : a.accepted? q = some accepted) : accepted.className = g.classTable.unclassifiedName ∨
      ∃ token ∈ g.tokens, token.name = accepted.name ∧ g.Writes [token.id] chars [] := by
  obtain ⟨last, ⟨keys, hkeys, hwalk⟩, htoken⟩ := hp.accepts hw ht
  exact (hf last accepted keys htoken hwalk).imp_right
    (fun ⟨token, hmem, hname, hwrites⟩ => ⟨token, hmem, hname, hwrites chars hkeys⟩)

end Synthesis

end Syntagma
