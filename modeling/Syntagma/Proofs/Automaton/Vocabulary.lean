import Syntagma.Proofs.Automaton.AcceptingStates
import Syntagma.Proofs.Symbol.ClassNames

/-! The names that an automaton uses. Its links are for classes of its own table, although the table
changes while the states are made: classes only come to it, and a character that is taken out of a
class gets one. Its states accept defined tokens of the grammar, or terminals with the unclassified
class. -/

namespace Syntagma

/-! ### Keys and tokens of states -/

namespace Arena

/-- A state that is not there is not modified. -/
theorem modify_of_size_le {a : Arena} {state : StateId} (f : DraftState → DraftState)
    (h : a.size ≤ state) : a.modify state f = a := by
  apply Array.ext_getElem?
  intro s
  rw [Array.getElem?_modify]
  split
  next he => rw [← he, Array.getElem?_eq_none h, Option.map_none]
  next => rfl

/-- The links of the states are for such keys, and the states accept such tokens. -/
structure Uses (key : String → Prop) (token : AcceptToken → Prop) (a : Arena) : Prop where
  link {s t : StateId} {k : String} : a.link? s k = some t → key k
  token {s : StateId} {x : AcceptToken} : a.tokenOf s = some x → token x

namespace Uses

variable {key key' : String → Prop} {token : AcceptToken → Prop} {a a' : Arena} {state : StateId}
  {k : String}

theorem imp (h : a.Uses key token) (hkey : ∀ k, key k → key' k) : a.Uses key' token :=
  ⟨fun hl => hkey _ (h.link hl), h.token⟩

theorem initial : Arena.initial.Uses key token where
  link {s t k} hl := by
    obtain rfl : s = 0 := Nat.lt_one_iff.1 (lt_size_of_link? hl)
    cases hl
  token {s x} hx := by
    obtain rfl : s = 0 := Nat.lt_one_iff.1 (lt_size_of_tokenOf hx)
    cases hx

theorem grown (h : a.Uses key token) : a.grown.Uses key token where
  link hl := h.link ((link?_grown a _ _).symm.trans hl)
  token hx := h.token ((tokenOf_grown a _).symm.trans hx)

theorem setLink (h : a.Uses key token) (hk : key k) (target : StateId) :
    (a.setLink state k target).Uses key token where
  link {s t k'} hl := by
    by_cases hs : state < a.size
    · rw [link?_setLink hs] at hl
      split at hl
      next he => exact he.2 ▸ hk
      next => exact h.link hl
    · rw [Arena.setLink, modify_of_size_le _ (Nat.le_of_not_lt hs)] at hl
      exact h.link hl
  token hx := h.token ((tokenOf_setLink a _ _ _ _).symm.trans hx)

theorem setToken (h : a.Uses key token) {x : AcceptToken} (hx : token x) :
    (a.setToken state x).Uses key token where
  link hl := h.link ((link?_setToken a _ _ _ _).symm.trans hl)
  token {s y} hy := by
    by_cases hs : state < a.size
    · rw [tokenOf_setToken hs] at hy
      split at hy
      · cases hy
        exact hx
      · exact h.token hy
    · rw [Arena.setToken, modify_of_size_le _ (Nat.le_of_not_lt hs)] at hy
      exact h.token hy

theorem follow (h : a.Uses key token) (hk : key k) : (a.follow state k).2.Uses key token := by
  obtain ⟨next, -, he⟩ | ⟨-, he⟩ := follow_cases a state k
  · rw [he]
    exact h
  · rw [he]
    exact h.grown.setLink hk _

theorem followAll (h : a.Uses key token) {keys : List String} (hkeys : ∀ k ∈ keys, key k) :
    (a.followAll state keys).2.Uses key token := by
  induction keys generalizing a state with
  | nil => exact h
  | cons k keys ih =>
    obtain ⟨hk, hkeys⟩ := List.forall_mem_cons.1 hkeys
    exact ih (h.follow hk) hkeys

/-! ### Widening -/

variable {n : Nat} {memo memo' : Merged} {p s m target : StateId}

/-- A merged state has the links and the token of its parts. -/
theorem merge (h : a.Uses key token) (hr : Recorded n a memo) (hp : p < a.size) (hs : s < a.size)
    (hm : Arena.merge p s a memo = (m, a', memo')) : a'.Uses key token := by
  have hmerging := merging_merge hr hp hs
  rw [hm] at hmerging
  have hgrew := hmerging.grew
  have hold {q : StateId} (hq : q < a.size) :
      (∀ k t, a'.link? q k = some t → key k) ∧ ∀ x, a'.tokenOf q = some x → token x :=
    ⟨fun k t hl => h.link ((hgrew.link? hq k).symm.trans hl),
      fun x hx => h.token ((hgrew.token hq).symm.trans hx)⟩
  have hall (q : StateId) (hq : q < a'.size) :
      (∀ k t, a'.link? q k = some t → key k) ∧ ∀ x, a'.tokenOf q = some x → token x := by
    rcases Nat.lt_or_ge q a.size with hlt | hge
    · exact hold hlt
    obtain ⟨p', s', hmade⟩ := hmerging.made q hge hq
    obtain ⟨hkeys, htoken⟩ := hold hmade.left
    obtain ⟨hkeys', htoken'⟩ := hold hmade.right
    refine ⟨fun k t hl => ?_, fun x hx => ?_⟩
    · have hjoins := hmade.link k
      rw [hl] at hjoins
      generalize hx : a'.link? p' k = x at hjoins
      generalize hy : a'.link? s' k = y at hjoins
      cases hjoins with
      | first | same | both => exact hkeys k _ hx
      | second => exact hkeys' k _ hy
    · rw [hmade.token] at hx
      cases hfirst : a'.tokenOf p' with
      | some y =>
        rw [hfirst] at hx
        exact htoken x (hfirst.trans hx)
      | none =>
        rw [hfirst] at hx
        exact htoken' x hx
  exact ⟨fun hl => (hall _ (lt_size_of_link? hl)).1 _ _ hl,
    fun hx => (hall _ (lt_size_of_tokenOf hx)).2 _ hx⟩

theorem addNarrowedLink (h : a.Uses key token) (hr : Recorded n a memo) (hs : state < a.size)
    (ht : target < a.size) (hk : key k)
    (hadd : Arena.addNarrowedLink state target k a memo = (a', memo')) :
    Recorded n a' memo' ∧ a'.Uses key token ∧ a.size ≤ a'.size := by
  rcases addNarrowedLink_cases hadd with ⟨-, rfl, rfl⟩ | ⟨-, rfl, rfl⟩ |
    ⟨existing, merged, a₁, hl, hm, rfl⟩
  · exact ⟨hr.setLink hs ht, h.setLink hk _, by simp⟩
  · exact ⟨hr, h, Nat.le_refl _⟩
  · have hmerging := merging_merge hr (hr.target hl) ht
    have hmerged := h.merge hr (hr.target hl) ht hm
    rw [hm] at hmerging
    have hle := hmerging.grew.size_le
    have hlt := (hmerging.recorded.bounds hmerging.done).2.2.2
    refine ⟨hmerging.recorded.setLink (Nat.lt_of_lt_of_le hs hle) hlt, hmerged.setLink hk _, ?_⟩
    rw [size_setLink]
    exact hle

/-- Widening adds links for characters that classes have lost. -/
theorem widen {removed : Dictionary String (List Char)} (h : a.Uses key token) (ha : a.InRange)
    (hlost : ∀ name c, lostOf removed name c → key (String.singleton c))
    (hw : a.widen removed = some a') : a'.Uses key token := by
  have hadd {a₁ a₂ : Arena} {memo₁ memo₂ : Merged} {state target : StateId} {c : Char}
      (h : Recorded a.size a₁ memo₁ ∧ a₁.Uses key token) (hs : state < a₁.size)
      (ht : target < a₁.size) (hc : ∃ name, lostOf removed name c)
      (hadd : Arena.addNarrowedLink state target (String.singleton c) a₁ memo₁ = (a₂, memo₂)) :
      (Recorded a.size a₂ memo₂ ∧ a₂.Uses key token) ∧ a₁.size ≤ a₂.size := by
    obtain ⟨name, hc⟩ := hc
    obtain ⟨hr, h', hle⟩ := h.2.addNarrowedLink h.1 hs ht (hlost name c hc) hadd
    exact ⟨⟨hr, h'⟩, hle⟩
  obtain ⟨memo, -, h'⟩ := widen_keeps (fun h _ _ _ hl => h.1.target hl) hadd
    ⟨recorded_empty ha, h⟩ hw
  exact h'

end Uses

end Arena

/-! ### Synthesis -/

/-- A defined token of the grammar with the name of its class, or something unclassified. -/
def Grammar.Labels (g : Grammar) (x : AcceptToken) : Prop :=
  (∃ n ∈ g.tokens, ∃ tag, n.tokenTag? = some tag ∧ x = ⟨n.name, tag.className⟩) ∨
    x.className = g.classTable.unclassifiedName

/-- The classes of the nodes are declared in the table, and the single delimiters have a class
there. -/
structure Grammar.Declares (g : Grammar) : Prop where
  key {id : NodeId} {data : ClassData} : (g.node? id).bind (·.class?) = some data →
    data.key ∈ g.classTable.classNames
  singleDelimiter : singleDelimiterName ∈ g.classTable.classNames

namespace Synthesis

variable {g : Grammar} {s s' : Synthesis} {state : StateId}

/-- The links of the states are for classes of the table, and the tokens are those of the grammar. -/
structure Accounted (g : Grammar) (s : Synthesis) : Prop where
  narrowing : s.narrowing.Keyed g.classTable
  arena : s.arena.Uses (· ∈ s.narrowing.table.classNames) g.Labels

namespace Accounted

/-- A change to the states alone. -/
theorem withArena (h : s.Accounted g) {a : Arena}
    (ha : a.Uses (· ∈ s.narrowing.table.classNames) g.Labels) :
    ({ s with arena := a } : Synthesis).Accounted g := ⟨h.narrowing, ha⟩

theorem ofTable (g : Grammar) : (Synthesis.ofTable g.classTable).Accounted g :=
  ⟨Narrowing.keyed_ofTable g.classTable, .initial⟩

theorem accept (h : s.Accounted g) {token : AcceptToken} (ht : g.Labels token)
    (ha : s.accept state token = .ok s') : s'.Accounted g := by
  unfold Synthesis.accept at ha
  split at ha
  next =>
    split at ha <;> cases ha
    exact h
  next =>
    cases ha
    exact h.withArena (h.arena.setToken ht)

theorem follow (h : s.Accounted g) {key : String} (hkey : key ∈ s.narrowing.table.classNames) :
    (s.follow state key).2.Accounted g := h.withArena (h.arena.follow hkey)

/-- Taking keys narrows the classes, and the states use those that come of it. -/
theorem keys (h : s.Accounted g) {text : List Char} {keys : List String} {n : Narrowing}
    (hk : s.narrowing.keys text = (keys, n)) :
    ({ s with narrowing := n } : Synthesis).Accounted g ∧ ∀ k ∈ keys, k ∈ n.table.classNames := by
  obtain ⟨hn, hsub, hkeys⟩ := h.narrowing.keys hk
  exact ⟨⟨hn, h.arena.imp (fun _ hname => hsub hname)⟩, hkeys⟩

theorem literalPath (h : s.Accounted g) {text : List Char} {last : StateId}
    (hp : s.literalPath text = (last, s')) : s'.Accounted g := by
  unfold Synthesis.literalPath at hp
  rcases hk : s.narrowing.keys text with ⟨keys, n⟩
  obtain ⟨h₁, hkeys⟩ := h.keys hk
  rw [hk] at hp
  cases hp
  exact h₁.withArena (h₁.arena.followAll hkeys)

end Accounted

theorem labels_genericToken (g : Grammar) (text : String) : g.Labels (genericToken g text) := .inr rfl

end Synthesis

namespace TokenWalk

variable {g : Grammar} {accept : AcceptToken} {w w' : TokenWalk} {state : StateId} {links links' : Links}
  {s s' : Synthesis}

theorem accounted_spell (h : s.Accounted g) {current last : StateId} {keys : List String}
    (hkeys : ∀ k ∈ keys, k ∈ s.narrowing.table.classNames)
    (hs : spell state current keys links s = (last, links', s')) : s'.Accounted g := by
  induction keys generalizing current links s with
  | nil =>
    cases hs
    exact h
  | cons key keys ih =>
    obtain ⟨hkey, hkeys⟩ := List.forall_mem_cons.1 hkeys
    exact ih (s := (s.follow current key).2) (h.follow hkey) hkeys hs

/-- A walk makes links for classes of the table and for keys of terminals, and its states accept its
token. -/
theorem Walks.accounted {task : Task} (h : Walks g accept task w links w') (hg : g.Declares)
    (ht : g.Labels accept) (hw : w.synthesis.Accounted g) : w'.synthesis.Accounted g := by
  have hif {w w' : TokenWalk} {state : StateId} {ends : Bool} (hw : w.synthesis.Accounted g)
      (ha : (if ends then w.accept state accept else .ok w) = .ok w') :
      w'.synthesis.Accounted g := by
    split at ha
    · obtain ⟨s, hs, rfl⟩ := accept_cases ha
      exact hw.accept ht hs
    · cases ha
      exact hw
  induction h with
  | level _ ha _ ih => exact ih (hif hw ha)
  | done w => exact hw
  | @terminal p head continuation rest state last links links₁ links₂ w w₁ w₂ w₃ n _ _ hs _ _ ihb ih =>
    refine ih (ihb ?_)
    unfold spellTerminal at hs
    rcases hk : w.synthesis.narrowing.keys n.name.toList with ⟨keys, narrowing⟩
    obtain ⟨h₁, hkeys⟩ := hw.keys hk
    rw [hk] at hs
    cases hs
    exact accounted_spell h₁ hkeys rfl
  | again _ _ ha _ ih =>
    obtain ⟨s, hs, rfl⟩ := meetAgain_cases ha
    have hs' : s.Accounted g := hif hw hs
    exact ih hs'
  | enter _ _ _ _ ihl ih => exact ih (ihl hw)
  | symbolClass hc hs _ _ ihb ih =>
    refine ih (ihb ?_)
    have hkey := hw.narrowing.declared (hg.key hc)
    unfold takeClass at hs
    cases hs
    exact hw.follow hkey
  | ends _ ha =>
    obtain ⟨s, hs, rfl⟩ := accept_cases ha
    exact hw.accept ht hs
  | goes _ _ ih => exact ih hw

/-- Closing loops copies links. -/
theorem accounted_closeLoops (hw : w.synthesis.Accounted g) (hf : w.Formed)
    (hcl : closeLoops g w = .ok s) : s.Accounted g := by
  let good (s : Synthesis) : Prop := s.Accounted g ∧ s.narrowing = w.synthesis.narrowing
  suffices h : good s from h.1
  refine Fault.foldlM_keeps (fun e _ s₁ s₂ h₁ h₂ => ?_) (⟨hw, rfl⟩ : good w.synthesis) hcl
  dsimp only at h₂
  split at h₂
  next links hv =>
    obtain ⟨origin, hat⟩ := hf.noted e.2 links hv
    refine Fault.foldlM_keeps (fun link hl s₃ s₄ h₃ h₄ => ?_) h₁ h₂
    have hkey : link.1 ∈ s₃.narrowing.table.classNames :=
      h₃.2 ▸ hw.arena.link (hat link.1 link.2 (Dictionary.mem_entries_iff.1 hl))
    unfold closeLink at h₄
    split at h₄
    · cases h₄
      exact ⟨h₃.1.withArena (h₃.1.arena.setLink hkey _), h₃.2⟩
    · split at h₄ <;> cases h₄
      exact h₃
  next => cases h₂

end TokenWalk

namespace Synthesis

variable {g : Grammar} {s s' : Synthesis}

theorem accounted_addToken (h : s.Accounted g) (hc : s.arena.Closed) (hg : g.Declares) {n : Node}
    (hn : n ∈ g.tokens) (ha : addToken g s n = .ok s') : s'.Accounted g := by
  obtain ⟨tag, links, w, htag, hw, hcl⟩ := addToken_cases ha
  obtain ⟨hformed, -⟩ := walk_builds hc hw
  have hwalk := hw.accounted hg (.inl ⟨n, hn, tag, htag, rfl⟩) h
  exact TokenWalk.accounted_closeLoops
    (w := ⟨w.synthesis, w.visited.insert n.id (some links), w.loops⟩) hwalk hformed hcl

/-- Texts get paths of keys that were looked up, and unclassified tokens. -/
theorem pathInvariant_accounted (hg : g.Declares) :
    PathInvariant g (fun s => s.Accounted g ∧ s.arena.Closed) where
  closed := And.right
  path {s s' chars last} h hp := by
    refine ⟨h.1.literalPath hp, ?_⟩
    unfold Synthesis.literalPath at hp
    cases hp
    exact (Arena.followAll_spec h.2 h.2.root rfl).1.closed h.2
  delimiter {s s' target} h hf := by
    have hkey := h.1.narrowing.declared hg.singleDelimiter
    unfold Synthesis.follow at hf
    cases hf
    exact ⟨h.1.follow hkey, (Arena.follow_spec h.2 h.2.root rfl).1.closed h.2⟩
  setToken text h _ _ :=
    ⟨h.1.withArena (h.1.arena.setToken (labels_genericToken g text)), Arena.closed_setToken h.2 _ _⟩
  takePromoted h := ⟨⟨h.1.narrowing.takePromoted, h.1.arena⟩, h.2⟩

/-- All stages of synthesis use names of the table and tokens of the grammar only. -/
theorem accounted_ofGrammar (hg : g.Declares) (h : ofGrammar g = .ok s) :
    s.Accounted g ∧ s.arena.InRange ∧ Arena.root < s.arena.size := by
  obtain ⟨s₁, s₂, arena, h₁, h₂, hw, rfl⟩ := ofGrammar_cases h
  have hfirst : s₁.Accounted g ∧ s₁.arena.Closed := by
    refine @Fault.foldlM_keeps _ _ _ _ (fun s : Synthesis => s.Accounted g ∧ s.arena.Closed) _
      (fun n hn s s' hs ha => ?_) _ _ ⟨.ofTable g, Arena.closed_initial⟩ h₁
    exact ⟨accounted_addToken hs.1 hs.2 hg hn ha, (addToken_builds hs.2 ha).closed hs.2⟩
  have hi := pathInvariant_accounted hg
  obtain ⟨hlast, hclosed⟩ := hi.addSingleDelimiter (hi.addTerminals hfirst h₂)
  obtain ⟨hroot, hrange, -⟩ := Arena.exists_walk?_of_widen hclosed hw
  exact ⟨hlast.withArena (hlast.arena.widen hclosed.inRange (fun _ _ => hlast.narrowing.lost) hw),
    hrange, hroot⟩

end Synthesis

/-! ### Published automata -/

/-- In a compiled grammar the key of each class is declared. -/
theorem declares_of_compile {description : GrammarDescription} {options : GrammarOptions}
    {g : Grammar} (h : Grammar.compile description options = .ok g) : g.Declares := by
  obtain ⟨_, entered, f, -, hc⟩ := classified_of_compile h
  obtain ⟨base, -, htable⟩ := hc.table
  refine ⟨fun {id data} hclass => ?_, ?_⟩
  · obtain ⟨n, hn, hdata⟩ := Option.bind_eq_some_iff.1 hclass
    have hisClass : n.isClass := by simp [Node.isClass, hdata]
    obtain ⟨i, m, hm, -, rfl⟩ := hc.published id n hn (.inr hisClass)
    have hm' : m.class? = some data := by
      obtain ⟨mid, name, execClass, kind⟩ := m
      cases kind <;> exact hdata
    rw [htable]
    refine Coverage.mem_classNames_register (.inr ⟨⟨data.key, data.symbols.toList⟩, ?_, rfl⟩)
    refine List.mem_filterMap.2 ⟨m, Array.mem_toList_iff.2 (Array.mem_of_getElem? hm), ?_⟩
    rw [hm', Option.map_some]
  · rw [htable]
    exact Coverage.mem_classNames_register (.inl rfl)

namespace FiniteAutomaton

/-- An automaton for a grammar. Its states refer to states that are there and to classes of its own
table, none has a map without links, and what they accept are defined tokens with their classes or
something unclassified. -/
structure WellFormed (g : Grammar) (a : FiniteAutomaton) : Prop where
  start : a.start < a.states.size
  target {q t : StateId} {k : String} : (a.state? q).bind (·.link? k) = some t → t < a.states.size
  linked : ∀ s ∈ a.states, s.Linked
  key {q t : StateId} {k : String} : (a.state? q).bind (·.link? k) = some t →
    k ∈ a.classTable.classNames
  token {q : StateId} {x : AcceptToken} : a.accepted? q = some x →
    (∃ n ∈ g.tokens, ∃ tag, n.tokenTag? = some tag ∧ x = ⟨n.name, tag.className⟩) ∨
      x.className = a.classTable.unclassifiedName

end FiniteAutomaton

end Syntagma
