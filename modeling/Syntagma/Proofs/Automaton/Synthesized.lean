import Syntagma.Automaton.Build
import Syntagma.Proofs.Automaton.Growth
import Syntagma.Proofs.Automaton.Minimization
import Syntagma.Proofs.Automaton.Widening
import Syntagma.Proofs.Lexing.Cuts

/-! What the synthesized states read. A text leads from state to state if there are links for its
characters, be it of their classes or of classes that have lost them; this stays so while synthesis
goes on. Widening and minimization make an automaton that reads and accepts just that. -/

namespace Syntagma

namespace Synthesis

/-- The text leads from one state to the other. -/
def Reads (s : Synthesis) (state : StateId) (text : List Char) (last : StateId) : Prop :=
  ∃ keys, List.Forall₂ s.narrowing.Takes keys text ∧ s.arena.walk? state keys = some last

variable {g : Grammar} {s s' : Synthesis} {state middle last : StateId} {text more : List Char}

theorem reads_nil (s : Synthesis) (state : StateId) : s.Reads state [] state := ⟨[], .nil, rfl⟩

theorem reads_cons {c : Char} {key : String} (ht : s.narrowing.Takes key c)
    (hl : s.arena.link? state key = some middle) (h : s.Reads middle text last) :
    s.Reads state (c :: text) last := by
  obtain ⟨keys, hall, hw⟩ := h
  refine ⟨key :: keys, .cons ht hall, ?_⟩
  rw [Arena.walk?, hl]
  exact hw

theorem Reads.append (h : s.Reads state text middle) (h' : s.Reads middle more last) :
    s.Reads state (text ++ more) last := by
  obtain ⟨keys, hall, hw⟩ := h
  obtain ⟨keys', hall', hw'⟩ := h'
  refine ⟨keys ++ keys', List.rel_append hall hall', ?_⟩
  rw [Arena.walk?_append, hw]
  exact hw'

theorem Reads.grows (h : s.Reads state text last) (hs : s.Sound g) (hs' : s'.Sound g)
    (hg : s.Grows s') : s'.Reads state text last := by
  obtain ⟨keys, hall, hw⟩ := h
  refine ⟨keys, hall.imp (fun key c ht => ?_), hg.arena.walk? hw⟩
  exact hs.narrowed.takes_of_later hs'.narrowed hg.narrowing ht

/-- The keys of a literal without white delimiters read its text. -/
theorem reads_of_settled (hs : s.Sound g) (hset : ∀ c ∈ text, s.narrowing.Settled c)
    (hplain : ∀ c ∈ text, g.classTable.symbolInfo c ≠ .whiteDelimiter)
    (hw : s.arena.walk? state (text.filterMap s.narrowing.classOf) = some last) :
    s.Reads state text last := ⟨_, hs.narrowed.forall₂_takes hset hplain, hw⟩

/-! ### Terminals -/

theorem exists_takes_of_readStep {c : Char} {next : StateId} (h : s.readStep state c = some next) :
    ∃ key, s.narrowing.Takes key c ∧ s.arena.link? state key = some next := by
  unfold readStep at h
  rw [Narrowing.className?_symbolInfo] at h
  split at h
  next => cases h
  next name hname =>
    split at h
    next target hl =>
      cases h
      exact ⟨name, .inl hname, hl⟩
    next =>
      obtain ⟨e, he, hl⟩ := Option.bind_eq_some_iff.1 h
      have hmem := List.mem_of_find?_eq_some he
      have hlost := List.find?_some he
      refine ⟨e.1, .inr ?_, hl⟩
      unfold Narrowing.Lost
      rw [Dictionary.mem_entries_iff.1 hmem]
      exact List.contains_iff_mem.1 hlost

theorem reads_of_foldlM_readStep (h : text.foldlM s.readStep state = some last) :
    s.Reads state text last := by
  induction text generalizing state with
  | nil =>
    cases h
    exact reads_nil s _
  | cons c text ih =>
    rw [List.foldlM_cons] at h
    obtain ⟨next, hstep, h⟩ := Option.bind_eq_some_iff.1 h
    obtain ⟨key, ht, hl⟩ := exists_takes_of_readStep hstep
    exact reads_cons ht hl (ih h)

theorem exists_reads_of_readsWhole (h : s.readsWhole text) :
    ∃ last, s.Reads Arena.root text last := by
  unfold readsWhole at h
  split at h
  next last hf => exact ⟨last, reads_of_foldlM_readStep hf⟩
  next => cases h

/-- The text has no white delimiters. -/
def Plain (g : Grammar) (text : List Char) : Prop :=
  ∀ c ∈ text, g.classTable.symbolInfo c ≠ .whiteDelimiter

theorem plain_of_forall_not_mem (h : ∀ c ∈ text, c ∉ g.classTable.whiteDelimiters) :
    Plain g text := by
  intro c hc
  rw [Narrowing.symbolInfo_eq]
  split
  next => nofun
  next => simp [h c hc]

/-- The texts without white delimiters can be read from the root. -/
def Pathed (g : Grammar) (s : Synthesis) (texts : List String) : Prop :=
  ∀ text ∈ texts, Plain g text.toList → ∃ last, s.Reads Arena.root text.toList last

theorem Pathed.grows {texts : List String} (h : Pathed g s texts) (hs : s.Sound g)
    (hs' : s'.Sound g) (hg : s.Grows s') : Pathed g s' texts := by
  intro text ht hplain
  obtain ⟨last, hr⟩ := h text ht hplain
  exact ⟨last, hr.grows hs hs' hg⟩

/-- The terminals that may need a path are terminals. -/
theorem spelled_of_mem_genericTerminals
    (hu : ∀ text ∈ g.unclassifiedTerminals, ∀ c ∈ text.toList, g.Spelled c) :
    ∀ text ∈ genericTerminals g, ∀ c ∈ text.toList, g.Spelled c := by
  intro text ht
  rcases List.mem_append.1 ht with ht | ht
  · exact hu text ht
  · obtain ⟨n, hn, rfl⟩ := List.mem_map.1 ht
    obtain ⟨hn, hterminal⟩ := List.mem_filter.1 hn
    obtain ⟨id, -, hnode⟩ := List.mem_filterMap.1 hn
    have hsome : n.isTerminal := by
      unfold Node.isTerminal
      cases hdata : n.terminal? with
      | none => simp [hdata] at hterminal
      | some data => rfl
    exact fun c hc => ⟨id, n, hnode, hsome, hc⟩

theorem addTerminal_spec {done done' : List String} {text : String} (hs : s.Sound g)
    (hsp : ∀ c ∈ text.toList, g.Spelled c) (hd : Pathed g s done)
    (h : addTerminal g s done text = .ok (s', done')) :
    s'.Sound g ∧ s.Grows s' ∧ Pathed g s' done' ∧
      (Plain g text.toList → ∃ last, s'.Reads Arena.root text.toList last) := by
  unfold addTerminal at h
  split at h
  next hdone =>
    cases h
    exact ⟨hs, .refl s, hd, hd text (List.contains_iff_mem.1 hdone)⟩
  split at h
  next hread =>
    cases h
    exact ⟨hs, .refl s, hd, fun _ => exists_reads_of_readsWhole (Bool.and_eq_true_iff.1 hread).2⟩
  next =>
    rcases hp : s.literalPath text.toList with ⟨last, s₁⟩
    simp only [hp] at h
    obtain ⟨s₂, ha, h⟩ := Fault.bind_eq_ok_iff.1 h
    cases h
    obtain ⟨h₁, hg₁, hlt, hset, hw⟩ := literalPath_spec hs hsp hp
    obtain ⟨h₂, hg₂, -⟩ := accept_spec h₁ hlt ha
    have hg := hg₁.trans hg₂
    have hread (hplain : Plain g text.toList) : ∃ last, s'.Reads Arena.root text.toList last :=
      ⟨last, (reads_of_settled h₁ hset hplain hw).grows h₁ h₂ hg₂⟩
    refine ⟨h₂, hg, fun other ho hplain => ?_, hread⟩
    rcases List.mem_append.1 ho with ho | ho
    · exact hd.grows hs h₂ hg other ho hplain
    · obtain rfl := List.mem_singleton.1 ho
      exact hread hplain

theorem foldlM_addTerminal_spec {texts done done' : List String} (hs : s.Sound g)
    (hsp : ∀ text ∈ texts, ∀ c ∈ text.toList, g.Spelled c) (hd : Pathed g s done)
    (h : texts.foldlM (fun (acc : Synthesis × List String) text =>
      addTerminal g acc.1 acc.2 text) (s, done) = .ok (s', done')) :
    s'.Sound g ∧ s.Grows s' ∧ Pathed g s' texts := by
  induction texts generalizing s done with
  | nil =>
    cases h
    exact ⟨hs, .refl _, fun _ ht => absurd ht List.not_mem_nil⟩
  | cons text texts ih =>
    rw [List.foldlM_cons] at h
    obtain ⟨⟨s₁, done₁⟩, hfirst, h⟩ := Fault.bind_eq_ok_iff.1 h
    obtain ⟨h₁, hg₁, hd₁, hread⟩ := addTerminal_spec hs (hsp text List.mem_cons_self) hd hfirst
    obtain ⟨h₂, hg₂, hrest⟩ := ih h₁ (fun t ht => hsp t (List.mem_cons_of_mem _ ht)) hd₁ h
    refine ⟨h₂, hg₁.trans hg₂, fun other ho hplain => ?_⟩
    rcases List.mem_cons.1 ho with rfl | ho
    · obtain ⟨last, hr⟩ := hread hplain
      exact ⟨last, hr.grows h₁ h₂ hg₂⟩
    · exact hrest other ho hplain

/-! ### Characters taken out of classes, and single delimiters -/

theorem offerToken_spec (hs : s.Sound g) (hlt : state < s.arena.size) (token : AcceptToken) :
    ({ s with arena := s.arena.offerToken state token } : Synthesis).Sound g ∧
      s.Grows { s with arena := s.arena.offerToken state token } := by
  obtain ⟨hb, -⟩ := Arena.offerToken_spec hlt token
  exact hs.withArena hb

theorem takePromoted_spec (hs : s.Sound g) {pending : List Char} {n : Narrowing}
    (h : s.narrowing.takePromoted = (pending, n)) :
    ({ s with narrowing := n } : Synthesis).Sound g ∧ s.Grows { s with narrowing := n } ∧
      ∀ c ∈ pending, g.Spelled c := by
  obtain ⟨hn, hlater, hpending⟩ := Narrowing.takePromoted_spec hs.narrowed h
  exact ⟨⟨hs.closed, hn⟩, ⟨.refl _, hlater⟩, hpending⟩

theorem addPromoted_spec {steps : Nat} {pending : List Char} {done : List String}
    (hs : s.Sound g) (hp : ∀ c ∈ pending, g.Spelled c) :
    (addPromoted g steps pending s done).Sound g ∧
      s.Grows (addPromoted g steps pending s done) := by
  induction steps generalizing pending s done with
  | zero => exact ⟨hs, .refl s⟩
  | succ steps ih =>
    unfold addPromoted
    split
    next => exact ⟨hs, .refl s⟩
    next c hc =>
      have hone : ∀ d ∈ [c], g.Spelled d := by
        intro d hd
        obtain rfl := List.mem_singleton.1 hd
        exact hp d (List.mem_of_getLast? hc)
      -- the next round goes on from any sound synthesis that has come from this one
      have hround {s₁ : Synthesis} {done₁ : List String} (h₁ : s₁.Sound g) (hg₁ : s.Grows s₁) :
          (addPromoted g steps (pending.dropLast ++ s₁.narrowing.takePromoted.1)
            { s₁ with narrowing := s₁.narrowing.takePromoted.2 } done₁).Sound g ∧
          s.Grows (addPromoted g steps (pending.dropLast ++ s₁.narrowing.takePromoted.1)
            { s₁ with narrowing := s₁.narrowing.takePromoted.2 } done₁) := by
        obtain ⟨h₂, hg₂, hpromoted⟩ := takePromoted_spec h₁ rfl
        obtain ⟨h₃, hg₃⟩ := @ih _ (pending.dropLast ++ _) done₁ h₂ (by
          intro d hd
          rcases List.mem_append.1 hd with hd | hd
          · exact hp d (List.mem_of_mem_dropLast hd)
          · exact hpromoted d hd)
        exact ⟨h₃, (hg₁.trans hg₂).trans hg₃⟩
      by_cases hdone : done.contains (String.singleton c)
      · simp only [hdone, if_true]
        exact hround hs (.refl s)
      · simp only [hdone, Bool.false_eq_true, if_false]
        rcases hl : s.literalPath [c] with ⟨last, s₁⟩
        obtain ⟨h₁, hg₁, hlt, -⟩ := literalPath_spec hs hone hl
        obtain ⟨h₂, hg₂⟩ := offerToken_spec h₁ hlt (genericToken g (String.singleton c))
        exact hround h₂ (hg₁.trans hg₂)

theorem addTerminals_spec (hs : s.Sound g)
    (hu : ∀ text ∈ g.unclassifiedTerminals, ∀ c ∈ text.toList, g.Spelled c)
    (h : addTerminals g s = .ok s') :
    s'.Sound g ∧ s.Grows s' ∧ Pathed g s' (genericTerminals g) := by
  obtain ⟨⟨s₁, done⟩, hfold, h⟩ := Fault.bind_eq_ok_iff.1 h
  have hsp := spelled_of_mem_genericTerminals hu
  obtain ⟨h₁, hg₁, hpathed⟩ := foldlM_addTerminal_spec hs hsp
    (fun _ ht => absurd ht List.not_mem_nil) hfold
  obtain ⟨h₂, hg₂, hpending⟩ := takePromoted_spec h₁ rfl
  cases h
  obtain ⟨h₃, hg₃⟩ := addPromoted_spec h₂ hpending
  have hg := hg₂.trans hg₃
  exact ⟨h₃, hg₁.trans hg, hpathed.grows h₁ h₃ hg⟩

theorem addSingleDelimiter_spec (hs : s.Sound g) :
    (addSingleDelimiter g s).Sound g ∧ s.Grows (addSingleDelimiter g s) ∧
      ∃ target, (addSingleDelimiter g s).arena.link? Arena.root singleDelimiterName =
        some target := by
  unfold addSingleDelimiter follow
  rcases hf : s.arena.follow Arena.root singleDelimiterName with ⟨target, a⟩
  obtain ⟨hb, hlink, hlt⟩ := Arena.follow_spec hs.closed hs.closed.root hf
  obtain ⟨h₁, hg₁⟩ := hs.withArena hb
  obtain ⟨h₂, hg₂⟩ := offerToken_spec h₁ hlt (genericToken g g.classTable.unclassifiedName)
  exact ⟨h₂, hg₁.trans hg₂, target, hg₂.arena.link hlink⟩

/-! ### The published automaton -/

/-- Synthesis goes through the tokens, then the terminals, then the single delimiters, and widens
what comes of it. -/
theorem ofGrammar_cases (h : ofGrammar g = .ok s') :
    ∃ s₁ s₂ arena, g.tokens.foldlM (addToken g) (ofTable g.classTable) = .ok s₁ ∧
      addTerminals g s₁ = .ok s₂ ∧
      (addSingleDelimiter g s₂).arena.widen (addSingleDelimiter g s₂).narrowing.removed =
        some arena ∧
      s' = { addSingleDelimiter g s₂ with arena := arena } := by
  obtain ⟨s₁, h₁, h⟩ := Fault.bind_eq_ok_iff.1 h
  obtain ⟨s₂, h₂, h⟩ := Fault.bind_eq_ok_iff.1 h
  dsimp only at h
  split at h
  next arena ha =>
    cases h
    exact ⟨s₁, s₂, arena, h₁, h₂, ha, rfl⟩
  next => cases h

theorem foldlM_addToken_spec {tokens : List Node} (hs : s.Sound g)
    (h : tokens.foldlM (addToken g) s = .ok s') : s'.Sound g ∧ s.Grows s' := by
  have hstep (n : Node) (_ : n ∈ tokens) (s₁ s₂ : Synthesis) (h₁ : s₁.Sound g ∧ s.Grows s₁)
      (h₂ : addToken g s₁ n = .ok s₂) : s₂.Sound g ∧ s.Grows s₂ := by
    obtain ⟨hsound, hgrows⟩ := addToken_spec h₁.1 h₂
    exact ⟨hsound, h₁.2.trans hgrows⟩
  exact Fault.foldlM_keeps hstep ⟨hs, .refl s⟩ h

/-- An automaton beside the synthesized states that it was made from. -/
structure Published (g : Grammar) (s : Synthesis) (a : FiniteAutomaton) : Prop where
  sound : s.Sound g
  table : a.classTable = s.narrowing.table
  narrowed : a.narrowed = s.narrowing.removed
  reads {text : List Char} {last : StateId} : s.Reads Arena.root text last →
    ∃ q, a.walk? a.start text = some q ∧
      ((s.arena.tokenOf last).isSome → (a.accepted? q).isSome)
  accepts {text : List Char} {q : StateId} {token : AcceptToken} :
    a.walk? a.start text = some q → a.accepted? q = some token →
    ∃ last, s.Reads Arena.root text last ∧ s.arena.tokenOf last = some token

section Publishing

variable {a b : Arena} {holds : StateId → StateId → Prop} {n : Narrowing} {q x : StateId}
  {keys names : List String}

/-- What a widened state stands for goes on as the state does. -/
theorem exists_walk?_of_widened {lost : String → Char → Prop} (h : Arena.Widened lost b a holds)
    (hall : List.Forall₂ (Arena.Stands lost) keys names) (hq : holds q x)
    (hw : b.walk? x keys = some last) : ∃ q', a.walk? q names = some q' ∧ holds q' last := by
  induction hall generalizing q x with
  | nil =>
    cases hw
    exact ⟨q, rfl, hq⟩
  | @cons key name _ _ hstands _ ih =>
    obtain ⟨x', hl, hw⟩ := Option.bind_eq_some_iff.1 hw
    obtain ⟨q', hl', hq'⟩ := h.link hq hl hstands
    obtain ⟨q'', hw', hq''⟩ := ih hq' hw
    refine ⟨q'', ?_, hq''⟩
    rw [Arena.walk?, hl']
    exact hw'

/-- A widened state goes on only as something that it stands for does. -/
theorem exists_walk?_of_walk?_widened {lost : String → Char → Prop}
    (h : Arena.Widened lost b a holds) {q' : StateId} (hw : a.walk? q names = some q')
    (hlast : holds q' last) :
    ∃ x keys, holds q x ∧ b.walk? x keys = some last ∧
      List.Forall₂ (Arena.Stands lost) keys names := by
  induction names generalizing q with
  | nil =>
    cases hw
    exact ⟨last, [], hlast, rfl, .nil⟩
  | cons name names ih =>
    obtain ⟨next, hl, hw⟩ := Option.bind_eq_some_iff.1 hw
    obtain ⟨x', keys, hx', hwalk, hall⟩ := ih hw
    obtain ⟨x, key, hx, hl', hstands⟩ := h.back hl hx'
    refine ⟨x, key :: keys, hx, ?_, .cons hstands hall⟩
    rw [Arena.walk?, hl']
    exact hwalk

/-- The keys that stand for characters are those that stand for their classes. -/
theorem forall₂_takes_iff (hn : n.Narrowed g.Spelled g.classTable)
    (hnames : List.Forall₂ (fun name c => n.classOf c = some name) names text) :
    List.Forall₂ n.Takes keys text ↔
      List.Forall₂ (Arena.Stands (Arena.lostOf n.removed)) keys names := by
  have hone {key name : String} {c : Char} (hname : n.classOf c = some name) :
      n.Takes key c ↔ Arena.Stands (Arena.lostOf n.removed) key name := by
    constructor
    · rintro (hkey | hlost)
      · exact .inl (Option.some.inj (hname.symm.trans hkey))
      · exact .inr ⟨c, hlost, Option.some.inj (hname.symm.trans (hn.own key c hlost).2)⟩
    · rintro (rfl | ⟨d, hlost, rfl⟩)
      · exact .inl hname
      · -- the class named by the lost character has this character alone
        obtain ⟨k, hk, hkname, hmem⟩ := SymbolClass.exists_of_classOf hname
        obtain rfl := hn.clear.named k hk c d (hn.own key d hlost).1 hkname hmem
        exact .inr hlost
  induction hnames generalizing keys with
  | nil => simp
  | cons hname _ ih =>
    constructor
    · rintro (_ | ⟨ht, hrest⟩)
      exact .cons ((hone hname).1 ht) (ih.1 hrest)
    · rintro (_ | ⟨ht, hrest⟩)
      exact .cons ((hone hname).2 ht) (ih.2 hrest)

/-- Every character that a key stands for has a class. -/
theorem exists_names (hn : n.Narrowed g.Spelled g.classTable)
    (hall : List.Forall₂ n.Takes keys text) :
    ∃ names, List.Forall₂ (fun name c => n.classOf c = some name) names text := by
  induction hall with
  | nil => exact ⟨[], .nil⟩
  | cons ht _ ih =>
    obtain ⟨names, hnames⟩ := ih
    rcases ht with hkey | hlost
    · exact ⟨_, .cons hkey hnames⟩
    · exact ⟨_, .cons (hn.own _ _ hlost).2 hnames⟩

/-- An automaton goes on by characters as its states do by the classes of these. -/
theorem walk?_iff_states (a : FiniteAutomaton) (q last : StateId) (text : List Char) :
    a.walk? q text = some last ↔ ∃ names,
      List.Forall₂ (fun name c => SymbolClass.classOf a.classTable.symbolClasses c = some name)
        names text ∧
      FiniteState.walk? a.states q names = some last := by
  induction text generalizing q with
  | nil => simp [FiniteAutomaton.walk?, FiniteState.walk?]
  | cons c text ih =>
    rw [FiniteAutomaton.walk?, FiniteAutomaton.step?, Narrowing.className?_symbolInfo,
      Option.bind_assoc]
    constructor
    · intro h
      obtain ⟨name, hname, h⟩ := Option.bind_eq_some_iff.1 h
      obtain ⟨next, hl, h⟩ := Option.bind_eq_some_iff.1 h
      obtain ⟨names, hnames, hw⟩ := (ih next).1 h
      refine ⟨name :: names, .cons hname hnames, ?_⟩
      rw [FiniteState.walk?]
      exact Option.bind_eq_some_iff.2 ⟨next, hl, hw⟩
    · rintro ⟨_, hnames, hw⟩
      cases hnames with
      | @cons name _ names _ hname hrest =>
        obtain ⟨next, hl, hw⟩ := Option.bind_eq_some_iff.1 hw
        refine Option.bind_eq_some_iff.2 ⟨name, hname, Option.bind_eq_some_iff.2 ⟨next, hl, ?_⟩⟩
        exact (ih next).2 ⟨names, hrest, hw⟩

end Publishing

/-- Widening and minimizing sound states publishes them. -/
theorem Sound.published (hs : s.Sound g) (hclear : g.classTable.Clear g.Spelled) {arena : Arena}
    (hw : s.arena.widen s.narrowing.removed = some arena) :
    Published g s ⟨minimize arena Arena.root, 0, s.narrowing.table, s.narrowing.removed⟩ := by
  have hself : ∀ key c d, Arena.lostOf s.narrowing.removed key d →
      Arena.lostOf s.narrowing.removed (String.singleton d) c → c = d := by
    intro key c d hd hlost
    rcases hs.narrowed.lost _ c hlost with hstart | hname
    · obtain ⟨k, hk, hname, hmem⟩ := SymbolClass.exists_of_classOf hstart
      exact hclear.named k hk c d (hs.narrowed.own key d hd).1 hname hmem
    · exact (String.singleton_inj.1 hname).symm
  obtain ⟨holds, hwidened⟩ := Arena.exists_widened hs.closed hself hw
  obtain ⟨stands, hmin⟩ := exists_minimized hwidened.closed.inRange hwidened.closed.root
  have hroot : holds Arena.root Arena.root := (hwidened.root _).2 rfl
  refine ⟨hs, rfl, rfl, fun {text last} hr => ?_, fun {text q token} hq ht => ?_⟩
  · obtain ⟨keys, hall, hwk⟩ := hr
    obtain ⟨names, hnames⟩ := exists_names hs.narrowed hall
    obtain ⟨t, ht, hlast⟩ := exists_walk?_of_widened hwidened
      ((forall₂_takes_iff hs.narrowed hnames).1 hall) hroot hwk
    obtain ⟨q, hq, hstands⟩ := hmin.exists_walk? hmin.start ht
    refine ⟨q, (walk?_iff_states _ _ _ _).2 ⟨names, hnames, hq⟩, fun htoken => ?_⟩
    unfold FiniteAutomaton.accepted? FiniteAutomaton.state?
    rw [hmin.token hstands]
    exact hwidened.token hlast htoken
  · obtain ⟨names, hnames, hwq⟩ := (walk?_iff_states _ _ _ _).1 hq
    obtain ⟨t, hwk, hstands⟩ := hmin.exists_walk?_arena hmin.start hwq
    unfold FiniteAutomaton.accepted? FiniteAutomaton.state? at ht
    rw [hmin.token hstands] at ht
    obtain ⟨last, hlast, htoken⟩ := hwidened.tokenBack ht
    obtain ⟨x, keys, hx, hback, hkeys⟩ := exists_walk?_of_walk?_widened hwidened hwk hlast
    obtain rfl := (hwidened.root x).1 hx
    exact ⟨last, ⟨keys, (forall₂_takes_iff hs.narrowed hnames).2 hkeys, hback⟩, htoken⟩

/-- The automaton of a grammar with clear classes is published from sound states. -/
theorem exists_published {a : FiniteAutomaton} (hclear : g.classTable.Clear g.Spelled)
    (hu : ∀ text ∈ g.unclassifiedTerminals, ∀ c ∈ text.toList, g.Spelled c)
    (h : FiniteAutomaton.ofGrammar g = .ok a) :
    ∃ s₁ s₂ s, g.tokens.foldlM (addToken g) (ofTable g.classTable) = .ok s₁ ∧ s₁.Sound g ∧
      addTerminals g s₁ = .ok s₂ ∧ s₂.Sound g ∧ s₁.Grows s₂ ∧
      Pathed g s₂ (genericTerminals g) ∧
      s = addSingleDelimiter g s₂ ∧ s₂.Grows s ∧ Published g s a := by
  obtain ⟨s', hs', ha⟩ := Fault.bind_eq_ok_iff.1 h
  obtain ⟨s₁, s₂, arena, h₁, h₂, hw, rfl⟩ := ofGrammar_cases hs'
  cases ha
  obtain ⟨hs₁, -⟩ := foldlM_addToken_spec (sound_ofTable hclear) h₁
  obtain ⟨hs₂, hg₂, hpathed⟩ := addTerminals_spec hs₁ hu h₂
  obtain ⟨hs, hg, -⟩ := addSingleDelimiter_spec hs₂
  exact ⟨s₁, s₂, _, h₁, hs₁, h₂, hs₂, hg₂, hpathed, rfl, hg, hs.published hclear hw⟩

end Synthesis

end Syntagma
