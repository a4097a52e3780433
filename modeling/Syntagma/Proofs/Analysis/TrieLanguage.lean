import Syntagma.Proofs.Analysis.Standing
import Syntagma.Proofs.Automaton.StrategyAgreement

/-! The search decides the language of the tries. A frame is completed by the tokens it has left
exactly if one of the frames that follow it is, so a run that accepts has met a derivation and a
run that is exhausted has ruled all of them out. -/

namespace Syntagma

namespace Grammar

/-- A list of positions derives what its positions derive in turn. A position derives nothing, if
it may end; a token key followed by what the continuation derives; or what entering a nonterminal
derives, followed by what the continuation derives. -/
inductive Derives (g : Grammar) : List NodeId → List NodeId → Prop where
  | nil : Derives g [] []
  | stop {place : NodeId} {rest w : List NodeId} {trie : Trie} (ht : g.trie? place = some trie)
    (hi : trie.interruptable) (hrest : Derives g rest w) : Derives g (place :: rest) w
  | token {place a : NodeId} {rest u w : List NodeId} {trie : Trie} {next : Option NodeId}
    (ht : g.trie? place = some trie) (hc : (a, next) ∈ trie.cases) (hk : g.isTokenKey a)
    (hnext : Derives g next.toList u) (hrest : Derives g rest w) :
    Derives g (place :: rest) (a :: (u ++ w))
  | enter {place head : NodeId} {rest u v w : List NodeId} {trie : Trie} {next : Option NodeId}
    (ht : g.trie? place = some trie) (hc : (head, next) ∈ trie.cases)
    (hk : g.isTokenKey head = false) (hhead : Derives g (g.entered head) u)
    (hnext : Derives g next.toList v) (hrest : Derives g rest w) :
    Derives g (place :: rest) (u ++ (v ++ w))

namespace Derives

variable {g : Grammar} {xs ys u v w : List NodeId}

theorem append (h : g.Derives xs u) (h' : g.Derives ys v) : g.Derives (xs ++ ys) (u ++ v) := by
  induction h with
  | nil => exact h'
  | stop ht hi _ ih => exact .stop ht hi ih
  | token ht hc hk hnext _ _ ih =>
    have hd := Derives.token ht hc hk hnext ih
    simpa only [List.append_assoc, List.cons_append] using hd
  | enter ht hc hk hhead hnext _ _ _ ih =>
    have hd := Derives.enter ht hc hk hhead hnext ih
    simpa only [List.append_assoc, List.cons_append] using hd

theorem split (h : g.Derives (xs ++ ys) w) :
    ∃ u v, w = u ++ v ∧ g.Derives xs u ∧ g.Derives ys v := by
  induction xs generalizing w with
  | nil => exact ⟨[], w, rfl, .nil, h⟩
  | cons place xs ih =>
    cases h with
    | stop ht hi hrest =>
      obtain ⟨u, v, rfl, hu, hv⟩ := ih hrest
      exact ⟨u, v, rfl, .stop ht hi hu, hv⟩
    | token ht hc hk hnext hrest =>
      obtain ⟨u, v, rfl, hu, hv⟩ := ih hrest
      exact ⟨_, v, by simp, .token ht hc hk hnext hu, hv⟩
    | enter ht hc hk hhead hnext hrest =>
      obtain ⟨u, v, rfl, hu, hv⟩ := ih hrest
      exact ⟨_, v, by simp, .enter ht hc hk hhead hnext hu, hv⟩

end Derives

/-- The positions still to be gone through derive the tokens that are left. -/
def Completes (g : Grammar) (ids : List NodeId) (t : Standing) : Prop :=
  g.Derives t.places (ids.drop t.consumed)

variable {g : Grammar} {ids : List NodeId} {t t' : Standing}

theorem completes_of_leads (hl : g.Leads ids t t') (h : g.Completes ids t') :
    g.Completes ids t := by
  unfold Completes at h ⊢
  cases hl with
  | token ht hc hk ha =>
    obtain ⟨u, v, he, hu, hv⟩ := Derives.split h
    obtain ⟨hlt, ha⟩ := List.getElem?_eq_some_iff.1 ha
    rw [List.drop_eq_getElem_cons hlt, ha, he]
    exact .token ht hc hk hu hv
  | dive ht hc hk =>
    obtain ⟨u, v, he, hu, hv⟩ := Derives.split h
    obtain ⟨v, w, rfl, hv, hw⟩ := Derives.split hv
    rw [he]
    exact .enter ht hc hk hu hv hw
  | pop ht hi => exact .stop ht hi h

theorem exists_leads_of_completes {k : Nat} {place : NodeId} {rest : List NodeId}
    (h : g.Completes ids ⟨k, place :: rest⟩) :
    ∃ t, g.Leads ids ⟨k, place :: rest⟩ t ∧ g.Completes ids t := by
  unfold Completes at h
  generalize hw : ids.drop k = w at h
  cases h with
  | stop ht hi hrest => exact ⟨_, .pop ht hi, by rwa [Completes, hw]⟩
  | token ht hc hk hnext hrest =>
    have hlt : k < ids.length := by
      have := congrArg List.length hw
      simp at this
      omega
    rw [List.drop_eq_getElem_cons hlt, List.cons.injEq] at hw
    refine ⟨_, .token ht hc hk (List.getElem?_eq_some_iff.2 ⟨hlt, hw.1⟩), ?_⟩
    rw [Completes, hw.2]
    exact hnext.append hrest
  | enter ht hc hk hhead hnext hrest =>
    refine ⟨_, .dive ht hc hk, ?_⟩
    rw [Completes, hw]
    exact hhead.append (hnext.append hrest)

theorem completes_nil_iff {k : Nat} : g.Completes ids ⟨k, []⟩ ↔ ids.length ≤ k := by
  rw [← List.drop_eq_nil_iff, Completes]
  constructor
  · intro h
    generalize ids.drop k = w at h
    cases h
    rfl
  · intro h
    rw [h]
    exact .nil

theorem Stuck.not_completes (h : g.Stuck ids t) : ¬g.Completes ids t := by
  intro hc
  have hno {t' : Standing} : ¬g.Leads ids t t' := h.not_leads
  cases h with
  | ended hk => exact absurd (completes_nil_iff.1 hc) (Nat.not_le.2 hk)
  | bare hn =>
    obtain ⟨t, hl, -⟩ := exists_leads_of_completes hc
    exact hno hl

end Grammar

namespace Search

namespace Over

variable {s : Search NodeId} {g : Grammar} {ids : List NodeId}

/-- A run decides whether one of its frames is completed. -/
theorem run_decides (h : s.Over g ids) (frames : List (Frame NodeId)) (log : Log NodeId) :
    ((s.run frames log).1 = .accepted ∧ ∃ f ∈ frames, g.Completes ids f.standing) ∨
      (s.run frames log).1 = .tooDeep ∨
      ((s.run frames log).1 = .exhausted ∧ ∀ f ∈ frames, ¬g.Completes ids f.standing) := by
  induction frames, log using Search.run.induct s with
  | case1 log =>
    rw [run_nil]
    exact .inr (.inr ⟨rfl, fun _ hf => absurd hf List.not_mem_nil⟩)
  | case2 log f rest v hv =>
    rcases h.visit_cases f with ⟨-, k, hk, hl⟩ | hd | ⟨new, hd, -⟩
    · rw [run_of_accepted hv]
      exact .inl ⟨rfl, f, List.mem_cons_self, Grammar.completes_of_leads hl
        (Grammar.completes_nil_iff.2 hk)⟩
    · cases hd.symm.trans hv
    · cases hd.symm.trans hv
  | case3 log f rest v token hv =>
    rcases h.visit_cases f with ⟨hd, -⟩ | hd | ⟨new, hd, -⟩ <;> cases hd.symm.trans hv
  | case4 log f rest v hv =>
    rw [run_of_tooDeep hv]
    exact .inr (.inl rfl)
  | case5 log f rest v new hv ih =>
    rw [run_of_frames hv]
    rcases h.visit_cases f with ⟨hd, -⟩ | hd | ⟨new', hd, hf⟩
    · cases hd.symm.trans hv
    · cases hd.symm.trans hv
    obtain rfl : new = new' := Next.frames.inj (hv.symm.trans hd)
    rcases ih with ⟨hr, e, he, hc⟩ | hr | ⟨hr, hno⟩
    · refine .inl ⟨hr, ?_⟩
      rcases List.mem_append.1 he with he | he
      · exact ⟨f, List.mem_cons_self, Grammar.completes_of_leads (hf.leads e he) hc⟩
      · exact ⟨e, List.mem_cons_of_mem f he, hc⟩
    · exact .inr (.inl hr)
    · refine .inr (.inr ⟨hr, fun e he hc => ?_⟩)
      rcases List.mem_cons.1 he with rfl | he
      · obtain ⟨t, hl, hc⟩ := Grammar.exists_leads_of_completes hc
        rcases hf.all t hl with ⟨e, he, rfl⟩ | ⟨hs, -⟩
        · exact hno e (List.mem_append_left _ he) hc
        · exact hs.not_completes hc
      · exact hno e (List.mem_append_right _ he) hc

/-- A search over some tokens runs from entering the axiom, unless that is too deep. -/
theorem search_cases (h : s.Over g ids) (hne : ids ≠ []) :
    s.search.1 = .error (.of (.depthExceeded s.maxDepth)) ∨
      ∃ first, first.standing = ⟨0, g.entered g.axiomId⟩ ∧
        s.search.1 = s.outcome (s.run [first] .empty).2 (s.run [first] .empty).1 := by
  have hsize : s.tokens.isEmpty = false := by
    rw [Array.isEmpty_eq_false_iff]
    intro he
    exact hne (List.eq_nil_of_length_eq_zero (by rw [← h.size_eq, he]; rfl))
  unfold search
  rw [hsize, if_neg Bool.false_ne_true]
  cases he : s.enter? 0 s.cursor.start .empty 0 with
  | none => exact .inl rfl
  | some first =>
    refine .inr ⟨first, ?_, rfl⟩
    unfold enter? at he
    rw [h.cursor] at he
    simp only [Option.ite_none_left_eq_some, Option.some.injEq] at he
    obtain ⟨-, rfl⟩ := he
    simp [Frame.standing, Stack.items_pushAll, Grammar.entered, Grammar.cursor, Stack.empty]

end Over

end Search

/-! ### Whole analyses -/

theorem filter_isUndefined_of_ids {tokens : List Token} {ids : List NodeId}
    (h : tokens.map (·.id) = ids.map some) : tokens.filter (fun t => !t.isUndefined) = tokens := by
  refine List.filter_eq_self.2 (fun t ht => ?_)
  have hm : t.id ∈ ids.map some := h ▸ List.mem_map_of_mem ht
  obtain ⟨a, -, ha⟩ := List.mem_map.1 hm
  rw [Token.isUndefined, ← ha]
  rfl

/-- The search that an analysis makes over the tries. -/
def Grammar.searchOf (g : Grammar) (settings : AnalysisOptions) (tokens : List Token) :
    Search NodeId :=
  ⟨g.cursor, tokens.toArray, settings.maxDepth⟩

theorem Grammar.Linked.isOver {g : Grammar} (hg : g.Linked) {tokens : List Token}
    {ids : List NodeId} (h : tokens.map (·.id) = ids.map some) (settings : AnalysisOptions) :
    (g.searchOf settings tokens).Over g ids :=
  ⟨hg, rfl, h⟩

theorem analyze_eq_search {g : Grammar} {p : PushdownAutomaton}
    (hp : PushdownAutomaton.ofGrammar g = .ok p) (settings : AnalysisOptions) {tokens : List Token}
    {ids : List NodeId} (h : tokens.map (·.id) = ids.map some) :
    (analyze g p settings tokens).1 = (g.searchOf settings tokens).search.1 := by
  rw [analyze_eq_descent hp]
  simp only [Cursor.analyze, filter_isUndefined_of_ids h, ite_self, Grammar.searchOf]
  generalize Search.search _ = r
  obtain ⟨result, events⟩ := r
  cases result <;> rfl

/-- For a script of tokens with ids, the verdict says whether the axiom derives the ids. -/
theorem Grammar.Linked.analyze_decides {g : Grammar} (hg : g.Linked) {p : PushdownAutomaton}
    (hp : PushdownAutomaton.ofGrammar g = .ok p) (settings : AnalysisOptions) {tokens : List Token}
    {ids : List NodeId} (hne : tokens ≠ []) (h : tokens.map (·.id) = ids.map some) :
    (∀ steps, (analyze g p settings tokens).1 = .ok (.accepted steps) →
      g.Derives (g.entered g.axiomId) ids) ∧
    (∀ d, (analyze g p settings tokens).1 = .ok (.rejected d) →
      ¬g.Derives (g.entered g.axiomId) ids) ∧
    ∀ fault, (analyze g p settings tokens).1 = .error fault →
      fault = .of (.depthExceeded settings.maxDepth) := by
  have hover := hg.isOver h settings
  have hids : ids ≠ [] := by
    rintro rfl
    exact hne (List.map_eq_nil_iff.1 h)
  have hdeep {fault : Fault} (hf : (Except.error (.of (.depthExceeded settings.maxDepth)) :
      Except Fault Outcome) = .error fault) : fault = .of (.depthExceeded settings.maxDepth) :=
    (Except.error.inj hf).symm
  rw [analyze_eq_search hp settings h]
  rcases hover.search_cases hids with he | ⟨first, hfirst, he⟩
  · rw [he]
    exact ⟨fun _ hs => (nomatch hs), fun _ hd => (nomatch hd), fun _ hf => hdeep hf⟩
  have hcomplete : g.Completes ids first.standing ↔ g.Derives (g.entered g.axiomId) ids := by
    rw [hfirst]
    rfl
  rw [he]
  rcases hover.run_decides [first] .empty with ⟨hr, f, hf, hc⟩ | hr | ⟨hr, hno⟩
  · rw [hr]
    rw [List.mem_singleton.1 hf, hcomplete] at hc
    exact ⟨fun _ _ => hc, fun _ hd => (nomatch hd), fun _ hf => (nomatch hf)⟩
  · rw [hr]
    exact ⟨fun _ hs => (nomatch hs), fun _ hd => (nomatch hd), fun _ hf => hdeep hf⟩
  · rw [hr]
    have hnot := hno first (List.mem_singleton_self _)
    exact ⟨fun _ hs => (nomatch hs), fun _ _ hd => hnot (hcomplete.2 hd), fun _ hf => (nomatch hf)⟩

/-- For every compiled grammar and every script of tokens with ids: what is accepted is derived by
entering the axiom, what is rejected is not, and only a search that is too deep decides nothing. -/
theorem analysis_decides_trie_language {description : GrammarDescription}
    {options : GrammarOptions} {g : Grammar} (h : Grammar.compile description options = .ok g) :
    ∃ p, PushdownAutomaton.ofGrammar g = .ok p ∧
      ∀ (settings : AnalysisOptions) (tokens : List Token) (ids : List NodeId),
        tokens ≠ [] → tokens.map (·.id) = ids.map some →
        (∀ steps, (analyze g p settings tokens).1 = .ok (.accepted steps) →
          g.Derives (g.entered g.axiomId) ids) ∧
        (∀ d, (analyze g p settings tokens).1 = .ok (.rejected d) →
          ¬g.Derives (g.entered g.axiomId) ids) ∧
        ∀ fault, (analyze g p settings tokens).1 = .error fault →
          fault = .of (.depthExceeded settings.maxDepth) := by
  obtain ⟨p, hp⟩ := exists_ofGrammar_of_compile h
  exact ⟨p, hp, fun settings _ _ hne hids =>
    (linked_of_compile h).analyze_decides hp settings hne hids⟩

/-- The tries of sums derive a sum, and no sum that ends with its sign. -/
theorem trie_language_of_sums : ∃ g, Grammar.compile sums {} = .ok g ∧
    g.Derives (g.entered g.axiomId) [1, 0, 1] ∧ ¬g.Derives (g.entered g.axiomId) [1, 0] := by
  obtain ⟨g, hg, p, hp, hwhole, hpart⟩ := verdict_sums
  obtain ⟨p', hp', hdecides⟩ := analysis_decides_trie_language hg
  obtain rfl := Except.ok.inj (hp.symm.trans hp')
  have haccepted := (hdecides {} sumTokens [1, 0, 1] (by decide) rfl).1
  have hrejected := (hdecides {} (sumTokens.take 2) [1, 0] (by decide) rfl).2.1
  exact ⟨g, hg, haccepted 5 hwhole, hrejected unfinishedSum hpart⟩

end Syntagma
