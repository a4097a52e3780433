import Syntagma.Proofs.Analysis.Run
import Syntagma.Proofs.Automaton.StrategyAgreement

/-! The depth limit. A search looks at it only when it enters a position. As long as no position is too
deep, each visit is the same under a greater limit, and so is the whole search: it ends with the same
outcome, after as many visits and with the same events. -/

namespace Syntagma

namespace Search

variable {P : Type} {s : Search P} {limit : Nat} {f g : Frame P}

/-- The same search under another limit. -/
def withLimit (s : Search P) (limit : Nat) : Search P := ⟨s.cursor, s.tokens, limit⟩

/-- A position that is not too deep is not so under a greater limit. -/
theorem enter?_withLimit (hle : s.maxDepth ≤ limit) {token idle : Nat} {place : P} {stack : Stack P}
    (h : s.enter? token place stack idle = some g) :
    (s.withLimit limit).enter? token place stack idle = some g := by
  unfold enter? at h ⊢
  simp only [Option.ite_none_left_eq_some, Bool.or_eq_true, decide_eq_true_eq, not_or,
    Nat.not_lt] at h ⊢
  obtain ⟨⟨hstack, hidle⟩, he⟩ := h
  exact ⟨⟨Nat.le_trans hstack hle, Nat.le_trans hidle hle⟩, he⟩

theorem diveAll_withLimit (hle : s.maxDepth ≤ limit) {dives : List (Dive P)}
    {frames : List (Frame P)} (h : (s.diveAll f dives).2 = some frames) :
    (s.withLimit limit).diveAll f dives = s.diveAll f dives := by
  induction dives generalizing frames with
  | nil => rfl
  | cons d rest ih =>
    unfold diveAll at h ⊢
    cases hd : s.dive? f d with
    | none =>
      rw [hd] at h
      cases h
    | some g =>
      have hd' : (s.withLimit limit).dive? f d = some g := enter?_withLimit hle hd
      rw [hd] at h
      obtain ⟨more, hmore, -⟩ := Option.map_eq_some_iff.1 h
      simp only [hd', ih hmore]

/-- A visit sees the limit in its dives alone. -/
theorem visit_withLimit (hle : s.maxDepth ≤ limit) (h : (s.visit f).next ≠ .tooDeep) :
    (s.withLimit limit).visit f = s.visit f := by
  have hmove : (s.withLimit limit).tokenMove f = s.tokenMove f := rfl
  have hleave : (s.withLimit limit).leave f = s.leave f := rfl
  have hdives : (s.withLimit limit).cursor.dives f.place = s.cursor.dives f.place := rfl
  unfold visit at h ⊢
  rw [hmove, hleave, hdives]
  cases hgo : s.tokenMove f with
  | accept => rfl
  | undefined token => rfl
  | go progress moved =>
    rw [hgo] at h
    rcases hd : s.diveAll f (s.cursor.dives f.place) with ⟨events, _ | dived⟩
    · simp [hd] at h
    · have hsame : (s.withLimit limit).diveAll f (s.cursor.dives f.place) =
          s.diveAll f (s.cursor.dives f.place) :=
        diveAll_withLimit hle (congrArg Prod.snd hd)
      simp only [hsame, hd]

/-- Both searches go on in step, visit by visit, up to the end of the first. -/
theorem run_withLimit (hle : s.maxDepth ≤ limit) {frames : List (Frame P)} {log : Log P}
    (h : (s.run frames log).1 ≠ .tooDeep) :
    (s.withLimit limit).run frames log = s.run frames log := by
  have hvisit {f : Frame P} {next : Next P} (hv : (s.visit f).next = next) (hne : next ≠ .tooDeep) :
      (s.withLimit limit).visit f = s.visit f ∧ ((s.withLimit limit).visit f).next = next := by
    have hsame := visit_withLimit hle (hv ▸ hne)
    exact ⟨hsame, hsame ▸ hv⟩
  induction frames, log using Search.run.induct s with
  | case1 log => rw [run_nil, run_nil]
  | case2 log f rest v hv =>
    obtain ⟨hsame, hv'⟩ := hvisit hv (by simp)
    rw [run_of_accepted hv, run_of_accepted hv', hsame]
  | case3 log f rest v token hv =>
    obtain ⟨hsame, hv'⟩ := hvisit hv (by simp)
    rw [run_of_undefined hv, run_of_undefined hv', hsame]
  | case4 log f rest v hv =>
    rw [run_of_tooDeep hv] at h
    exact absurd rfl h
  | case5 log f rest v new hv ih =>
    obtain ⟨hsame, hv'⟩ := hvisit hv (by simp)
    rw [run_of_frames hv] at h ⊢
    rw [run_of_frames hv', hsame]
    exact ih h

theorem search_withLimit (hle : s.maxDepth ≤ limit) {outcome : Outcome}
    (h : s.search.1 = .ok outcome) : (s.withLimit limit).search = s.search := by
  have hstart : (s.withLimit limit).cursor.start = s.cursor.start := rfl
  have htokens : (s.withLimit limit).tokens = s.tokens := rfl
  unfold search at h ⊢
  rw [hstart, htokens]
  split
  next => rfl
  next hne =>
    rw [if_neg hne] at h
    cases he : s.enter? 0 s.cursor.start .empty 0 with
    | none =>
      rw [he] at h
      cases h
    | some first =>
      have he' := enter?_withLimit hle he
      rw [he] at h
      have hrun : (s.withLimit limit).run [first] .empty = s.run [first] .empty := by
        refine run_withLimit hle (fun hdeep => ?_)
        simp only [hdeep, Search.outcome] at h
        cases h
      rcases hend : s.run [first] .empty with ⟨verdict, log⟩
      simp only [hend] at h
      simp only [he', hrun, hend]
      -- the limit is named by the one verdict that is not there
      cases verdict with
      | tooDeep => cases h
      | _ => rfl

end Search

/-- Over either cursor the limit changes nothing but whether there is an answer. -/
theorem Cursor.analyze_eq_of_le {P : Type} (cursor : Cursor P) {options : AnalysisOptions}
    {tokens : List Token} {d d' : Nat} {outcome : Outcome} (hle : d ≤ d')
    (h : (cursor.analyze { options with maxDepth := d } tokens).1 = .ok outcome) :
    cursor.analyze { options with maxDepth := d' } tokens =
      cursor.analyze { options with maxDepth := d } tokens := by
  unfold analyze at h ⊢
  dsimp only at h ⊢
  generalize (if options.ignoreUndefined then tokens.filter (fun t => !t.isUndefined)
    else tokens) = kept at h ⊢
  have hsearch : (Search.search ⟨cursor, kept.toArray, d⟩).1 = .ok outcome := by
    rcases hs : Search.search ⟨cursor, kept.toArray, d⟩ with ⟨_ | found, events⟩ <;>
      rw [hs] at h <;> exact h
  have hsame : Search.search ⟨cursor, kept.toArray, d'⟩ =
      Search.search ⟨cursor, kept.toArray, d⟩ :=
    Search.search_withLimit (s := ⟨cursor, kept.toArray, d⟩) hle hsearch
  rw [hsame]

/-- What is decided under one limit is decided in the same way under every greater one: with the same
number of steps or the same diagnostic, and with the same events. -/
theorem analyze_under_greater_limit (g : Grammar) (p : PushdownAutomaton)
    {options : AnalysisOptions} {tokens : List Token} {d d' : Nat} {outcome : Outcome}
    (hle : d ≤ d') (h : (analyze g p { options with maxDepth := d } tokens).1 = .ok outcome) :
    analyze g p { options with maxDepth := d' } tokens =
      (.ok outcome, (analyze g p { options with maxDepth := d } tokens).2) := by
  have hsame : analyze g p { options with maxDepth := d' } tokens =
      analyze g p { options with maxDepth := d } tokens := by
    unfold analyze at h ⊢
    dsimp only at h ⊢
    cases hs : options.strategy <;> rw [hs] at h
    · exact g.cursor.analyze_eq_of_le hle h
    · exact p.cursor.analyze_eq_of_le hle h
  rw [hsame, ← h]

/-- Sums are read with one position to resume at a time, so what is decided under the least limit of
all that are not too small is decided under the usual one. -/
theorem analyze_sums_under_greater_limit : ∃ g p, Grammar.compile sums {} = .ok g ∧
    PushdownAutomaton.ofGrammar g = .ok p ∧
    (analyze g p { maxDepth := 0 } sumTokens).1 = .error (.of (.depthExceeded 0)) ∧ 1 ≤ 10000 ∧
    (analyze g p { maxDepth := 1 } sumTokens).1 = .ok (.accepted 5) ∧
    analyze g p { maxDepth := 10000 } sumTokens =
      (.ok (.accepted 5), (analyze g p { maxDepth := 1 } sumTokens).2) := by
  have hleast : sums.verdict {} { maxDepth := 1 } sumTokens = .ok (.accepted 5) := by cbv
  obtain ⟨g, hg, p, hp, hleast⟩ := verdict_eq_ok_iff.1 hleast
  have hnone : sums.verdict {} { maxDepth := 0 } sumTokens =
      .error (.of (.depthExceeded 0)) := by cbv
  rw [GrammarDescription.verdict, hg] at hnone
  change (PushdownAutomaton.ofGrammar g >>= fun p =>
    (analyze g p { maxDepth := 0 } sumTokens).1) = _ at hnone
  rw [hp] at hnone
  exact ⟨g, p, hg, hp, hnone, by decide, hleast,
    @analyze_under_greater_limit g p {} sumTokens 1 10000 _ (by decide) hleast⟩

end Syntagma
