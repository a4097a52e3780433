import Syntagma.Proofs.Analysis.Termination
import Syntagma.Proofs.Lexing.ListedTerminals
import Syntagma.Session

/-! The verdict of a session and its diagnostics. A branch of the search goes on behind a token only
if the token was recognized, so a script that is accepted has no other tokens. As each unrecognized
token has its diagnostic, and so has every rejection, a script is accepted exactly if there is
none. -/

namespace Syntagma

namespace Search

open Relation (ReflTransGen)

variable {P : Type} {s : Search P} {f g : Frame P}

/-- Every token that the branch has gone past was recognized. -/
def Recognized (s : Search P) (f : Frame P) : Prop :=
  ∀ k < f.token, ∀ t, s.tokens[k]? = some t → t.isUndefined = false

/-- A token that leads on, or with which the search accepts, was recognized. -/
theorem not_isUndefined_of_tokenMove (h : ∀ t, s.tokenMove f ≠ .undefined t) {t : Token}
    (ht : s.tokens[f.token]? = some t) : t.isUndefined = false := by
  cases hid : t.id with
  | some id => rw [Token.isUndefined, hid, Option.isNone_some]
  | none =>
    refine absurd ?_ (h t)
    simp only [tokenMove, ht, hid]

theorem recognized_of_token_eq (h : s.Recognized f) (ht : g.token = f.token) : s.Recognized g := by
  intro k hk
  exact h k (ht ▸ hk)

/-- Behind the next token of a branch. -/
theorem recognized_of_token_succ (h : s.Recognized f) (hm : ∀ t, s.tokenMove f ≠ .undefined t)
    (ht : g.token = f.token + 1) : s.Recognized g := by
  intro k hk t htoken
  rcases Nat.lt_succ_iff_lt_or_eq.1 (ht ▸ hk) with hlt | rfl
  · exact h k hlt t htoken
  · exact not_isUndefined_of_tokenMove hm htoken

theorem recognized_of_visit {new : List (Frame P)} (h : s.Recognized f)
    (hv : (s.visit f).next = .frames new) (hg : g ∈ new) : s.Recognized g := by
  obtain ⟨progress, moved, dived, hm, -, -⟩ := exists_of_visit hv
  have hgoes : ∀ t, s.tokenMove f ≠ .undefined t := fun t he => nomatch hm.symm.trans he
  cases successor_of_visit hv hg with
  | token _ ht => exact recognized_of_token_succ h hgoes ht
  | dive ht => exact recognized_of_token_eq h ht
  | resume ht => exact recognized_of_token_eq h ht

theorem recognized_of_turns {work work' : List (Frame P)} (h : ReflTransGen s.Turns work work')
    (hw : ∀ f ∈ work, s.Recognized f) : ∀ f ∈ work', s.Recognized f := by
  induction h with
  | refl => exact hw
  | tail _ ht ih =>
    cases ht with
    | visit hv =>
      intro g hg
      rcases List.mem_append.1 hg with hg | hg
      · exact recognized_of_visit (ih _ List.mem_cons_self) hv hg
      · exact ih g (List.mem_cons_of_mem _ hg)

/-- The search accepts only where no token is left behind the one it looks at. -/
theorem size_le_of_accept (h : s.tokenMove f = .accept) : s.tokens.size ≤ f.token + 1 := by
  unfold tokenMove at h
  split at h
  next hnone => exact Nat.le_succ_of_le (Array.getElem?_eq_none_iff.1 hnone)
  next t ht =>
    split at h
    · exact nomatch h
    split at h
    · exact nomatch h
    · exact nomatch h
    · split at h
      · exact nomatch h
      · split at h
        next hnone => exact Array.getElem?_eq_none_iff.1 hnone
        · exact nomatch h

theorem tokenMove_of_accepted (h : (s.visit f).next = .accepted) : s.tokenMove f = .accept := by
  unfold visit at h
  split at h
  next hm => exact hm
  · exact nomatch h
  · split at h <;> exact nomatch h

theorem recognized_of_accepted (h : s.Recognized f) (hv : (s.visit f).next = .accepted) :
    ∀ t ∈ s.tokens, t.isUndefined = false := by
  intro t ht
  have hm := tokenMove_of_accepted hv
  have hgoes : ∀ t, s.tokenMove f ≠ .undefined t := fun t he => nomatch hm.symm.trans he
  obtain ⟨k, hk⟩ := Array.mem_iff_getElem?.1 ht
  have hlt : k < f.token + 1 :=
    Nat.lt_of_lt_of_le (Array.getElem?_eq_some_iff.1 hk).1 (size_le_of_accept hm)
  rcases Nat.lt_succ_iff_lt_or_eq.1 hlt with hlt | rfl
  · exact h k hlt t hk
  · exact not_isUndefined_of_tokenMove hgoes hk

/-- A run that accepts has gone past recognized tokens only, and past all of them. -/
theorem recognized_of_run {frames : List (Frame P)} {log : Log P}
    (hw : ∀ f ∈ frames, s.Recognized f) (h : (s.run frames log).1 = .accepted) :
    ∀ t ∈ s.tokens, t.isUndefined = false := by
  obtain ⟨work, hturns, hends⟩ := run_ends frames log
  rw [h] at hends
  cases hends with
  | accepted hv =>
    exact recognized_of_accepted (recognized_of_turns hturns hw _ List.mem_cons_self) hv

theorem accepted_of_outcome {log : Log P} {verdict : Verdict P} {steps : Nat}
    (h : s.outcome log verdict = .ok (.accepted steps)) : verdict = .accepted := by
  cases verdict with
  | accepted => rfl
  | _ => exact nomatch h

theorem recognized_of_search {steps : Nat} (h : s.search.1 = .ok (.accepted steps)) :
    s.tokens.isEmpty = false ∧ ∀ t ∈ s.tokens, t.isUndefined = false := by
  unfold search at h
  split at h
  · exact nomatch h
  next hsome =>
    refine ⟨Bool.eq_false_iff.2 hsome, ?_⟩
    split at h
    · exact nomatch h
    next first hfirst =>
      have hstart : ∀ f ∈ [first], s.Recognized f := by
        intro f hf k hk
        rw [List.mem_singleton.1 hf, (size_le_of_enter? hfirst).1] at hk
        exact absurd hk (Nat.not_lt_zero k)
      exact recognized_of_run hstart (accepted_of_outcome h)

end Search

/-- Without leave to pass over them, unrecognized tokens are not accepted; nor is a script without
tokens. -/
theorem Cursor.recognized_of_analyze {P : Type} {cursor : Cursor P} {options : AnalysisOptions}
    {tokens : List Token} {steps : Nat} (hoff : options.ignoreUndefined = false)
    (h : (cursor.analyze options tokens).1 = .ok (.accepted steps)) :
    tokens ≠ [] ∧ ∀ t ∈ tokens, t.isUndefined = false := by
  have hsearch : (Search.search ⟨cursor, tokens.toArray, options.maxDepth⟩).1 =
      .ok (.accepted steps) := by
    simp only [analyze, hoff, Bool.false_eq_true, if_false] at h
    split at h
    next outcome events hs => rw [hs, ← h]
    next fault events hs => cases h
  obtain ⟨hsome, hall⟩ := Search.recognized_of_search hsearch
  exact ⟨by simpa using hsome, by simpa using hall⟩

theorem recognized_of_analyze {g : Grammar} {p : PushdownAutomaton} {options : AnalysisOptions}
    {tokens : List Token} {steps : Nat} (hoff : options.ignoreUndefined = false)
    (h : (analyze g p options tokens).1 = .ok (.accepted steps)) :
    tokens ≠ [] ∧ ∀ t ∈ tokens, t.isUndefined = false := by
  unfold analyze at h
  split at h
  · exact Cursor.recognized_of_analyze hoff h
  · exact Cursor.recognized_of_analyze hoff h

namespace Session

variable {s : Session} {script : String} {report : Report}

/-- The report on a script: of a blank one that it is empty; of any other its tokens, one diagnostic
for each that was not recognized, and how their analysis ended. -/
theorem report_cases (h : (s.run script).1 = .ok report) :
    report = ⟨[], [.emptyScript], none⟩ ∨ ∃ tokens outcome,
      report = ⟨tokens, (tokens.filter (·.isUndefined)).map .undefinedLexeme, some outcome⟩ ∧
        (Syntagma.analyze s.grammar s.artifacts.pushdown s.options.analysis tokens).1 = .ok outcome := by
  by_cases hblank : Text.isBlankText script
  · refine .inl ?_
    simp only [run, lex, Lexer.run, if_pos hblank] at h
    exact (Except.ok.inj h).symm
  · refine .inr ?_
    simp only [run, lex, Lexer.run, if_neg hblank] at h
    split at h
    next hempty =>
      -- every diagnostic of a script that is not blank is about a token
      obtain ⟨d, hd, hkind⟩ := List.any_eq_true.1 hempty
      obtain ⟨t, -, rfl⟩ := List.mem_map.1 hd
      cases of_decide_eq_true hkind
    · obtain ⟨outcome, houtcome, rfl⟩ := Fault.map_eq_ok_iff.1 h
      exact ⟨_, outcome, rfl, houtcome⟩

/-- A session that does not pass over unrecognized tokens accepts exactly the scripts for which it
has no diagnostics: none with an unrecognized token, and none that it found no tokens in. -/
theorem isAccepted_iff_diagnostics_eq_nil (hoff : s.options.analysis.ignoreUndefined = false)
    (h : (s.run script).1 = .ok report) :
    (report.isAccepted ↔ report.diagnostics = []) ∧
      ((∃ t ∈ report.tokens, t.isUndefined) → report.isAccepted = false) ∧
      (report.tokens = [] → report.isAccepted = false) := by
  rcases report_cases h with rfl | ⟨tokens, outcome, rfl, houtcome⟩
  · exact ⟨by decide, fun _ => rfl, fun _ => rfl⟩
  cases outcome with
  | rejected d => exact ⟨by simp [Report.isAccepted, Report.diagnostics, Outcome.isAccepted,
      Outcome.diagnostic?], fun _ => rfl, fun _ => rfl⟩
  | accepted steps =>
    obtain ⟨hne, hall⟩ := recognized_of_analyze hoff houtcome
    have hclean : tokens.filter (·.isUndefined) = [] :=
      List.filter_eq_nil_iff.2 (fun t ht => by simp [hall t ht])
    refine ⟨⟨fun _ => ?_, fun _ => rfl⟩, fun ⟨t, ht, hu⟩ => ?_, fun hnone => absurd hnone hne⟩
    · simp [Report.diagnostics, hclean, Outcome.diagnostic?]
    · exact absurd hu (by simp [hall t ht])

/-! ### Tags -/

/-- Tags: a sign with a letter behind it, and nothing else begins with a letter. -/
def tags : GrammarDescription :=
  descriptionOf (.mk "Line" .medium
    [[.definition (.mk "Tag" (.token "tag" none)
      [[literal "#", .definition (.mk "Letter" (.symbolClass "letter" "ab") [])]])]])

/-- Whether a script has no tokens, whether one is unrecognized, and whether it is accepted. -/
def finding (s : Session) (script : String) : Except Fault (Bool × Bool × Bool) :=
  (s.run script).1.map (fun r =>
    (r.tokens.isEmpty, r.tokens.any (·.isUndefined), r.isAccepted))

/-- A tag is accepted without diagnostics; letters alone leave the session without tokens, and it
has diagnostics for them, as for a tag with an unrecognized character behind it. -/
theorem verdicts_of_tags : ∃ (s : Session) (shown skipped stray : Report),
    s.options.analysis.ignoreUndefined = false ∧
    (s.run "#a").1 = .ok shown ∧ shown.diagnostics = [] ∧
    (s.run "ab").1 = .ok skipped ∧ skipped.tokens = [] ∧ skipped.diagnostics ≠ [] ∧
    (s.run "#a?").1 = .ok stray ∧ (∃ t ∈ stray.tokens, t.isUndefined) ∧
      stray.diagnostics ≠ [] := by
  have hrun : ((Grammar.compile tags {}).bind (fun g => (ofGrammar g {} .disabled).1)).map (fun s =>
      (s.options.analysis.ignoreUndefined, s.finding "#a", s.finding "ab", s.finding "#a?")) =
        .ok (false, .ok (false, false, true), .ok (true, false, false), .ok (false, true, false)) := by
    cbv
  obtain ⟨s, -, hfound⟩ := Fault.map_eq_ok_iff.1 hrun
  obtain ⟨hoff, hfound⟩ := Prod.mk.inj hfound
  obtain ⟨hshown, hfound⟩ := Prod.mk.inj hfound
  obtain ⟨hskipped, hstray⟩ := Prod.mk.inj hfound
  obtain ⟨shown, hshown, hs⟩ := Fault.map_eq_ok_iff.1 hshown
  obtain ⟨skipped, hskipped, hk⟩ := Fault.map_eq_ok_iff.1 hskipped
  obtain ⟨stray, hstray, ht⟩ := Fault.map_eq_ok_iff.1 hstray
  simp only [Prod.mk.injEq, List.isEmpty_iff, List.any_eq_true] at hs hk ht
  have hreject {script : String} {r : Report} (hr : (s.run script).1 = .ok r)
      (hnot : r.isAccepted = false) : r.diagnostics ≠ [] := fun hnil =>
    Bool.eq_false_iff.1 hnot ((isAccepted_iff_diagnostics_eq_nil hoff hr).1.2 hnil)
  exact ⟨s, shown, skipped, stray, hoff, hshown,
    (isAccepted_iff_diagnostics_eq_nil hoff hshown).1.1 hs.2.2, hskipped, hk.1,
    hreject hskipped hk.2.2, hstray, ht.2.1, hreject hstray ht.2.2⟩

end Session

end Syntagma
