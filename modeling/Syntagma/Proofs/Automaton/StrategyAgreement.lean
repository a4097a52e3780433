import Mathlib
import Syntagma.Proofs.Automaton.PushdownTable
import Syntagma.Proofs.Grammar.Compilation

/-! The two strategies agree. For a grammar that can be walked every node reached from the axiom
has a trie, so its table can be built, and a walk over the table is a walk over the tries. -/

namespace Syntagma

namespace PushdownAutomaton

theorem exists_ofGrammar_of_linked {g : Grammar} (h : g.Linked) : ∃ p, ofGrammar g = .ok p := by
  refine ⟨_, ofGrammar_eq_ok_iff.2 ⟨?_, rfl⟩⟩
  refine forall_mem_discover h.start (fun id hid x hx => ?_)
  obtain ⟨trie, ht⟩ := Option.isSome_iff_exists.1 hid
  rw [ht, Option.map_some, Option.getD_some, successors, List.mem_append, List.mem_flatMap] at hx
  rcases hx with ⟨e, he, hx⟩ | hx
  · rcases List.mem_append.1 hx with hx | hx
    · exact h.continuation id trie ht e he x (Option.mem_toList.1 hx)
    · split at hx
      next hd =>
        rw [List.mem_singleton.1 hx]
        exact (Bool.and_eq_true_iff.1 hd).2
      · exact absurd hx List.not_mem_nil
  · exact h.recursion id trie ht x (Option.mem_toList.1 hx)

end PushdownAutomaton

theorem exists_ofGrammar_of_compile {description : GrammarDescription} {options : GrammarOptions}
    {g : Grammar} (h : Grammar.compile description options = .ok g) :
    ∃ p, PushdownAutomaton.ofGrammar g = .ok p :=
  PushdownAutomaton.exists_ofGrammar_of_linked (linked_of_compile h)

/-- The verdict on some tokens, all the way from the description. -/
def GrammarDescription.verdict (description : GrammarDescription) (options : GrammarOptions)
    (settings : AnalysisOptions) (tokens : List Token) : Except Fault Outcome := do
  let g ← Grammar.compile description options
  let p ← PushdownAutomaton.ofGrammar g
  (analyze g p settings tokens).1

theorem verdict_eq_ok_iff {description : GrammarDescription} {options : GrammarOptions}
    {settings : AnalysisOptions} {tokens : List Token} {outcome : Outcome} :
    description.verdict options settings tokens = .ok outcome ↔ ∃ g,
      Grammar.compile description options = .ok g ∧ ∃ p, PushdownAutomaton.ofGrammar g = .ok p ∧
        (analyze g p settings tokens).1 = .ok outcome := by
  simp only [GrammarDescription.verdict, Fault.bind_eq_ok_iff]

/-! ### Sums -/

/-- A terminal with nothing but its text. -/
def literal (text : String) : CaseElement := .terminal ⟨text, none, [], [], none, none⟩

/-- A description with all the rest as small as can be. -/
def descriptionOf (axiomDefinition : Definition) : GrammarDescription :=
  ⟨"plain", "unknown", [' '], axiomDefinition⟩

/-- Left-recursive sums of one letter. -/
def sums : GrammarDescription :=
  descriptionOf (.mk "Sum" .medium
    [[.reference "Sum", literal "+", literal "a"], [literal "a"]])

/-- A token of a script in one line. -/
def tokenAt (offset : Nat) (name : String) (id : NodeId) : Token :=
  ⟨name, some id, .unclassified, ⟨0, offset, offset⟩⟩

def sumTokens : List Token := [tokenAt 0 "a" 1, tokenAt 1 "+" 0, tokenAt 2 "a" 1]

/-- What is reported for a sum that ends with its sign. -/
def unfinishedSum : Diagnostic :=
  ⟨.syntactic, .unexpectedEndOfScript, "Unexpected end of script. Expected: a", [tokenAt 1 "+" 0],
    2, ["a"]⟩

theorem verdict_sums : ∃ g, Grammar.compile sums {} = .ok g ∧ ∃ p,
    PushdownAutomaton.ofGrammar g = .ok p ∧ (analyze g p {} sumTokens).1 = .ok (.accepted 5) ∧
      (analyze g p {} (sumTokens.take 2)).1 = .ok (.rejected unfinishedSum) := by
  have hwhole : sums.verdict {} {} sumTokens = .ok (.accepted 5) := by cbv
  have hpart : sums.verdict {} {} (sumTokens.take 2) = .ok (.rejected unfinishedSum) := by cbv
  obtain ⟨g, hg, p, hp, hwhole⟩ := verdict_eq_ok_iff.1 hwhole
  obtain ⟨g', hg', p', hp', hpart⟩ := verdict_eq_ok_iff.1 hpart
  obtain rfl := Except.ok.inj (hg.symm.trans hg')
  obtain rfl := Except.ok.inj (hp.symm.trans hp')
  exact ⟨g, hg, p, hp, hwhole, hpart⟩

/-! ### Agreement -/

/-- Every compiled grammar has a table, and with every script and all options the walk over the
table ends as the walk over the tries does, with the same events on the way. -/
theorem strategies_agree {description : GrammarDescription} {options : GrammarOptions} {g : Grammar}
    (h : Grammar.compile description options = .ok g) :
    ∃ p, PushdownAutomaton.ofGrammar g = .ok p ∧
      ∀ (settings : AnalysisOptions) (tokens : List Token),
        analyze g p { settings with strategy := .table } tokens =
          analyze g p { settings with strategy := .descent } tokens := by
  obtain ⟨p, hp⟩ := exists_ofGrammar_of_compile h
  refine ⟨p, hp, fun settings tokens => ?_⟩
  rw [analyze_eq_descent hp, analyze_eq_descent hp]
  rfl

/-- The two walks over sums agree with every script. -/
theorem strategies_agree_on_sums : ∃ g p, Grammar.compile sums {} = .ok g ∧
    PushdownAutomaton.ofGrammar g = .ok p ∧ ∀ (settings : AnalysisOptions) (tokens : List Token),
      analyze g p { settings with strategy := .table } tokens =
        analyze g p { settings with strategy := .descent } tokens := by
  obtain ⟨g, hg, -⟩ := verdict_sums
  obtain ⟨p, hp, hagree⟩ := strategies_agree hg
  exact ⟨g, p, hg, hp, hagree⟩

end Syntagma
