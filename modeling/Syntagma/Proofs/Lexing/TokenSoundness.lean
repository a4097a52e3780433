import Syntagma.Proofs.Automaton.TokenTexts
import Syntagma.Proofs.Grammar.FirstCharacters
import Syntagma.Proofs.Grammar.WellFormed
import Syntagma.Proofs.Lexing.ListedTerminals

/-! Defined tokens are recognized soundly. Whatever the lexer takes for a defined token is a text
that the token generates, white delimiters left out, if loops stand alone and no case is there
twice. Without that a loop can lead on into the texts of another token. -/

namespace Syntagma

/-- No class of the automaton that is left with one character has lost others. -/
def FiniteAutomaton.Spared (a : FiniteAutomaton) : Prop :=
  ∀ name c d, a.classTable.classSymbols? name = some [c] → d ∈ (a.narrowed.get? name).getD [] → d = c

/-- Whether all classes that are left with one character have lost no others. -/
def FiniteAutomaton.spared? (a : FiniteAutomaton) : Bool :=
  a.narrowed.entries.all (fun e => match a.classTable.classSymbols? e.1 with
    | some [c] => e.2.all (fun d => d == c)
    | _ => true)

theorem FiniteAutomaton.spared_of_check {a : FiniteAutomaton} (h : a.spared?) : a.Spared := by
  intro name c d hone hd
  cases hlost : a.narrowed.get? name with
  | none =>
    rw [hlost] at hd
    cases hd
  | some lost =>
    rw [hlost] at hd
    have hall := List.all_eq_true.1 h _ (Dictionary.mem_entries_iff.2 hlost)
    rw [hone] at hall
    exact beq_iff_eq.1 (List.all_eq_true.1 hall d hd)

namespace Classified

variable {entered : Draft} {g : Grammar} {f : NodeId → NodeId}

theorem nodup_tokens (h : Classified entered g f) : g.tokens.Nodup := by
  refine List.Nodup.filter _ (List.nodup_iff_getElem?_ne_getElem?.2 (fun i j hlt hj heq => ?_))
  have hn := List.getElem?_eq_getElem hj
  have hi := h.id_eq i _ ((Array.getElem?_toList ..).symm.trans (heq.trans hn))
  have hj := h.id_eq j _ ((Array.getElem?_toList ..).symm.trans hn)
  exact Nat.ne_of_lt hlt (hi.symm.trans hj)

end Classified

section Recognized

variable {description : GrammarDescription} {options : GrammarOptions} {g : Grammar}
  {a : FiniteAutomaton} (hg : Grammar.compile description options = .ok g)
  (ha : FiniteAutomaton.ofGrammar g = .ok a) (hclear : g.classTable.Clear g.Spelled)
  (hclasses : g.ClassesExact) (hspared : a.Spared) (hloops : g.LoopsAlone) (hcases : g.Unrepeated)

include hg ha hclear hclasses hspared hloops hcases in
/-- A text that leads to an accepting state is written by the token of this state, unless this is
unclassified. -/
theorem writes_of_accepted {chars : List Char} {q : StateId} {accepted : AcceptToken}
    (hw : a.walk? a.start chars = some q) (ht : a.accepted? q = some accepted)
    (hname : accepted.className ≠ a.classTable.unclassifiedName) :
    ∃ token ∈ g.tokens, token.name = accepted.name ∧ g.Writes [token.id] chars [] := by
  obtain ⟨_, _, _, -, hclassified⟩ := classified_of_compile hg
  obtain ⟨s₁, s₂, s, h₁, hs₁, h₂, hs₂, hg₂, -, rfl, hg₃, hp⟩ :=
    Synthesis.exists_published hclear hclassified.spelled_of_unclassified ha
  have hnarrowed := hp.sound.narrowed
  have hexact : (Synthesis.addSingleDelimiter g s₂).narrowing.Exact g := by
    refine ⟨hclasses, hclear, hnarrowed, ?_⟩
    unfold FiniteAutomaton.Spared at hspared
    rwa [hp.table, hp.narrowed] at hspared
  have htelling : Synthesis.Telling g (Synthesis.addSingleDelimiter g s₂).narrowing :=
    ⟨Grammar.factored_of_compile hg, passable_of_compile hg, hexact, hloops, hcases⟩
  have hordered := (Synthesis.ordered_ofTable g _ g.tokens g.classTable).foldlM_addToken htelling
    (fun token ht => ⟨ht, hclassified.isMedium_of_mem_tokens ht⟩) hclassified.nodup_tokens
    (Synthesis.sound_ofTable hclear) (hg₂.trans hg₃).narrowing h₁
  have hfit := Synthesis.fit_addSingleDelimiter
    (Synthesis.fit_addTerminals ⟨hs₁.closed, hordered.fitting⟩ h₂)
  refine (hp.writes hfit.fitting hw ht).resolve_left (fun hunclassified => hname ?_)
  rw [hp.table, hnarrowed.unclassified, hunclassified]

end Recognized

namespace Lexer

variable {lexer : Lexer} {rest text : List Char} {p : Position} {tokens : List Token} {token : Token}
  {id : NodeId}

/-- A token with a number comes from a word. -/
theorem Cuts.exists_word (h : lexer.Cuts rest p text tokens) (ht : token ∈ tokens)
    (hid : token.id = some id) : ∃ p word state,
      lexer.automaton.walk? lexer.automaton.start word = some state ∧
        token = lexer.tokenOf p word state := by
  induction h with
  | nil => cases ht
  | word _ hwalk _ _ ih =>
    rcases List.mem_cons.1 ht with rfl | ht
    · exact ⟨_, _, _, hwalk, rfl⟩
    · exact ih ht
  | stray _ _ _ ih =>
    rcases List.mem_cons.1 ht with rfl | ht
    · cases hid
    · exact ih ht
  | passed _ _ _ ih => exact ih ht

/-- A word that is named is a listed terminal or accepted for a defined token. -/
theorem resolve_id_cases {name : String} {state : StateId}
    (h : (lexer.resolve name state p).id = some id) : lexer.grammar.terminalByName? name = some id ∨
      ∃ accepted, lexer.automaton.accepted? state = some accepted ∧
        accepted.className ≠ lexer.automaton.classTable.unclassifiedName ∧
        lexer.grammar.tokenByName? accepted.name = some id := by
  unfold resolve at h
  dsimp only at h
  split at h
  next listed hlisted =>
    cases h
    exact .inl hlisted
  split at h
  next accepted haccepted =>
    split at h
    next => cases h
    next hne =>
      split at h
      next found hfound =>
        cases h
        exact .inr ⟨accepted, haccepted, hne, hfound⟩
      next => cases h
  next => cases h

/-- Names that start with a letter, and labels that start with a sign. -/
def labels : GrammarDescription :=
  descriptionOf (.mk "Line" .medium
    [[.definition (.mk "Name" (.token "name" none)
        [[.definition (.mk "Letter" (.symbolClass "letter" "ab") []),
          .definition (.mk "Rest" .medium
            [[], [.reference "Letter", .reference "Rest"],
              [.definition (.mk "Digit" (.symbolClass "digit" "01") []), .reference "Rest"]])]])],
      [.definition (.mk "Label" (.token "label" none) [[literal "#", .reference "Rest"]]), literal ";"]])

/-- A token that loops behind a letter with which another token starts. -/
def crossing : GrammarDescription :=
  descriptionOf (.mk "Line" .medium
    [[.definition (.mk "Row" (.token "row" none) [[literal "a"], [literal "a", .reference "Row"]])],
      [.definition (.mk "Pair" (.token "pair" none) [[literal "a", literal "b"]])]])

end Lexer

end Syntagma
