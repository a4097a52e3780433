import Syntagma.Proofs.Automaton.GeneratedTexts
import Syntagma.Proofs.Lexing.ListedTerminals

/-! Defined tokens are recognized. If the classes can be told apart, the automaton of a grammar
accepts every text that a token generates as the tour through it follows. These are all of its texts
if the mediums that come again in the token begin with none of their kind. -/

namespace Syntagma

namespace FiniteAutomaton

open Grammar (Generates)
open TokenWalk (UnfoldsToken unfoldsToken? unfoldsToken_of_search)

/-- Whether the automaton reads a text to a state that accepts. -/
def accepts (a : FiniteAutomaton) (text : List Char) : Bool :=
  (a.walk? a.start text).any (fun state => (a.accepted? state).isSome)

theorem accepts_iff {a : FiniteAutomaton} {text : List Char} : a.accepts text ↔
    ∃ state, a.walk? a.start text = some state ∧ (a.accepted? state).isSome := by
  unfold accepts
  cases a.walk? a.start text <;> simp

/-- Names that start with a letter and go on with letters and digits. -/
def names : GrammarDescription :=
  descriptionOf (.mk "Line" .medium
    [[.definition (.mk "Name" (.token "name" none)
      [[.definition (.mk "Letter" (.symbolClass "letter" "ab") []),
        .definition (.mk "Rest" .medium
          [[], [.reference "Letter", .reference "Rest"],
            [.definition (.mk "Digit" (.symbolClass "digit" "01") []), .reference "Rest"]])]])]])

/-- The cases of a medium that has other cases than empty ones and itself alone. -/
def substantialCases (g : Grammar) (id : NodeId) : List (List NodeId) :=
  (g.casesOf id).filter (fun _ => (g.casesOf id).any (fun other => other != [] && other != [id]))

/-- Whether a text has no white delimiters and a search finds it for a defined token. -/
def generatedText? (g : Grammar) (cases : NodeId → List (List NodeId)) (n : Node)
    (text : String) : Bool :=
  g.node? n.id == some n && n.isDefinedToken &&
    text.toList.all (fun c => !g.classTable.whiteDelimiters.contains c) &&
    g.generates? cases (text.length + 20) [n.id] text.toList

theorem generates_of_generatedText {g : Grammar} (rule : NodeId → List NodeId → Prop)
    {cases : NodeId → List (List NodeId)} (hrule : ∀ id, ∀ case ∈ cases id, rule id case) {n : Node}
    {text : String} (h : generatedText? g cases n text) : g.node? n.id = some n ∧ n.isDefinedToken ∧
      (∀ c ∈ text.toList, c ∉ g.classTable.whiteDelimiters) ∧
      Generates g rule [n.id] text.toList := by
  simp only [generatedText?, Bool.and_eq_true, beq_iff_eq, List.all_eq_true, Bool.not_eq_true',
    List.contains_eq_mem, decide_eq_false_iff_not] at h
  obtain ⟨⟨⟨hn, ht⟩, hplain⟩, hsearch⟩ := h
  exact ⟨hn, ht, hplain, Grammar.generates_of_search hrule hsearch⟩

/-- Runs of one letter and of another behind it, up to an end. Both loop, and the first begins with
the second. -/
def runs : GrammarDescription :=
  descriptionOf (.mk "Line" .medium
    [[.definition (.mk "Run" (.token "run" none)
      [[literal "x", .reference "Run"],
        [.definition (.mk "Tail" .medium [[literal "y", .reference "Tail"], [literal "z"]])]])]])

/-- The automaton of the grammar accepts the texts. -/
def Accepts (description : GrammarDescription) (texts : List String) : Prop :=
  ∃ g a, Grammar.compile description {} = .ok g ∧ FiniteAutomaton.ofGrammar g = .ok a ∧
    ∀ text ∈ texts, ∃ state, a.walk? a.start text.toList = some state ∧ (a.accepted? state).isSome

/-- A loop to a medium that begins with another one that is looped to. -/
def chained : GrammarDescription :=
  descriptionOf (.mk "Line" .medium
    [[.definition (.mk "Word" (.token "word" none)
      [[literal "a", .definition (.mk "First" .medium
        [[literal "c", .definition (.mk "Second" .medium
          [[literal "e", .definition (.mk "Third" .medium
            [[literal "f"], [.reference "Second"]])], [.reference "First"]])],
          [literal "d"]])]])]])

/-- A loop to a medium that generates the empty text by a case that is not empty. -/
def emptied : GrammarDescription :=
  descriptionOf (.mk "Line" .medium
    [[.definition (.mk "Word" (.token "word" none)
      [[literal "a", .definition (.mk "First" .medium
        [[literal "b", .reference "First"],
          [.definition (.mk "Second" .medium [[], [literal "c"]])]])]])]])

/-- A loop to a medium that begins with a terminal without a text. -/
def silent : GrammarDescription :=
  descriptionOf (.mk "Line" .medium
    [[.definition (.mk "Word" (.token "word" none)
      [[literal "a", .definition (.mk "First" .medium
        [[literal "b", .reference "First"], [literal "", literal "c"]])]])]])

/-- A token of a class that shares a character with one declared before it. -/
def overlapping : GrammarDescription :=
  descriptionOf (.mk "Line" .medium
    [[.definition (.mk "One" (.token "one" none)
        [[.definition (.mk "First" (.symbolClass "first" "ab") [])]])],
      [.definition (.mk "Two" (.token "two" none)
        [[.definition (.mk "Second" (.symbolClass "second" "bc") []), .reference "Second"]])]])

/-- A class named by the text of a terminal. -/
def misnamed : GrammarDescription :=
  descriptionOf (.mk "Line" .medium
    [[.definition (.mk "Word" (.token "word" none)
      [[.definition (.mk "Letter" (.symbolClass "x" "ab") []), literal "x"]])]])

/-- A terminal with a character that is in two classes. -/
def doubled : GrammarDescription :=
  descriptionOf (.mk "Line" .medium
    [[.definition (.mk "Word" (.token "word" none)
        [[.definition (.mk "First" (.symbolClass "first" "ab") []),
          .definition (.mk "Second" (.symbolClass "second" "b") [])]])],
      [.definition (.mk "Mark" (.token "mark" none) [[literal "xb"]])]])

/-- A token with a medium that has only an empty case. -/
def hollow : GrammarDescription :=
  descriptionOf (.mk "Line" .medium
    [[.definition (.mk "Word" (.token "word" none)
      [[literal "a", .definition (.mk "Nothing" .medium [[]])]])]])

/-- The automaton of the grammar does not accept a text that a defined token generates. -/
def Misses (description : GrammarDescription) (text : String) : Prop :=
  ∃ g a n, Grammar.compile description {} = .ok g ∧ FiniteAutomaton.ofGrammar g = .ok a ∧
    g.node? n.id = some n ∧ n.isDefinedToken ∧ text ≠ "" ∧
    (∀ c ∈ text.toList, c ∉ g.classTable.whiteDelimiters) ∧
    Generates g g.published [n.id] text.toList ∧
    ¬∃ state, a.walk? a.start text.toList = some state ∧ (a.accepted? state).isSome

theorem misses_of_lexer {description : GrammarDescription} {text : String} (hne : text ≠ "")
    (h : description.lexer.map (fun lexer => lexer.grammar.tokens.any (fun n =>
      generatedText? lexer.grammar lexer.grammar.casesOf n text &&
        !lexer.automaton.accepts text.toList)) = .ok true) : Misses description text := by
  obtain ⟨g, a, hg, ha, hholds⟩ := GrammarDescription.exists_of_lexer description _ h
  obtain ⟨n, -, hn⟩ := List.any_eq_true.1 hholds
  obtain ⟨hgen, hout⟩ := Bool.and_eq_true_iff.1 hn
  obtain ⟨hnode, htoken, hplain, hgen⟩ :=
    generates_of_generatedText g.published (fun _ _ hc => hc) hgen
  refine ⟨g, a, n, hg, ha, hnode, htoken, hne, hplain, hgen, fun haccepts => ?_⟩
  rw [accepts_iff.2 haccepts] at hout
  cases hout

end FiniteAutomaton

end Syntagma
