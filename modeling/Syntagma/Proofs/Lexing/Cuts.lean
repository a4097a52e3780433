import Syntagma.Lexer

/-! How a script is cut into tokens. The pieces are described from left to right with the text
behind them in sight, so that a piece can be said to go on as far as the automaton does. The loop
that reads character by character cuts every script in this way. -/

namespace Syntagma

/-- Where a text leads from a state, if each of its characters has a link. -/
def FiniteAutomaton.walk? (a : FiniteAutomaton) : StateId → List Char → Option StateId
  | state, [] => some state
  | state, c :: rest => (a.step? state c).bind (fun next => a.walk? next rest)

theorem FiniteAutomaton.walk?_append (a : FiniteAutomaton) (state : StateId)
    (text more : List Char) :
    a.walk? state (text ++ more) = (a.walk? state text).bind (fun next => a.walk? next more) := by
  induction text generalizing state with
  | nil => rfl
  | cons d text ih =>
    simp only [List.cons_append, walk?]
    cases a.step? state d with
    | none => rfl
    | some next => exact ih next

theorem FiniteAutomaton.walk?_append_singleton (a : FiniteAutomaton) (state : StateId)
    (text : List Char) (c : Char) :
    a.walk? state (text ++ [c]) = (a.walk? state text).bind (fun next => a.step? next c) := by
  rw [walk?_append]
  congr 1
  funext next
  exact Option.bind_fun_some (a.step? next c)

namespace Lexer

/-- The place behind a text. -/
def advanceOver (options : LexerOptions) (p : Position) (text : List Char) : Position :=
  text.foldl (advance options) p

theorem offset_advance (options : LexerOptions) (p : Position) (c : Char) :
    (advance options p c).offset = p.offset + 1 := by
  unfold advance
  repeat' split
  all_goals rfl

theorem offset_advanceOver (options : LexerOptions) (p : Position) (text : List Char) :
    (advanceOver options p text).offset = p.offset + text.length := by
  induction text generalizing p with
  | nil => rfl
  | cons c text ih =>
    have hrest := ih (advance options p c)
    rw [offset_advance] at hrest
    simp only [advanceOver, List.foldl_cons, List.length_cons] at hrest ⊢
    omega

theorem advanceOver_append (options : LexerOptions) (p : Position) (text more : List Char) :
    advanceOver options p (text ++ more) =
      advanceOver options (advanceOver options p text) more := by
  simp [advanceOver]

/-- The token for a word that ends in a state of the automaton, from its place in the script. -/
def tokenOf (lexer : Lexer) (p : Position) (word : List Char) (state : StateId) : Token :=
  lexer.resolve (String.ofList word) state
    ((advanceOver lexer.options p word).back word.length)

/-- The tokens of a text that starts at a place and has `rest` behind it. A word is as long as the
automaton has links; a character without a link from the start is a token of its own if it is
undefined, and otherwise passed over. -/
inductive Cuts (lexer : Lexer) (rest : List Char) : Position → List Char → List Token → Prop where
  | nil (p : Position) : Cuts lexer rest p [] []
  | word {p : Position} {word text : List Char} {state : StateId} {tokens : List Token}
    (hne : word ≠ []) (hwalk : lexer.automaton.walk? lexer.automaton.start word = some state)
    (hend : ∀ c ∈ (text ++ rest).head?, lexer.automaton.step? state c = none)
    (htext : Cuts lexer rest (advanceOver lexer.options p word) text tokens) :
    Cuts lexer rest p (word ++ text) (lexer.tokenOf p word state :: tokens)
  | stray {p : Position} {c : Char} {text : List Char} {tokens : List Token}
    (hstep : lexer.automaton.step? lexer.automaton.start c = none)
    (hinfo : lexer.automaton.classTable.symbolInfo c = .undefined)
    (htext : Cuts lexer rest (advance lexer.options p c) text tokens) :
    Cuts lexer rest p (c :: text) (.undefined (String.singleton c) p :: tokens)
  | passed {p : Position} {c : Char} {text : List Char} {tokens : List Token}
    (hstep : lexer.automaton.step? lexer.automaton.start c = none)
    (hinfo : lexer.automaton.classTable.symbolInfo c ≠ .undefined)
    (htext : Cuts lexer rest (advance lexer.options p c) text tokens) :
    Cuts lexer rest p (c :: text) tokens

namespace Cuts

variable {lexer : Lexer} {rest text more : List Char} {p : Position} {tokens tokens' : List Token}
  {c : Char}

theorem append (h : lexer.Cuts (more ++ rest) p text tokens)
    (h' : lexer.Cuts rest (advanceOver lexer.options p text) more tokens') :
    lexer.Cuts rest p (text ++ more) (tokens ++ tokens') := by
  induction h with
  | nil p => exact h'
  | word hne hwalk hend _ ih =>
    rw [advanceOver_append] at h'
    rw [List.append_assoc, List.cons_append]
    exact .word hne hwalk (by rwa [List.append_assoc]) (ih h')
  | stray hstep hinfo _ ih => exact .stray hstep hinfo (ih h')
  | passed hstep hinfo _ ih => exact .passed hstep hinfo (ih h')

theorem append_word {word : List Char} {state : StateId}
    (h : lexer.Cuts (word ++ rest) p text tokens) (hne : word ≠ [])
    (hwalk : lexer.automaton.walk? lexer.automaton.start word = some state)
    (hend : ∀ c ∈ rest.head?, lexer.automaton.step? state c = none) :
    lexer.Cuts rest p (text ++ word)
      (tokens ++ [lexer.tokenOf (advanceOver lexer.options p text) word state]) := by
  have hlast : lexer.Cuts rest (advanceOver lexer.options p text) (word ++ [])
      [lexer.tokenOf (advanceOver lexer.options p text) word state] :=
    .word hne hwalk hend (.nil _)
  rw [List.append_nil] at hlast
  exact h.append hlast

theorem append_stray (h : lexer.Cuts (c :: rest) p text tokens)
    (hstep : lexer.automaton.step? lexer.automaton.start c = none)
    (hinfo : lexer.automaton.classTable.symbolInfo c = .undefined) :
    lexer.Cuts rest p (text ++ [c])
      (tokens ++ [.undefined (String.singleton c) (advanceOver lexer.options p text)]) := by
  have hfirst : lexer.Cuts ([c] ++ rest) p text tokens := h
  exact hfirst.append (.stray hstep hinfo (.nil _))

theorem append_passed (h : lexer.Cuts (c :: rest) p text tokens)
    (hstep : lexer.automaton.step? lexer.automaton.start c = none)
    (hinfo : lexer.automaton.classTable.symbolInfo c ≠ .undefined) :
    lexer.Cuts rest p (text ++ [c]) tokens := by
  have hfirst : lexer.Cuts ([c] ++ rest) p text tokens := h
  have hboth := hfirst.append (.passed hstep hinfo (.nil _))
  rwa [List.append_nil] at hboth

theorem eq_nil_of_text_eq_nil (h : lexer.Cuts rest p text tokens) (hnil : text = []) :
    tokens = [] := by
  cases h with
  | nil => rfl
  | word hne _ _ _ => exact absurd (List.append_eq_nil_iff.1 hnil).1 hne
  | stray _ _ _ => cases hnil
  | passed _ _ _ => cases hnil

/-- A text that the automaton reads to its end is cut into one word. -/
theorem eq_of_walk (h : lexer.Cuts [] p text tokens) (hne : text ≠ []) {state : StateId}
    (hwalk : lexer.automaton.walk? lexer.automaton.start text = some state) :
    tokens = [lexer.tokenOf p text state] := by
  cases h with
  | nil => exact absurd rfl hne
  | @word _ word behind state' tokens _ hword hend htext =>
    rw [FiniteAutomaton.walk?_append, hword, Option.bind_some] at hwalk
    cases behind with
    | nil =>
      cases hwalk
      rw [htext.eq_nil_of_text_eq_nil rfl, List.append_nil]
    | cons c behind =>
      rw [FiniteAutomaton.walk?, hend c rfl] at hwalk
      cases hwalk
  | stray hstep _ _ =>
    rw [FiniteAutomaton.walk?, hstep] at hwalk
    cases hwalk
  | passed hstep _ _ =>
    rw [FiniteAutomaton.walk?, hstep] at hwalk
    cases hwalk

end Cuts

/-! ### The loop -/

/-- What has been read of a script, save for the cursor: text that is cut, and then the word being
read. -/
structure Reads (lexer : Lexer) (text rest : List Char) (r : Reading) : Prop where
  walk : lexer.automaton.walk? lexer.automaton.start r.lexeme.reverse = some r.state
  cuts : ∃ settled, text = settled ++ r.lexeme.reverse ∧
    lexer.Cuts (r.lexeme.reverse ++ rest) .start settled r.tokens.reverse

variable {lexer : Lexer} {text rest : List Char} {r : Reading} {c : Char}

theorem Reads.state_eq (h : lexer.Reads text rest r) (hnil : r.lexeme = []) :
    r.state = lexer.automaton.start := by
  have hwalk := h.walk
  rw [hnil] at hwalk
  exact (Option.some.inj hwalk).symm

theorem reads_start (lexer : Lexer) (rest : List Char) : lexer.Reads [] rest lexer.start :=
  ⟨rfl, [], rfl, .nil _⟩

/-- A character with a link goes on with the word. -/
theorem Reads.take (h : lexer.Reads text (c :: rest) r) {next : StateId}
    (hstep : lexer.automaton.step? r.state c = some next) :
    lexer.Reads (text ++ [c]) rest (take r c next) := by
  obtain ⟨hwalk, settled, rfl, hcuts⟩ := h
  refine ⟨?_, settled, ?_, ?_⟩
  · simp only [Lexer.take, List.reverse_cons]
    rw [FiniteAutomaton.walk?_append_singleton, hwalk, Option.bind_some, hstep]
  · simp [Lexer.take]
  · simpa [Lexer.take] using hcuts

/-- Ending the word settles it, as no link goes on from where it led. -/
theorem Reads.finishToken (h : lexer.Reads text rest r) (hne : r.lexeme ≠ [])
    (hcursor : r.cursor = advanceOver lexer.options .start text)
    (hend : ∀ c ∈ rest.head?, lexer.automaton.step? r.state c = none) :
    lexer.Reads text rest (lexer.finishToken r) := by
  obtain ⟨hwalk, settled, rfl, hcuts⟩ := h
  refine ⟨rfl, settled ++ r.lexeme.reverse, ?_, ?_⟩
  · simp [Lexer.finishToken]
  · have hword := hcuts.append_word (by simpa using hne) hwalk hend
    simp only [tokenOf, ← advanceOver_append, ← hcursor, List.length_reverse] at hword
    simpa [Lexer.finishToken, emit] using hword

/-- With no word being read, a character starts one, or is a piece of its own. -/
theorem Reads.begin (h : lexer.Reads text (c :: rest) r) (hnil : r.lexeme = [])
    (hcursor : r.cursor = advanceOver lexer.options .start text) :
    lexer.Reads (text ++ [c]) rest (lexer.begin r c) := by
  have hstate := h.state_eq hnil
  unfold Lexer.begin
  cases hstep : lexer.automaton.step? r.state c with
  | some next => exact h.take hstep
  | none =>
    obtain ⟨hwalk, settled, rfl, hcuts⟩ := h
    rw [hstate] at hstep
    simp only [hnil, List.reverse_nil, List.nil_append, List.append_nil] at hwalk hcuts hcursor ⊢
    unfold Lexer.skip
    split
    next hinfo =>
      have hstray := hcuts.append_stray hstep hinfo
      rw [← hcursor] at hstray
      refine ⟨by simpa [emit, hnil] using hwalk, settled ++ [c], by simp [emit, hnil], ?_⟩
      simpa [emit, hnil] using hstray
    next hinfo =>
      have hpassed := hcuts.append_passed hstep hinfo
      refine ⟨by simpa [hnil] using hwalk, settled ++ [c], by simp [hnil], ?_⟩
      simpa [hnil] using hpassed

theorem cursor_begin (lexer : Lexer) (r : Reading) (c : Char) :
    (lexer.begin r c).cursor = r.cursor := by
  unfold Lexer.begin
  split
  · rfl
  · unfold Lexer.skip
    split <;> rfl

theorem Reads.of_cursor (h : lexer.Reads text rest r) (p : Position) :
    lexer.Reads text rest { r with cursor := p } :=
  ⟨h.walk, h.cuts⟩

theorem Reads.of_events (h : lexer.Reads text rest r) (events : List TraceEvent) :
    lexer.Reads text rest { r with events := events } :=
  ⟨h.walk, h.cuts⟩

/-- Reading a character, whether it goes on with a word, ends one, or is none of a word. -/
theorem Reads.feed (h : lexer.Reads text (c :: rest) r)
    (hcursor : r.cursor = advanceOver lexer.options .start text) :
    lexer.Reads (text ++ [c]) rest (lexer.feed r c) ∧
      (lexer.feed r c).cursor = advanceOver lexer.options .start (text ++ [c]) := by
  have hmove (p : Position) (hp : p = advanceOver lexer.options .start text) :
      advance lexer.options p c = advanceOver lexer.options .start (text ++ [c]) := by
    rw [advanceOver_append, ← hp]
    rfl
  unfold Lexer.feed
  by_cases hnil : r.lexeme = []
  · simp only [hnil, List.isEmpty_nil, if_true]
    refine ⟨(h.begin hnil hcursor).of_cursor _, hmove _ ?_⟩
    rw [cursor_begin, hcursor]
  · have hempty : r.lexeme.isEmpty = false := by simpa using hnil
    simp only [hempty, Bool.false_eq_true, if_false]
    cases hstep : lexer.automaton.step? r.state c with
    | some next => exact ⟨(h.take hstep).of_cursor _, hmove _ hcursor⟩
    | none =>
      have hend : ∀ d ∈ (c :: rest).head?, lexer.automaton.step? r.state d = none := by
        intro d hd
        obtain rfl := Option.some.inj hd
        exact hstep
      have hdone := (h.of_events (.lexerStep c r.state none :: r.events)).finishToken hnil
        hcursor hend
      refine ⟨(hdone.begin rfl hcursor).of_cursor _, hmove _ ?_⟩
      rw [cursor_begin]
      exact hcursor

theorem Reads.foldl_feed {script : List Char} (h : lexer.Reads text (script ++ rest) r)
    (hcursor : r.cursor = advanceOver lexer.options .start text) :
    lexer.Reads (text ++ script) rest (script.foldl lexer.feed r) ∧
      (script.foldl lexer.feed r).cursor =
        advanceOver lexer.options .start (text ++ script) := by
  induction script generalizing text r with
  | nil => simpa using And.intro h hcursor
  | cons c script ih =>
    obtain ⟨hread, hplace⟩ := h.feed hcursor
    have hrest := ih hread hplace
    rwa [List.append_assoc] at hrest

/-- With no word being read, all that was read is cut. -/
theorem Reads.cuts_of_lexeme_eq_nil (h : lexer.Reads text rest r) (hnil : r.lexeme = []) :
    lexer.Cuts rest .start text r.tokens.reverse := by
  obtain ⟨-, settled, hsettled, hcuts⟩ := h
  rw [hnil] at hcuts hsettled
  simp only [List.reverse_nil, List.append_nil, List.nil_append] at hcuts hsettled
  subst hsettled
  exact hcuts

/-- The whole script is cut into the tokens that were read. -/
theorem cuts_readAll (lexer : Lexer) (script : List Char) :
    lexer.Cuts [] .start script (lexer.readAll script).tokens.reverse := by
  have hstart : lexer.Reads [] (script ++ []) lexer.start := reads_start lexer _
  obtain ⟨hread, hplace⟩ := hstart.foldl_feed rfl
  rw [List.nil_append] at hread hplace
  unfold readAll finish
  by_cases hnil : (script.foldl lexer.feed lexer.start).lexeme = []
  · simp only [hnil, List.isEmpty_nil, if_true]
    exact hread.cuts_of_lexeme_eq_nil hnil
  · have hempty : (script.foldl lexer.feed lexer.start).lexeme.isEmpty = false := by
      simpa using hnil
    simp only [hempty, Bool.false_eq_true, if_false]
    have hdone := hread.finishToken hnil hplace (fun c hc => nomatch hc)
    exact hdone.cuts_of_lexeme_eq_nil rfl

end Lexer

end Syntagma
